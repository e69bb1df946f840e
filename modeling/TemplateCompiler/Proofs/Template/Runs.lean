/-
What a step of the builder has done when it succeeds.

A tag of the markup ends in one of a few ways, and where a tag in braces goes
depends on the state of the reader.  For the steps that succeed these are listed
here once; what the builder keeps is then shown way by way.

* `TagRuns`, `AttrRuns` — the ends of a tag of the markup and of an attribute;
* `ModifierRuns` — a mustache that modifies the start tag that is being read;
* `MustacheRuns` — the places of a mustache: a comment of the markup, a start tag,
  an attribute value, or a statement of its own;
* `CommentRuns`, `PartialRuns` — those of a comment in braces and of a partial;
* `BlockRuns` — a block in a comment, or its branches, run one after the other;
* `finishTag_runs`, `finishAttr_runs`, `mustache_runs`, `block_runs`, … — every step
  that succeeds is one of these;
* `endProgram_eq_ok`, `program_eq_ok`, `build_eq_ok` — when a program succeeds.
-/
import TemplateCompiler.Proofs.Diagnostic.Success
import TemplateCompiler.Template.Builder

namespace TemplateCompiler.Template

open Mustache (Node Program)

namespace Builder

variable {source : Source} {b b' : Builder}

/-! ### Tags of the markup -/

/-- What has become of a tag of the markup that ended. -/
inductive TagRuns (b : Builder) (pos : Nat) : Builder → Prop
  | absent (htag : b.tag = none) : TagRuns b pos b
  /-- The element is void, or its tag closes itself. -/
  | complete {tag kept : StartTag} {start : Nat} (htag : b.tag = some (.opening tag start))
    (hname : tag.name ≠ ":") (hkept : extractBlockParams tag = .ok kept)
    (hcomplete : isVoid kept.name = true ∨ kept.selfClosing = true) :
    TagRuns b pos (Builder.append { b with tag := none } (.element kept [] ⟨start, pos⟩))
  | opened {tag kept : StartTag} {start : Nat} (htag : b.tag = some (.opening tag start))
    (hname : tag.name ≠ ":") (hkept : extractBlockParams tag = .ok kept)
    (hopens : isVoid kept.name = false ∧ kept.selfClosing = false) :
    TagRuns b pos (Builder.push { b with tag := none } (.element kept [] ⟨start, pos⟩))
  /-- An end tag closes the innermost open element. -/
  | closed {tag : StartTag} {children : List Statement} {span : Span} {rest : List Frame}
    {start : Nat} (htag : b.tag = some (.closing tag.name start))
    (hvoid : isVoid tag.name = false) (hframes : b.frames = .element tag children span :: rest) :
    TagRuns b pos (Builder.append { b with tag := none, frames := rest }
      (.element tag children { span with stop := pos }))

theorem finishTag_runs {pos : Nat} (h : b.finishTag source pos = .ok b') : TagRuns b pos b' := by
  rw [finishTag] at h
  split at h
  · next tag start htag =>
    rw [finishStartTag] at h
    -- A tag with the name `:` is refused, and so are ill-formed block parameters.
    rcases ite_eq_ok.mp h with ⟨-, h⟩ | ⟨hname, h⟩
    · cases h
    split at h
    · cases h
    next kept hkept =>
    rcases ite_eq_ok.mp h with ⟨hcomplete, h⟩ | ⟨hopens, h⟩
    · cases h
      exact .complete htag hname hkept (Bool.or_eq_true_iff.mp hcomplete)
    · cases h
      exact .opened htag hname hkept (Bool.or_eq_false_iff.mp (Bool.eq_false_iff.mpr hopens))
  · next name start htag =>
    rw [finishEndTag] at h
    -- Void elements have no end tag; any other closes the innermost element, by its name.
    rcases ite_eq_ok.mp h with ⟨-, h⟩ | ⟨hvoid, h⟩
    · cases h
    split at h
    · next tag children span rest hframes =>
      rcases ite_eq_ok.mp h with ⟨hname, h⟩ | ⟨-, h⟩
      · cases h
        subst hname
        exact .closed htag (Bool.eq_false_iff.mpr hvoid) hframes
      · cases h
    · cases h
  · next htag =>
    cases h
    exact .absent htag

/-- What has become of an attribute that ended. -/
inductive AttrRuns (b : Builder) (pos : Nat) : Builder → Prop
  | absent (hattr : b.attr = none) : AttrRuns b pos b
  /-- There is no tag to which the attribute belongs. -/
  | dropped (htag : b.tag = none) : AttrRuns b pos { b with attr := none }
  | joined {pending a : PendingAttr} {tag : StartTag} {start : Nat} {value : AttrValue}
    (hattr : b.attr = some pending)
    (hfinish : pending.finishText (if pending.quoted then pos - 1 else pos) = a)
    (htag : b.tag = some (.opening tag start))
    (hvalue : attrValue a ⟨a.valueStart, pos⟩ = .ok value) :
    AttrRuns b pos
      { b with
        attr := none
        tag := some (.opening
          { tag with attributes := tag.attributes ++ [⟨a.name, value, ⟨a.start, pos⟩⟩] } start) }

theorem finishAttr_runs {pos : Nat} (h : b.finishAttr pos = .ok b') : AttrRuns b pos b' := by
  rw [finishAttr] at h
  split at h
  · next hattr =>
    cases h
    exact .absent hattr
  next pending hattr =>
  simp only at h
  split at h
  · next htag =>
    cases h
    exact .dropped htag
  · cases h
  · next tag start htag =>
    rcases ite_eq_ok.mp h with ⟨-, h⟩ | ⟨-, h⟩
    · cases h
    simp only [bind_eq_ok, pure_eq_ok] at h
    obtain ⟨value, hvalue, rfl⟩ := h
    exact .joined hattr rfl htag hvalue

/-! ### Tags in braces -/

/-- What has become of a mustache that modifies the start tag that is being read. -/
inductive ModifierRuns (b : Builder) (m : MustacheTag) : Builder → Prop
  | joined {tag : StartTag} {start : Nat} (htag : b.tag = some (.opening tag start))
    (hcallee : ∀ value span, m.call.callee ≠ .literal value span) :
    ModifierRuns b m
      { b with
        tag := some (.opening
          { tag with modifiers := tag.modifiers ++ [⟨m.call, m.span⟩] } start) }
  /-- An end tag has no modifiers. -/
  | dropped (htag : ∀ tag start, b.tag ≠ some (.opening tag start)) : ModifierRuns b m b

theorem addModifier_runs {m : MustacheTag} (h : b.addModifier m = .ok b') :
    ModifierRuns b m b' := by
  rw [addModifier] at h
  split at h
  · next tag start htag =>
    split at h
    · cases h
    · next hcallee =>
      cases h
      exact .joined htag hcallee
  · next htag =>
    cases h
    exact .dropped htag

/-- What has become of a mustache that was placed. -/
inductive MustacheRuns (source : Source) (b : Builder) (m : MustacheTag) : Builder → Prop
  | inComment (hcomment : b.machine.state.isComment = true) :
    MustacheRuns source b m (b.appendToComment source m.span)
  | modifier {b' : Builder} (hstate : b.machine.state = .beforeAttributeName)
    (hadd : b.addModifier m = .ok b') : MustacheRuns source b m b'
  /-- Behind the name of an attribute, which is then complete. -/
  | afterName {b₁ b₂ : Builder}
    (hstate : b.machine.state = .attributeName ∨ b.machine.state = .afterAttributeName)
    (hvalue : b.observeAll source
      [.beginAttributeValue false m.span.start, .finishAttributeValue m.span.start] = .ok b₁)
    (hadd : b₁.addModifier m = .ok b₂) : MustacheRuns source b m (b₂.goTo .beforeAttributeName)
  | afterValue {b₁ : Builder} (hstate : b.machine.state = .afterAttributeValueQuoted)
    (hadd : b.addModifier m = .ok b₁) : MustacheRuns source b m (b₁.goTo .beforeAttributeName)
  /-- Behind the equals sign, where a value begins. -/
  | beginValue {b₁ : Builder} (hstate : b.machine.state = .beforeAttributeValue)
    (hbegin : b.observe source (.beginAttributeValue false m.span.start) = .ok b₁) :
    MustacheRuns source b m ((b₁.addPart m).goTo .attributeValueUnquoted)
  | part (hstate : b.machine.state.isAttributeValue = true) :
    MustacheRuns source b m (b.addPart m)
  /-- Between tags, but also behind `<!` and behind a slash in a tag. -/
  | statement (hstate : b.machine.state.isData = true ∨
      b.machine.state = .markupDeclarationOpen ∨ b.machine.state = .selfClosingStartTag) :
    MustacheRuns source b m (b.append (.mustache m))

theorem mustache_runs {m : MustacheTag} (h : b.mustache source m = .ok b') :
    MustacheRuns source b m b' := by
  rw [mustache] at h
  rcases ite_eq_ok.mp h with ⟨hcomment, h⟩ | ⟨hcomment, h⟩
  · cases h
    exact .inComment hcomment
  rcases ite_eq_ok.mp h with ⟨-, h⟩ | ⟨-, h⟩
  · cases h
  -- The states of the reader, one after the other.
  cases hstate : b.machine.state <;>
    simp only [hstate, bind_eq_ok, pure_eq_ok, reduceCtorEq, Except.ok.injEq] at h
  case beforeAttributeName => exact .modifier hstate h
  case attributeName =>
    obtain ⟨b₁, hvalue, b₂, hadd, rfl⟩ := h
    exact .afterName (.inl hstate) hvalue hadd
  case afterAttributeName =>
    obtain ⟨b₁, hvalue, b₂, hadd, rfl⟩ := h
    exact .afterName (.inr hstate) hvalue hadd
  case afterAttributeValueQuoted =>
    obtain ⟨b₁, hadd, rfl⟩ := h
    exact .afterValue hstate hadd
  case beforeAttributeValue =>
    obtain ⟨b₁, hbegin, rfl⟩ := h
    exact .beginValue hstate hbegin
  case attributeValueDoubleQuoted => exact h ▸ .part (by rw [hstate]; rfl)
  case attributeValueSingleQuoted => exact h ▸ .part (by rw [hstate]; rfl)
  case attributeValueUnquoted => exact h ▸ .part (by rw [hstate]; rfl)
  case beforeData => exact h ▸ .statement (.inl (by rw [hstate]; rfl))
  case data => exact h ▸ .statement (.inl (by rw [hstate]; rfl))
  case markupDeclarationOpen => exact h ▸ .statement (.inr (.inl hstate))
  case selfClosingStartTag => exact h ▸ .statement (.inr (.inr hstate))
  -- The states of a comment were left above.
  all_goals exact absurd (by rw [hstate]; rfl) hcomment

/-- What has become of a comment in braces that was placed. -/
inductive CommentRuns (source : Source) (b : Builder) (c : Comment) : Builder → Prop
  | inComment (hcomment : b.machine.state.isComment = true) :
    CommentRuns source b c (b.appendToComment source c.span)
  | statement (hdata : b.machine.state.isData = true) :
    CommentRuns source b c (b.append (.mustacheComment c))
  /-- Between the attributes of a start tag. -/
  | note (hstate : b.machine.state = .beforeAttributeName ∨ b.machine.state = .afterAttributeName) :
    CommentRuns source b c
      { b with tag := b.tag.map (·.onStartTag fun t => { t with comments := t.comments ++ [c] }) }

theorem mustacheComment_runs {c : Comment} (h : b.mustacheComment source c = .ok b') :
    CommentRuns source b c b' := by
  rw [mustacheComment] at h
  rcases ite_eq_ok.mp h with ⟨hcomment, h⟩ | ⟨-, h⟩
  · cases h
    exact .inComment hcomment
  rcases ite_eq_ok.mp h with ⟨hdata, h⟩ | ⟨-, h⟩
  · cases h
    exact .statement hdata
  split at h
  · next hstate =>
    cases h
    exact .note (.inl hstate)
  · next hstate =>
    cases h
    exact .note (.inr hstate)
  · cases h

/-- What has become of a partial that was placed. -/
inductive PartialRuns (source : Source) (b : Builder) (p : PartialTag) : Builder → Prop
  | inComment (hcomment : b.machine.state.isComment = true) :
    PartialRuns source b p (b.appendToComment source p.span)
  | statement (hdata : b.machine.state.isData = true) :
    PartialRuns source b p (b.append (.partialCall p))

theorem partialCall_runs {p : PartialTag} (h : b.partialCall source p = .ok b') :
    PartialRuns source b p b' := by
  rw [partialCall] at h
  rcases ite_eq_ok.mp h with ⟨hcomment, h⟩ | ⟨-, h⟩
  · cases h
    exact .inComment hcomment
  rcases ite_eq_ok.mp h with ⟨hdata, h⟩ | ⟨-, h⟩
  · cases h
    exact .statement hdata
  · cases h

/-! ### Programs -/

/-- The end of a program takes its frame off the stack. -/
theorem endProgram_eq_ok {names : List String} {chained : Bool} {span : Span}
    {block : Block Statement} :
    b.endProgram names chained span = .ok (block, b') ↔
      b.machine.state.isData = true ∧ ∃ body rest, b.frames = .block body :: rest ∧
        block = ⟨body, names, chained, span⟩ ∧ b' = { b with frames := rest } := by
  simp only [endProgram, checkClosed, bind_eq_ok, pure_eq_ok, ite_eq_ok, reduceCtorEq, and_false,
    or_false, and_true, exists_const, Prod.exists, Prod.mk.injEq]
  refine and_congr_right fun _ => ?_
  rw [popBlock]
  constructor
  · rintro ⟨body, b₁, hpop, rfl, rfl⟩
    split at hpop
    · next body' rest hframes =>
      cases hpop
      exact ⟨_, rest, hframes, rfl, rfl⟩
    · cases hpop
    · cases hpop
  · rintro ⟨body, rest, hframes, rfl, rfl⟩
    rw [hframes]
    exact ⟨body, _, rfl, rfl, rfl⟩

theorem program_eq_ok {p : Program} {block : Block Statement} :
    b.program source p = .ok (block, b') ↔
      ∃ c, nodes source (b.push (.block [])) p.body = .ok c ∧
        c.endProgram p.params p.chained p.span = .ok (block, b') := by
  rw [Builder.program, bind_eq_ok]

theorem nodes_cons_eq_ok {n : Node} {rest : List Node} :
    b.nodes source (n :: rest) = .ok b' ↔
      ∃ b₁, b.node source n = .ok b₁ ∧ b₁.nodes source rest = .ok b' := by
  rw [nodes, bind_eq_ok]

/-- What has become of a block that was placed. -/
inductive BlockRuns (source : Source) (b : Builder) (tag : BlockTag) (p : Program) :
    Option Program → Builder → Prop
  | inComment {other : Option Program} (hcomment : b.machine.state.isComment = true) :
    BlockRuns source b tag p other (b.appendToComment source tag.span)
  | alone {program : Block Statement} {b₁ : Builder} (hdata : b.machine.state.isData = true)
    (hprogram : b.program source p = .ok (program, b₁)) :
    BlockRuns source b tag p none (b₁.append (.block tag program none))
  | withElse {q : Program} {program inverse : Block Statement} {b₁ b₂ : Builder}
    (hdata : b.machine.state.isData = true) (hprogram : b.program source p = .ok (program, b₁))
    (hinverse : b₁.program source q = .ok (inverse, b₂)) :
    BlockRuns source b tag p (some q) (b₂.append (.block tag program (some inverse)))

theorem block_runs {tag : BlockTag} {p : Program} {other : Option Program}
    (h : b.node source (.block tag p other) = .ok b') : BlockRuns source b tag p other b' := by
  obtain ⟨body, names, chained, span⟩ := p
  rw [node] at h
  rcases ite_eq_ok.mp h with ⟨hcomment, h⟩ | ⟨-, h⟩
  · cases h
    exact .inComment hcomment
  simp only [checkBlockPlace, bind_eq_ok, ite_eq_ok, reduceCtorEq, and_false, or_false,
    Prod.exists] at h
  obtain ⟨-, ⟨hdata, -⟩, c, hbody, program, b₁, hend, h⟩ := h
  have hprogram : b.program source ⟨body, names, chained, span⟩ = .ok (program, b₁) :=
    program_eq_ok.mpr ⟨c, hbody, hend⟩
  cases other with
  | none =>
    cases h
    exact .alone hdata hprogram
  | some q =>
    obtain ⟨body', names', chained', span'⟩ := q
    simp only [bind_eq_ok, pure_eq_ok, Prod.exists] at h
    obtain ⟨c', hbody', inverse, b₂, hend', rfl⟩ := h
    exact .withElse hdata hprogram (program_eq_ok.mpr ⟨c', hbody', hend'⟩)

end Builder

theorem build_eq_ok {source : Source} {mode : Markup.Mode} {p : Program} {t : Template}
    {warnings : List Diagnostic} :
    build source mode p = .ok (t, warnings) ↔
      ∃ block b, Builder.program source { machine := { mode } } p = .ok (block, b) ∧
        t = ⟨block.body, p.span⟩ ∧ warnings = b.warnings := by
  simp only [build, bind_eq_ok, pure_eq_ok, Prod.exists, Prod.mk.injEq]
  simp only [eq_comm (b := t), eq_comm (b := warnings)]

end TemplateCompiler.Template
