/-
The spans of a template nest, and its statements stand in order.

* `Builder.Rests` — between two statements of a program, the tree so far stands in
  order up to a position, and no run of text is open;
* `Builder.content_rests`, `Builder.mustache_rests`, … — a statement of a program
  keeps it so;
* `Builder.nodes_rests` — so do all statements of a program;
* `parse_spans_nest` — every span of a template is in order, in the source and in
  the span of the node around it;
* `parse_statements_precede` — a statement ends before the next one of its list
  starts, or is a mustache inside of the tag or comment that follows it.

A mustache joins the list of the innermost frame at once, also where the reader is
behind a slash in a start tag or behind `<!`.  The element or the comment around
it joins the same list when it ends, and so comes second.
-/
import TemplateCompiler.Proofs.Mustache.Places
import TemplateCompiler.Proofs.Template.Places

namespace TemplateCompiler.Template

open Markup (Machine Mode Place FitAll)
open Mustache (Node Content Program nodesPlaced programPlaced otherPlaced)

namespace Builder

variable {source : Source} {base : List Frame} {lo reached : Nat} {b b' : Builder}

/-! ### Between two statements -/

/-- A builder between two statements of a program: no run of text is open, and the
tree stands in order up to a position. -/
structure Rests (base : List Frame) (lo reached : Nat) (b : Builder) : Prop where
  closed : b.machine.state ≠ .data
  stands : ∃ opened, (b.machine.state.isData = false → opened = b.machine.tagStart) ∧
    Stands base lo ⟨false, opened, reached⟩ b

theorem Rests.mono {reached' : Nat} (h : Rests base lo reached b) (hle : reached ≤ reached') :
    Rests base lo reached' b := by
  obtain ⟨hclosed, opened, hopened, hstands⟩ := h
  exact ⟨hclosed, opened, hopened, hstands.mono hle⟩

theorem Rests.text_eq (h : Rests base lo reached b) : b.text = none := by
  obtain ⟨-, opened, -, hstands⟩ := h
  exact hstands.idle rfl

/-- Inside of a tag or comment, the reader knows where it was opened. -/
theorem Rests.in_tag (h : Rests base lo reached b) (hdata : b.machine.state.isData = false) :
    Stands base lo ⟨false, b.machine.tagStart, reached⟩ b := by
  obtain ⟨-, opened, hopened, hstands⟩ := h
  rw [← hopened hdata]
  exact hstands

/-- Where the open tag or comment starts may be forgotten. -/
theorem Rests.reset (h : Rests base lo reached b) : Stack base lo reached reached b.frames := by
  obtain ⟨-, opened, -, hstands⟩ := h
  exact hstands.frames.reset (Nat.le_refl _)

theorem Stands.withMachine {p : Place} (h : Stands base lo p b) (machine : Machine) :
    Stands base lo p { b with machine } :=
  ⟨h.frames, h.idle, h.text, h.comment, h.tag, h.attr⟩

/-- A tag or comment stays open. -/
theorem Stands.rests (h : Stands base lo ⟨false, b.machine.tagStart, reached⟩ b')
    (hmachine : b'.machine = b.machine) (hclosed : b.machine.state ≠ .data) :
    Rests base lo reached b' :=
  ⟨by rwa [hmachine], b.machine.tagStart, fun _ => by rw [hmachine], h⟩

/-- The reader goes on in another state, in the same tag or comment. -/
theorem Stands.goTo_rests {state : Markup.State}
    (h : Stands base lo ⟨false, b.machine.tagStart, reached⟩ b')
    (hmachine : b'.machine = b.machine) (hstate : state ≠ .data) :
    Rests base lo reached (b'.goTo state) := by
  refine ⟨hstate, b.machine.tagStart, fun _ => ?_, ?_⟩
  · show _ = b'.machine.tagStart
    rw [hmachine]
  · exact h.withMachine _

/-- A run of text. -/
theorem content_rests {c : Content} (hin : Inside base b.region b) (hplaced : c.Placed)
    (hrests : Rests base lo reached b) (hle : reached ≤ c.span.start)
    (h : b.content source c = .ok b') : Rests base lo c.span.stop b' := by
  rw [content] at h
  simp only at h
  have hmachine := observeAll_machine h
  generalize hm : b.machine.moveTo c.valueStart = m at h hmachine
  obtain ⟨hclosed, opened, hopened, hstands⟩ := hrests
  obtain ⟨hbefore, hafter⟩ := hplaced
  -- The text may start behind what was reached: whitespace control cuts its front.
  have hat : m.At ⟨false, opened, reached⟩ := by
    rw [← hm]
    exact ⟨(decide_eq_false hclosed).symm, hopened, Nat.le_trans hle hbefore⟩
  have hin' : Inside base m.state.region { b with machine := (m.read c.value).1.flush.1 } := by
    rw [← hm]
    exact hin.withMachine _
  obtain ⟨b₁, h₁, h⟩ := observeAll_append.mp h
  obtain ⟨q, hat', hstands₁⟩ := read_stands hin' hat (hstands.withMachine _) h₁
  have hin₁ := (observeAll_inside hin' (m.read_leads c.value) h₁).1
  -- At its end the run is closed, if it is open.
  obtain ⟨hfit, hflush⟩ := Machine.flush_moves hat'
  have hend := observeAll_stands hin₁ (Machine.flush_leads _) hstands₁ hfit h
  have hclosed' : b'.machine.state ≠ .data := by
    rw [hmachine]
    exact Machine.flush_state_ne_data _
  have hrunning := hflush.running
  rw [decide_eq_false (by rwa [hmachine] at hclosed')] at hrunning
  have hpos : (m.read c.value).1.pos ≤ c.span.stop := by
    rw [Machine.pos, Machine.read_offset, ← hm]
    exact hafter
  refine ⟨hclosed', (Markup.moveAll q (m.read c.value).1.flush.2).opened, ?_, ?_⟩
  · rw [hmachine]
    exact hflush.opened
  · have hrests := hend.mono hpos
    rw [hrunning] at hrests
    exact hrests

/-! ### Single tags -/

/-- Between tags a statement joins the tree behind all others. -/
theorem Rests.append {s : Statement} (h : Rests base lo reached b) (hin : Inside base b.region b)
    (hdata : b.machine.state.isData = true) (hs : s.spanTree.Nested)
    (hinner : ∀ list ∈ innerBodies [s], list.IsChain Statement.Precedes)
    (hstart : reached ≤ s.span.start) : Rests base lo s.span.stop (b.append s) := by
  have hspan := hs.start_le
  rw [Statement.spanTree_span] at hspan
  have hin' := (append_inside hin s).1
  rw [region_of_isData hdata] at hin'
  have hframes := append_stack h.reset (Nat.le_trans hstart hspan) fun hbody =>
    hbody.after hs hinner hstart
  refine ⟨by rw [append_machine]; exact h.closed, s.span.stop, fun hstate => ?_,
    .of_idle hin' ((append_text b s).trans h.text_eq) hframes⟩
  rw [append_machine, hdata] at hstate
  cases hstate

/-- In a tag that is open a mustache joins the tree before the element does. -/
theorem Rests.appendMustache {m : MustacheTag} (h : Rests base lo reached b)
    (hdata : b.machine.state.isData = false) (hm : m.spanTree.Nested)
    (hstart : reached ≤ m.span.start) : Rests base lo m.span.stop (b.append (.mustache m)) := by
  have hle : reached ≤ m.span.stop := Nat.le_trans hstart hm.start_le
  have hstands := h.in_tag hdata
  have hmono := hstands.mono hle
  have hs : (Statement.mustache m).spanTree.Nested := by
    rw [Statement.spanTree]
    exact hm
  -- The tag stays open where it is, so the mustache stands behind the start of it.
  have hframes := append_stack hstands.frames hle fun hbody =>
    hbody.inside hs trivial (innerBodies_leaf (by simp only [Statement.within]) rfl) hstart
  have htext : (b.append (.mustache m)).text = none := (append_text b _).trans h.text_eq
  refine Stands.rests (b := b) ⟨hframes, fun _ => htext, fun t ht => ?_, ?_, ?_, ?_⟩
    (append_machine _ _) h.closed
  · rw [htext] at ht
    cases ht
  · rw [append_comment]
    exact hmono.comment
  · rw [append_tag]
    exact hmono.tag
  · rw [append_attr]
    exact hmono.attr

/-- A tag in a comment of the markup becomes part of its text. -/
theorem appendToComment_rests {span : Span} (h : Rests base lo reached b)
    (hcomment : b.machine.state.isComment = true) (hspan : span.start ≤ span.stop)
    (hle : reached ≤ span.start) : Rests base lo span.stop (b.appendToComment source span) := by
  have hmono := (h.in_tag (isData_eq_false_of_isComment hcomment)).mono (Nat.le_trans hle hspan)
  rw [appendToComment]
  refine Stands.goTo_rests (b := b) ⟨hmono.frames, hmono.idle, hmono.text, fun c hc => ?_,
    hmono.tag, hmono.attr⟩ rfl (by simp)
  obtain ⟨old, hold, rfl⟩ := Option.map_eq_some_iff.mp hc
  exact hmono.comment old hold

/-- A mustache becomes a modifier of the start tag. -/
theorem addModifier_stands {p : Place} {m : MustacheTag} (h : Stands base lo p b)
    (hm : m.spanTree.Nested) (hle : p.reached ≤ m.span.start) (hadd : b.addModifier m = .ok b') :
    Stands base lo { p with reached := m.span.stop } b' ∧ b'.machine = b.machine := by
  have hmono := h.mono (Nat.le_trans hle hm.start_le)
  cases addModifier_runs hadd with
  | joined htag =>
    refine ⟨⟨hmono.frames, hmono.idle, hmono.text, hmono.comment, fun t ht => ?_, hmono.attr⟩, rfl⟩
    cases ht
    obtain ⟨hstart, hfit⟩ := hmono.tag _ htag
    refine ⟨hstart, ?_⟩
    have hmodifier : FitIn p.opened m.span.stop [Modifier.spanTree ⟨m.call, m.span⟩] :=
      .single hm (Nat.le_trans h.frames.le hle) (Nat.le_refl _)
    obtain ⟨hattributes, hmodifiers, hcomments⟩ := StartTag.fitIn_iff.mp hfit
    refine StartTag.fitIn_iff.mpr ⟨hattributes, ?_, hcomments⟩
    rw [List.map_append]
    exact hmodifiers.append hmodifier
  | dropped => exact ⟨hmono, rfl⟩

/-- A mustache becomes a part of the attribute value. -/
theorem addPart_stands {p : Place} {m : MustacheTag} (h : Stands base lo p b)
    (hm : m.spanTree.Nested) (hle : p.reached ≤ m.span.start) :
    Stands base lo { p with reached := m.span.stop } (b.addPart m) := by
  refine h.onAttr (Nat.le_trans hle hm.start_le) fun a _ ha => ?_
  -- The text before the mustache ends where the mustache starts.
  have hfits := ((ha.mono hle).finishText (Nat.le_refl _)).mono hm.start_le
  refine ⟨hfits.opened_le, hfits.start_le, hfits.value_le, ?_, hfits.text⟩
  rw [List.map_append]
  refine hfits.parts.append (.single hm ?_ (Nat.le_refl _))
  exact ((ha.mono hle).finishText (Nat.le_refl _)).value_le

/-- An attribute without a value is completed where a modifier stands. -/
theorem emptyValue_stands {p : Place} {pos : Nat} (hin : Inside base .name b)
    (h : Stands base lo p b) (hle : p.reached ≤ pos)
    (hobs : b.observeAll source [.beginAttributeValue false pos, .finishAttributeValue pos]
      = .ok b') : Stands base lo { p with reached := pos } b' := by
  have hfit : FitAll p [.beginAttributeValue false pos, .finishAttributeValue pos] pos :=
    ⟨hle, Nat.le_refl _, Nat.le_refl _⟩
  have hlead : Markup.leadTo? .name [.beginAttributeValue false pos, .finishAttributeValue pos]
      = some .tag := rfl
  exact observeAll_stands hin hlead h hfit hobs

/-- A mustache is placed where the reader is. -/
theorem mustache_rests {m : MustacheTag} (hin : Inside base b.region b) (hm : m.spanTree.Nested)
    (hrests : Rests base lo reached b) (hle : reached ≤ m.span.start)
    (h : b.mustache source m = .ok b') : Rests base lo m.span.stop b' := by
  -- In a tag no run is open, and the reader stands in what was opened at its start.
  have htag : ∀ {state : Markup.State}, b.machine.state = state → state.isData = false →
      Stands base lo ⟨false, b.machine.tagStart, reached⟩ b ∧ Inside base state.region b :=
    fun hstate hdata => ⟨hrests.in_tag (hstate ▸ hdata), hstate ▸ hin⟩
  cases mustache_runs h with
  | inComment hcomment => exact appendToComment_rests hrests hcomment hm.start_le hle
  | modifier hstate hadd =>
    obtain ⟨hstands, -⟩ := htag hstate rfl
    obtain ⟨hstands₁, hmachine⟩ := addModifier_stands hstands hm hle hadd
    exact hstands₁.rests hmachine hrests.closed
  | afterName hstate hvalue hadd =>
    obtain ⟨hstands, hname⟩ : Stands base lo ⟨false, b.machine.tagStart, reached⟩ b ∧
        Inside base .name b := by
      rcases hstate with hstate | hstate
      · exact htag hstate rfl
      · exact htag hstate rfl
    have hstands₁ := emptyValue_stands hname hstands hle hvalue
    obtain ⟨hstands₂, hmachine⟩ := addModifier_stands hstands₁ hm (Nat.le_refl _) hadd
    exact hstands₂.goTo_rests (hmachine.trans (emptyValue_leaves hvalue).1) (by simp)
  | afterValue hstate hadd =>
    obtain ⟨hstands, -⟩ := htag hstate rfl
    obtain ⟨hstands₁, hmachine⟩ := addModifier_stands hstands hm hle hadd
    exact hstands₁.goTo_rests hmachine (by simp)
  | @beginValue b₁ hstate hbegin =>
    obtain ⟨hstands, hname⟩ := htag hstate rfl
    have hlead : Markup.Event.leadsTo? .name (.beginAttributeValue false m.span.start)
        = some .value := rfl
    have hstands₁ := observe_stands hname hlead hstands hle hbegin
    have hstands₂ := addPart_stands hstands₁ hm (Nat.le_refl _)
    have hmachine : b₁.machine = b.machine := observe_machine hbegin
    exact hstands₂.goTo_rests hmachine (by simp)
  | part hstate =>
    have hdata : b.machine.state.isData = false := by
      cases hs : b.machine.state <;> rw [hs] at hstate <;> first | rfl | cases hstate
    exact (addPart_stands (hrests.in_tag hdata) hm hle).rests rfl hrests.closed
  | statement hstate =>
    rcases hstate with hdata | hstate | hstate
    · have hs : (Statement.mustache m).spanTree.Nested := by
        rw [Statement.spanTree]
        exact hm
      exact hrests.append hin hdata hs (innerBodies_leaf (by simp only [Statement.within]) rfl) hle
    · exact hrests.appendMustache (by rw [hstate]; rfl) hm hle
    · exact hrests.appendMustache (by rw [hstate]; rfl) hm hle

/-- A comment in braces joins the start tag that is being read. -/
theorem note_stands {p : Place} {c : Comment} (h : Stands base lo p b)
    (hspan : c.span.start ≤ c.span.stop) (hle : p.reached ≤ c.span.start) :
    let note : StartTag → StartTag := fun t => { t with comments := t.comments ++ [c] }
    Stands base lo { p with reached := c.span.stop }
      { b with tag := b.tag.map (·.onStartTag note) } := by
  have hmono := h.mono (Nat.le_trans hle hspan)
  refine hmono.onTag fun t ht => ?_
  cases t with
  | closing name start => exact ht
  | opening tag start =>
    obtain ⟨hstart, hfit⟩ := ht
    refine ⟨hstart, ?_⟩
    have hcomment : FitIn p.opened c.span.stop [c.spanTree] :=
      .leaf hspan (Nat.le_trans h.frames.le hle) (Nat.le_refl _)
    obtain ⟨hattributes, hmodifiers, hcomments⟩ := StartTag.fitIn_iff.mp hfit
    refine StartTag.fitIn_iff.mpr ⟨hattributes, hmodifiers, ?_⟩
    rw [List.map_append]
    exact hcomments.append hcomment

/-- A comment in braces is placed where the reader is. -/
theorem mustacheComment_rests {c : Comment} (hin : Inside base b.region b)
    (hspan : c.span.start ≤ c.span.stop) (hrests : Rests base lo reached b)
    (hle : reached ≤ c.span.start) (h : b.mustacheComment source c = .ok b') :
    Rests base lo c.span.stop b' := by
  cases mustacheComment_runs h with
  | inComment hcomment => exact appendToComment_rests hrests hcomment hspan hle
  | statement hdata =>
    have hs : (Statement.mustacheComment c).spanTree.Nested := by
      rw [Statement.spanTree]
      exact FitIn.nested hspan .nil
    exact hrests.append hin hdata hs (innerBodies_leaf (by simp only [Statement.within]) rfl) hle
  | note hstate =>
    have hdata : b.machine.state.isData = false := by
      rcases hstate with hstate | hstate <;> rw [hstate] <;> rfl
    exact (note_stands (hrests.in_tag hdata) hspan hle).rests rfl hrests.closed

/-- A partial is placed where the reader is. -/
theorem partialCall_rests {tag : PartialTag} (hin : Inside base b.region b)
    (htag : tag.spanTree.Nested) (hrests : Rests base lo reached b)
    (hle : reached ≤ tag.span.start) (h : b.partialCall source tag = .ok b') :
    Rests base lo tag.span.stop b' := by
  cases partialCall_runs h with
  | inComment hcomment => exact appendToComment_rests hrests hcomment htag.start_le hle
  | statement hdata =>
    have hs : (Statement.partialCall tag).spanTree.Nested := by
      rw [Statement.spanTree]
      exact htag
    exact hrests.append hin hdata hs (innerBodies_leaf (by simp only [Statement.within]) rfl) hle

/-! ### Programs -/

theorem endProgram_text {names : List String} {chained : Bool} {span : Span}
    {block : Block Statement} (h : b.endProgram names chained span = .ok (block, b')) :
    b'.text = b.text ∧ block.span = span := by
  obtain ⟨-, body, rest, -, rfl, rfl⟩ := endProgram_eq_ok.mp h
  exact ⟨rfl, rfl⟩

/-- A program begins in a frame of its own. -/
theorem Idle.push_rests (hidle : b.Idle) (hclosed : b.machine.state ≠ .data)
    (htext : b.text = none) (start : Nat) : Rests b.frames start start (b.push (.block [])) := by
  have hin := hidle.push
  rw [show (b.push (.block [])).region = .text from region_of_isData hidle.data] at hin
  refine ⟨hclosed, start, fun hstate => ?_, .of_idle hin htext ?_⟩
  · exact absurd (hidle.data.symm.trans hstate) (by simp)
  · exact .block (.nil (Nat.le_refl _) (Nat.le_refl _))

end Builder

/-- The spans of a branch of a block nest, and its statements stand in order. -/
structure Block.InOrder (block : Block Statement) : Prop where
  nested : (blockSpans block).Nested
  chains : ∀ list ∈ bodiesWithin block.body, list.IsChain Statement.Precedes

theorem blockSpans_span (block : Block Statement) : (blockSpans block).span = block.span := by
  cases block
  rw [blockSpans, SpanTree.span]

theorem Block.InOrder.start_le {block : Block Statement} (h : block.InOrder) :
    block.span.start ≤ block.span.stop := by
  have hle := h.nested.start_le
  rwa [blockSpans_span] at hle

/-- The lists of statements in a block are those in its branches. -/
theorem mem_innerBodies_block {tag : BlockTag} {program : Block Statement}
    {other : Option (Block Statement)} {list : List Statement}
    (h : list ∈ innerBodies [.block tag program other]) :
    list ∈ bodiesWithin program.body ∨ ∃ block ∈ other, list ∈ bodiesWithin block.body := by
  obtain ⟨body, params, chained, span⟩ := program
  cases other with
  | none =>
    simp only [innerBodies, statementsWithin_singleton, Statement.within, blockWithin, otherWithin,
      Statement.bodies, Option.toList_none, List.map_nil, List.append_nil, List.flatMap_cons,
      List.cons_append, List.nil_append] at h
    exact .inl h
  | some inverse =>
    obtain ⟨otherBody, otherParams, otherChained, otherSpan⟩ := inverse
    simp only [innerBodies, statementsWithin_singleton, Statement.within, blockWithin, otherWithin,
      Statement.bodies, Option.toList_some, List.map_cons, List.map_nil, List.flatMap_cons,
      List.flatMap_append, List.cons_append, List.nil_append, List.mem_cons, List.mem_append] at h
    rcases h with rfl | rfl | h | h
    · exact .inl List.mem_cons_self
    · exact .inr ⟨_, rfl, List.mem_cons_self⟩
    · exact .inl (List.mem_cons_of_mem _ h)
    · exact .inr ⟨_, rfl, List.mem_cons_of_mem _ h⟩

/-- A block nests if its tags do and its branches stand in its span. -/
theorem block_nested {tag : BlockTag} {program : Block Statement}
    {other : Option (Block Statement)} (htag : (SpanTree.node tag.span (callSpans tag.call)).Nested)
    (hprogram : program.InOrder ∧ tag.span.Covers program.span)
    (hother : ∀ block ∈ other, block.InOrder ∧ tag.span.Covers block.span) :
    (Statement.block tag program other).spanTree.Nested := by
  have hbranch : ∀ {block : Block Statement}, block.InOrder ∧ tag.span.Covers block.span →
      (blockSpans block).Nested ∧ tag.span.Covers (blockSpans block).span := by
    rintro block ⟨horder, hcovers⟩
    rw [blockSpans_span]
    exact ⟨horder.nested, hcovers⟩
  rw [Statement.spanTree]
  refine FitIn.nested htag.start_le ((FitIn.of_nested htag).append ?_)
  refine FitIn.cons_iff.mpr ⟨hbranch hprogram, ?_⟩
  cases other with
  | none =>
    rw [otherSpans]
    exact .nil
  | some inverse =>
    rw [otherSpans]
    exact FitIn.cons_iff.mpr ⟨hbranch (hother inverse rfl), .nil⟩

namespace Builder

variable {source : Source} {base : List Frame} {lo reached : Nat} {b b' : Builder}

/-- The statements of a program are in order when it was run in a frame of its own. -/
theorem program_inOrder {p : Program} {block : Block Statement} (hidle : b.Idle)
    (hnodes : ∀ b₁, nodes source (b.push (.block [])) p.body = .ok b₁ →
      Rests b.frames p.span.start p.span.stop b₁)
    (h : b.program source p = .ok (block, b')) : block.InOrder ∧ block.span = p.span := by
  obtain ⟨b₁, hrun, hend⟩ := program_eq_ok.mp h
  obtain ⟨-, -, -, -, hframes⟩ := endProgram_idle (nodes_balance p.body hidle.push hrun).1 hend
  obtain ⟨-, hspan⟩ := endProgram_text hend
  have hstack := (hnodes b₁ hrun).reset
  rw [hframes, ← hspan] at hstack
  cases hstack with
  | block hbody =>
    refine ⟨⟨?_, List.forall_mem_cons.mpr ⟨hbody.chain, hbody.inner⟩⟩, hspan⟩
    obtain ⟨body, params, chained, span⟩ := block
    rw [blockSpans]
    exact FitIn.nested hbody.lo_le hbody.fits

/-- Such a program leaves the builder where it was before. -/
theorem program_rests {p : Program} {block : Block Statement} (hin : Inside base b.region b)
    (hidle : b.Idle) (hrests : Rests base lo reached b)
    (hnodes : ∀ b₁, nodes source (b.push (.block [])) p.body = .ok b₁ →
      Rests b.frames p.span.start p.span.stop b₁)
    (h : b.program source p = .ok (block, b')) :
    (block.InOrder ∧ block.span = p.span) ∧
      b'.Idle ∧ Inside base b'.region b' ∧ Rests base lo reached b' := by
  refine ⟨program_inOrder hidle hnodes h, ?_⟩
  obtain ⟨b₁, hrun, hend⟩ := program_eq_ok.mp h
  have hrests₁ := hnodes b₁ hrun
  obtain ⟨-, hidle', hmachine, hbase, -⟩ :=
    endProgram_idle (nodes_balance p.body hidle.push hrun).1 hend
  have hregion : b'.region = .text := region_of_isData hidle'.data
  have hin' : Inside base .text b' := ⟨hbase ▸ hin.above, hidle'.reads⟩
  refine ⟨hidle', hregion ▸ hin', by rw [hmachine]; exact hrests₁.closed, reached,
    fun hstate => ?_, ?_⟩
  · exact absurd (hidle'.data.symm.trans hstate) (by simp)
  · exact .of_idle hin' ((endProgram_text hend).1.trans hrests₁.text_eq) (hbase ▸ hrests.reset)

/-- A block joins the tree. -/
theorem Rests.appendBlock {tag : BlockTag} {program : Block Statement}
    {other : Option (Block Statement)} (h : Rests base lo reached b)
    (hin : Inside base b.region b) (hdata : b.machine.state.isData = true)
    (htag : (SpanTree.node tag.span (callSpans tag.call)).Nested)
    (hprogram : program.InOrder ∧ tag.span.Covers program.span)
    (hother : ∀ block ∈ other, block.InOrder ∧ tag.span.Covers block.span)
    (hle : reached ≤ tag.span.start) :
    Rests base lo tag.span.stop (b.append (.block tag program other)) := by
  refine h.append hin hdata (block_nested htag hprogram hother) (fun list hlist => ?_) hle
  rcases mem_innerBodies_block hlist with hlist | ⟨block, hblock, hlist⟩
  · exact hprogram.1.chains list hlist
  · exact (hother block hblock).1.chains list hlist

mutual

/-- A statement of a program leaves the tree in order. -/
theorem node_rests (n : Node) {base : List Frame} {lo reached : Nat} {b b' : Builder}
    (hin : Inside base b.region b) (hrests : Rests base lo reached b)
    (hle : reached ≤ n.span.start) (hplaced : n.Placed) (h : b.node source n = .ok b') :
    Rests base lo n.span.stop b' := by
  match n with
  | .content c =>
    rw [node] at h
    rw [Node.Placed] at hplaced
    exact content_rests hin hplaced hrests hle h
  | .comment value strip span =>
    rw [node] at h
    rw [Node.Placed] at hplaced
    exact mustacheComment_rests hin hplaced hrests hle h
  | .mustache tag =>
    rw [node] at h
    rw [Node.Placed] at hplaced
    exact mustache_rests hin hplaced hrests hle h
  | .partialCall tag =>
    rw [node] at h
    rw [Node.Placed] at hplaced
    exact partialCall_rests hin hplaced hrests hle h
  | .block tag ⟨body, names, chained, span⟩ other =>
    rw [Node.Placed] at hplaced
    obtain ⟨htag, mid, hplaced, hother⟩ := hplaced
    rw [programPlaced] at hplaced
    obtain ⟨hstart, hbody, hstop⟩ := hplaced
    -- Each branch is a program of its own, in a frame of its own.
    match other, block_runs h with
    | _, .inComment hcomment => exact appendToComment_rests hrests hcomment htag.start_le hle
    | none, .alone hdata hprogram =>
      have hidle := hin.idle hdata
      obtain ⟨⟨horder, hspan⟩, hidle₁, hin₁, hrests₁⟩ := program_rests hin hidle hrests
        (fun _ => nodes_rests body hidle.push
          (hidle.push_rests hrests.closed hrests.text_eq _) hbody) hprogram
      rw [otherPlaced] at hother
      refine hrests₁.appendBlock hin₁ hidle₁.data htag ⟨horder, hspan ▸ ⟨hstart, ?_⟩⟩
        (fun block hblock => by cases hblock) hle
      exact Nat.le_trans hstop hother
    | some ⟨otherBody, otherNames, otherChained, otherSpan⟩, .withElse hdata hprogram hinverse =>
      rw [otherPlaced, programPlaced] at hother
      obtain ⟨hstart', hbody', hstop'⟩ := hother
      have hidle := hin.idle hdata
      obtain ⟨⟨horder, hspan⟩, hidle₁, hin₁, hrests₁⟩ := program_rests hin hidle hrests
        (fun _ => nodes_rests body hidle.push
          (hidle.push_rests hrests.closed hrests.text_eq _) hbody) hprogram
      obtain ⟨⟨horder', hspan'⟩, hidle₂, hin₂, hrests₂⟩ := program_rests hin₁ hidle₁ hrests₁
        (fun _ => nodes_rests otherBody hidle₁.push
          (hidle₁.push_rests hrests₁.closed hrests₁.text_eq _) hbody') hinverse
      have hle₁ : span.start ≤ span.stop := by simpa only [hspan] using horder.start_le
      have hle₂ : otherSpan.start ≤ otherSpan.stop := by
        simpa only [hspan'] using horder'.start_le
      refine hrests₂.appendBlock hin₂ hidle₂.data htag ⟨horder, hspan ▸ ⟨hstart, ?_⟩⟩ ?_ hle
      · show span.stop ≤ tag.span.stop
        omega
      · rintro block ⟨⟩
        refine ⟨horder', hspan' ▸ ⟨?_, hstop'⟩⟩
        show tag.span.start ≤ otherSpan.start
        omega

/-- Statements leave the tree in order, one after the other. -/
theorem nodes_rests (ns : List Node) {base : List Frame} {lo reached hi : Nat} {b b' : Builder}
    (hin : Inside base b.region b) (hrests : Rests base lo reached b)
    (hplaced : nodesPlaced reached ns hi) (h : b.nodes source ns = .ok b') :
    Rests base lo hi b' := by
  match ns with
  | [] =>
    rw [nodes] at h
    rw [nodesPlaced] at hplaced
    cases h
    exact hrests.mono hplaced
  | n :: rest =>
    rw [nodesPlaced] at hplaced
    obtain ⟨b₁, hnode, hnodes⟩ := nodes_cons_eq_ok.mp h
    obtain ⟨hstart, hfirst, hrest⟩ := hplaced
    exact nodes_rests rest (node_balance n hin hnode).1
      (node_rests n hin hrests hstart hfirst hnode) hrest hnodes

end

end Builder

/-! ### Templates -/

variable {source : Source} {mode : Mode} {t : Template} {warnings : List Diagnostic}

/-- Whitespace control leaves statements where they stand. -/
theorem builtProgram_placed {program : Program} {lo hi : Nat} (mode : Mode)
    (h : programPlaced lo program hi) : programPlaced lo (builtProgram mode program) hi := by
  cases mode with
  | precompile => exact (Mustache.stripProgram_stripsTo program).placed h
  | codemod => exact h

/-- A template is built in order from a program in order. -/
theorem build_inOrder {program : Program} {hi : Nat} (hplaced : programPlaced 0 program hi)
    (h : build source mode program = .ok (t, warnings)) :
    t.spanTree.Nested ∧ t.span.stop ≤ hi ∧
      ∀ list ∈ bodiesWithin t.body, list.IsChain Statement.Precedes := by
  obtain ⟨body, names, chained, span⟩ := program
  obtain ⟨block, b, hrun, rfl, -⟩ := build_eq_ok.mp h
  rw [programPlaced] at hplaced
  obtain ⟨-, hbody, hstop⟩ := hplaced
  -- The program is run in a frame of its own, as a branch of a block is.
  have hidle := Builder.idle_start mode
  obtain ⟨horder, rfl⟩ := Builder.program_inOrder hidle
    (fun _ => Builder.nodes_rests body hidle.push
      (hidle.push_rests (by simp) rfl span.start) hbody) hrun
  refine ⟨?_, hstop, horder.chains⟩
  have hnested := horder.nested
  obtain ⟨body, params, chained, span⟩ := block
  rw [blockSpans] at hnested
  exact hnested

theorem parse_inOrder (h : parse source mode = .ok (t, warnings)) :
    t.spanTree.Nested ∧ t.span.stop ≤ source.length ∧
      ∀ list ∈ bodiesWithin t.body, list.IsChain Statement.Precedes := by
  obtain ⟨program, hprogram, hbuild⟩ := parse_eq_ok.mp h
  have hplaced := Mustache.parseProgram_placed hprogram
  exact build_inOrder (builtProgram_placed mode hplaced) hbuild

/-- Every span of a template is in order, in the source, and in the span of the node
around it. -/
theorem parse_spans_nest (h : parse source mode = .ok (t, warnings)) :
    ∀ node ∈ t.spanTree.within,
      node.span.start ≤ node.span.stop ∧ node.span.stop ≤ source.length ∧
        ∀ child ∈ node.children, node.span.Covers child.span := by
  obtain ⟨hnested, hstop, -⟩ := parse_inOrder h
  have hfit : FitIn 0 source.length [t.spanTree] := .single hnested (Nat.zero_le _) hstop
  intro node hnode
  obtain ⟨hnode, -, hend⟩ := FitIn.tree_within t.spanTree hfit node hnode
  exact ⟨hnode.start_le, hend, fun child hchild => hnode.covers hchild⟩

/-- An attribute that a modifier with a named argument ends. -/
def modifierBehindName : Source := ⟨"<b x\x7b\x7ba k=c\x7d\x7d/>", ""⟩

theorem parse_spans_nest_modifier :
    ∃ t warnings, parse modifierBehindName .precompile = .ok (t, warnings) ∧
      t.spanTree.within.map SpanTree.span
        = [⟨0, 15⟩, ⟨0, 15⟩, ⟨3, 4⟩, ⟨4, 4⟩, ⟨4, 13⟩, ⟨6, 7⟩, ⟨8, 11⟩, ⟨8, 11⟩, ⟨10, 11⟩] ∧
      ∀ node ∈ t.spanTree.within,
        node.span.start ≤ node.span.stop ∧ node.span.stop ≤ modifierBehindName.length ∧
          ∀ child ∈ node.children, node.span.Covers child.span := by
  have hrun : (parse modifierBehindName .precompile).toOption.map
      (fun result => result.1.spanTree.within.map SpanTree.span)
      = some [⟨0, 15⟩, ⟨0, 15⟩, ⟨3, 4⟩, ⟨4, 4⟩, ⟨4, 13⟩, ⟨6, 7⟩, ⟨8, 11⟩, ⟨8, 11⟩, ⟨10, 11⟩] := by
    decide +kernel
  obtain ⟨⟨t, warnings⟩, hparse, hspans⟩ := ok_of_map_toOption hrun
  exact ⟨t, warnings, hparse, hspans, parse_spans_nest hparse⟩

/-- A statement of a template ends before the next one of its list starts, or is a
mustache inside of the tag or comment that follows it. -/
theorem parse_statements_precede (h : parse source mode = .ok (t, warnings)) :
    ∀ list ∈ bodiesWithin t.body, list.IsChain Statement.Precedes :=
  (parse_inOrder h).2.2

/-- A text, and a tag with a mustache behind its slash. -/
def textBeforeTag : Source := ⟨"a<i /\x7b\x7bf\x7d\x7d>", ""⟩

theorem parse_statements_precede_text :
    ∃ t warnings, parse textBeforeTag .precompile = .ok (t, warnings) ∧
      (bodiesWithin t.body).map (·.map Statement.span)
        = [[⟨0, 1⟩, ⟨5, 10⟩, ⟨1, 11⟩], []] ∧
      ∀ list ∈ bodiesWithin t.body, list.IsChain Statement.Precedes := by
  have hrun : (parse textBeforeTag .precompile).toOption.map
      (fun result => (bodiesWithin result.1.body).map (·.map Statement.span))
      = some [[⟨0, 1⟩, ⟨5, 10⟩, ⟨1, 11⟩], []] := by
    decide +kernel
  obtain ⟨⟨t, warnings⟩, hparse, hspans⟩ := ok_of_map_toOption hrun
  exact ⟨t, warnings, hparse, hspans, parse_statements_precede hparse⟩

/-- A mustache behind a slash in a start tag. -/
def mustacheBehindSlash : Source := ⟨"<div /\x7b\x7bfoo\x7d\x7d>", ""⟩

/-- The mustache is no part of the element: it comes before it, but ends after the
start of it. -/
theorem parse_mustache_before_tag :
    ∃ t warnings mustache element,
      parse mustacheBehindSlash .precompile = .ok (t, warnings) ∧
        t.body = [mustache, element] ∧ ¬ mustache.span.stop ≤ element.span.start := by
  have hrun : (parse mustacheBehindSlash .precompile).toOption.map
      (fun result => result.1.body.map Statement.span) = some [⟨6, 13⟩, ⟨0, 14⟩] := by
    decide +kernel
  obtain ⟨⟨t, warnings⟩, hparse, hspans⟩ := ok_of_map_toOption hrun
  obtain ⟨mustache, rest, hbody, hmustache, hrest⟩ := List.map_eq_cons_iff.mp hspans
  obtain ⟨element, hlast, helement⟩ := List.map_eq_singleton_iff.mp hrest
  refine ⟨t, warnings, mustache, element, hparse, hlast ▸ hbody, ?_⟩
  rw [hmustache, helement]
  decide

end TemplateCompiler.Template
