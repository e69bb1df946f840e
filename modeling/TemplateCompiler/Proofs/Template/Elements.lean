/-
What becomes of a start tag.

At the end of a start tag the builder opens an element, or adds one that is already
complete.  Whatever is read after that, the element stays: in an open frame at first,
then in what the frame was closed into, and at the end in the tree.

* `HasElement` — the element of a start tag is in statements, at any depth;
* `Builder.HasElement` — it is in what is built so far;
* `observe_hasElement`, `node_hasElement` — one event, and one statement of a program,
  lose no element;
* `Builder.ReadsText` — a run of statements reads a text in some state;
* `Builder.EndsTag` — a run of the parser is in some state when a tag ends;
* `EndsTag.element` — the element of a start tag that ended is in the tree.
-/
import TemplateCompiler.Proofs.Template.Closing
import TemplateCompiler.Proofs.Template.Programs

namespace TemplateCompiler.Template

open Markup (Event Region)
open Mustache (Node Content Program)

variable {tag : StartTag} {start : Nat}

/-! ### Elements in statements -/

/-- A statement that is the element of a start tag that begins at a position. -/
def Statement.IsElement (tag : StartTag) (start : Nat) : Statement → Prop
  | .element tag' _ span => tag' = tag ∧ span.start = start
  | _ => False

/-- The element of a start tag is in statements, at any depth. -/
def HasElement (tag : StartTag) (start : Nat) (ss : List Statement) : Prop :=
  ∃ s ∈ statementsWithin ss, s.IsElement tag start

theorem hasElement_append {a b : List Statement} :
    HasElement tag start (a ++ b) ↔ HasElement tag start a ∨ HasElement tag start b := by
  simp only [HasElement, statementsWithin_append, List.mem_append, or_and_right, exists_or]

theorem hasElement_element {tag' : StartTag} {children : List Statement} {span : Span} :
    HasElement tag start [.element tag' children span] ↔
      (tag' = tag ∧ span.start = start) ∨ HasElement tag start children := by
  simp only [HasElement, statementsWithin_singleton, Statement.within, List.mem_cons,
    or_and_right, exists_or, exists_eq_left, Statement.IsElement]

/-- The element is in the program of a block, or in its inverse. -/
theorem HasElement.block {btag : BlockTag} {program : Block Statement}
    {other : Option (Block Statement)}
    (h : HasElement tag start program.body ∨
      ∃ block, other = some block ∧ HasElement tag start block.body) :
    HasElement tag start [.block btag program other] := by
  obtain ⟨body, params, chained, span⟩ := program
  rw [HasElement, statementsWithin_singleton, Statement.within]
  rcases h with ⟨s, hs, helement⟩ | ⟨⟨body', params', chained', span'⟩, rfl, s, hs, helement⟩
  · refine ⟨s, List.mem_cons_of_mem _ (List.mem_append_left _ ?_), helement⟩
    rwa [blockWithin]
  · refine ⟨s, List.mem_cons_of_mem _ (List.mem_append_right _ ?_), helement⟩
    rwa [otherWithin, blockWithin]

/-! ### Elements in frames -/

/-- The element is in a frame: it is the open one, or it is in what the frame holds. -/
def Frame.HasElement (tag : StartTag) (start : Nat) : Frame → Prop
  | .block body => Template.HasElement tag start body
  | .element tag' children span =>
    (tag' = tag ∧ span.start = start) ∨ Template.HasElement tag start children

theorem Frame.HasElement.push {f : Frame} (h : f.HasElement tag start) (s : Statement) :
    (f.push s).HasElement tag start := by
  cases f with
  | block body => exact hasElement_append.mpr (.inl h)
  | element tag' children span => exact h.imp_right fun h => hasElement_append.mpr (.inl h)

theorem Frame.hasElement_push {f : Frame} {s : Statement}
    (h : Template.HasElement tag start [s]) : (f.push s).HasElement tag start := by
  cases f with
  | block body => exact hasElement_append.mpr (.inr h)
  | element tag' children span => exact .inr (hasElement_append.mpr (.inr h))

theorem Over.ne_nil {base frames : List Frame} (h : Over base frames) : frames ≠ [] := by
  cases h <;> exact List.cons_ne_nil _ _

namespace Builder

variable {source : Source} {base : List Frame} {b b' c : Builder} {ns : List Node}

/-- The element is in what is built so far. -/
def HasElement (tag : StartTag) (start : Nat) (b : Builder) : Prop :=
  ∃ f ∈ b.frames, f.HasElement tag start

theorem HasElement.of_frames (h : b.HasElement tag start) (hframes : b'.frames = b.frames) :
    b'.HasElement tag start := by
  obtain ⟨f, hf, h⟩ := h
  exact ⟨f, hframes ▸ hf, h⟩

theorem HasElement.append (h : b.HasElement tag start) (s : Statement) :
    (b.append s).HasElement tag start := by
  obtain ⟨f, hf, h⟩ := h
  rw [Builder.append]
  split
  · next frame rest hframes =>
    rw [hframes] at hf
    rcases List.mem_cons.mp hf with rfl | hf
    · exact ⟨_, List.mem_cons_self, h.push s⟩
    · exact ⟨f, List.mem_cons_of_mem _ hf, h⟩
  · exact ⟨f, hf, h⟩

/-- A statement that holds the element joins an open frame. -/
theorem hasElement_append {s : Statement} (hframes : b.frames ≠ [])
    (h : Template.HasElement tag start [s]) : (b.append s).HasElement tag start := by
  obtain ⟨frame, rest, hframes⟩ := List.exists_cons_of_ne_nil hframes
  simp only [Builder.append, hframes]
  exact ⟨_, List.mem_cons_self, Frame.hasElement_push h⟩

theorem HasElement.push (h : b.HasElement tag start) (f : Frame) :
    (b.push f).HasElement tag start := by
  obtain ⟨f', hf, h⟩ := h
  exact ⟨f', List.mem_cons_of_mem _ hf, h⟩

/-! ### Events -/

/-- No tag of the markup loses an element: that of an end tag goes from its frame into the
one below. -/
theorem finishTag_hasElement {pos : Nat} (hover : Over base b.frames) (h : b.HasElement tag start)
    (hfinish : b.finishTag source pos = .ok b') : b'.HasElement tag start := by
  cases finishTag_runs hfinish with
  | absent => exact h
  | complete => exact HasElement.append (b := { b with tag := none }) h _
  | opened => exact HasElement.push (b := { b with tag := none }) h _
  | @closed tag' children span rest _ _ _ hframes =>
    rw [hframes] at hover
    cases hover with
    | element hrest =>
      obtain ⟨f, hf, hholds⟩ := h
      rw [hframes] at hf
      rcases List.mem_cons.mp hf with rfl | hf
      · exact hasElement_append (b := { b with tag := none, frames := rest }) hrest.ne_nil
          (hasElement_element.mpr hholds)
      · exact HasElement.append (b := { b with tag := none, frames := rest }) ⟨f, hf, hholds⟩ _

/-- No event loses an element. -/
theorem observe_hasElement {e : Event} (hover : Over base b.frames)
    (hobserve : b.observe source e = .ok b') (h : b.HasElement tag start) :
    b'.HasElement tag start := by
  cases e
  case finishData pos =>
    simp only [observe] at hobserve
    split at hobserve <;> cases hobserve
    · exact HasElement.append (b := { b with text := none }) h _
    · exact h
  case finishComment pos =>
    simp only [observe] at hobserve
    split at hobserve <;> cases hobserve
    · exact HasElement.append (b := { b with comment := none }) h _
    · exact h
  case finishTag pos => exact finishTag_hasElement hover h hobserve
  case finishAttributeValue pos => exact h.of_frames (finishAttr_leaves hobserve).2
  all_goals
    cases hobserve
    exact h.of_frames rfl

theorem observeAll_hasElement {r r' : Region} {events : List Event} (hin : Inside base r b)
    (hlead : Markup.leadTo? r events = some r') (hrun : b.observeAll source events = .ok b')
    (h : b.HasElement tag start) : b'.HasElement tag start :=
  (observeAll_induction (fun _ hin _ => observe_hasElement hin.above) hin hlead hrun h).2

/-! ### Texts -/

/-- The events of a text. -/
def textEvents (b : Builder) (text : Content) : List Event :=
  let (machine, read) := (b.machine.moveTo text.valueStart).read text.value
  read ++ machine.flush.2

/-- The builder with its reader behind a text, before it observes the events. -/
def readText (b : Builder) (text : Content) : Builder :=
  { b with machine := ((b.machine.moveTo text.valueStart).read text.value).1.flush.1 }

theorem content_eq (text : Content) :
    b.content source text = observeAll source (b.readText text) (b.textEvents text) := rfl

/-- The events of a text, from any of them on. -/
theorem textEvents_leads {text : Content} {events rest : List Event}
    (hevents : b.textEvents text = events ++ rest) :
    ∃ r r', Markup.leadTo? b.region events = some r ∧ Markup.leadTo? r rest = some r' := by
  have hlead : Markup.leadTo? b.region (b.textEvents text) = some _ :=
    (Markup.leadTo?_append ((b.machine.moveTo text.valueStart).read_leads text.value)).trans
      (Markup.Machine.flush_leads _)
  rw [hevents, Markup.leadTo?, List.foldlM_append, Option.bind_eq_bind,
    Option.bind_eq_some_iff] at hlead
  obtain ⟨r, hevents, hrest⟩ := hlead
  exact ⟨r, _, hevents, hrest⟩

theorem content_hasElement {text : Content} (hin : Inside base b.region b)
    (hrun : b.content source text = .ok b') (h : b.HasElement tag start) :
    b'.HasElement tag start := by
  obtain ⟨r, r', hlead, -⟩ := textEvents_leads (List.append_nil (b.textEvents text)).symm
  rw [content_eq] at hrun
  exact observeAll_hasElement (hin.withMachine _) hlead hrun (h.of_frames rfl)

/-! ### Statements of a program -/

/-- A tag in braces becomes a statement, or leaves the frames alone. -/
theorem HasElement.place {s : Statement} (h : b.HasElement tag start)
    (hframes : b'.frames = b.frames ∨ b'.frames = (b.append s).frames) :
    b'.HasElement tag start := by
  rcases hframes with hframes | hframes
  · exact h.of_frames hframes
  · exact (h.append s).of_frames hframes

/-- At the end of a program the element is in the frames below it, or in the program. -/
theorem endProgram_hasElement {names : List String} {chained : Bool} {span : Span}
    {block : Block Statement} (h : b.HasElement tag start)
    (hend : b.endProgram names chained span = .ok (block, b')) :
    b'.HasElement tag start ∨ Template.HasElement tag start block.body := by
  obtain ⟨-, body, rest, hframes, rfl, rfl⟩ := endProgram_eq_ok.mp hend
  obtain ⟨f, hf, h⟩ := h
  rw [hframes] at hf
  rcases List.mem_cons.mp hf with rfl | hf
  · exact .inr h
  · exact .inl ⟨f, hf, h⟩

/-- So it is after a program that has it when its statements are run. -/
theorem program_hasElement {p : Program} {block : Block Statement}
    (hrun : ∀ b₁, nodes source (b.push (.block [])) p.body = .ok b₁ → b₁.HasElement tag start)
    (h : b.program source p = .ok (block, b')) :
    b'.HasElement tag start ∨ Template.HasElement tag start block.body := by
  obtain ⟨b₁, h₁, hend⟩ := program_eq_ok.mp h
  exact endProgram_hasElement (hrun b₁ h₁) hend

/-- A block joins the frame in which it stands. -/
theorem appendBlock_hasElement {btag : BlockTag} {program : Block Statement}
    {other : Option (Block Statement)} (hframes : b.frames ≠ [])
    (h : b.HasElement tag start ∨ Template.HasElement tag start program.body ∨
      ∃ block, other = some block ∧ Template.HasElement tag start block.body) :
    (b.append (.block btag program other)).HasElement tag start := by
  rcases h with h | h
  · exact h.append _
  · exact hasElement_append hframes (.block h)

/-- What a block between tags comes to, when the element is in its program, in its
inverse, or below them. -/
theorem block_hasElement {btag : BlockTag} {p : Program} {other : Option Program}
    (hin : Inside base b.region b) (hdata : b.machine.state.isData = true)
    (hrun : b.node source (.block btag p other) = .ok b')
    (h : ∀ program b₁, b₁.Idle → b.program source p = .ok (program, b₁) →
      Template.HasElement tag start program.body ∨
        (other = none → b₁.HasElement tag start) ∧
        ∀ q inverse b₂, other = some q → b₁.program source q = .ok (inverse, b₂) →
          b₂.HasElement tag start ∨ Template.HasElement tag start inverse.body) :
    b'.HasElement tag start := by
  cases block_runs hrun with
  | inComment hcomment => simp [isData_eq_false_of_isComment hcomment] at hdata
  | @alone program b₁ _ hprogram =>
    obtain ⟨hidle₁, hframes₁, -⟩ := program_idle (hin.idle hdata) hprogram
    refine appendBlock_hasElement (hframes₁ ▸ hin.above.ne_nil) ?_
    rcases h program b₁ hidle₁ hprogram with h | ⟨h, -⟩
    · exact .inr (.inl h)
    · exact .inl (h rfl)
  | @withElse q program inverse b₁ b₂ _ hprogram hinverse =>
    obtain ⟨hidle₁, hframes₁, -⟩ := program_idle (hin.idle hdata) hprogram
    obtain ⟨-, hframes₂, -⟩ := program_idle hidle₁ hinverse
    refine appendBlock_hasElement (hframes₂ ▸ hframes₁ ▸ hin.above.ne_nil) ?_
    rcases h program b₁ hidle₁ hprogram with h | ⟨-, h⟩
    · exact .inr (.inl h)
    · exact (h q inverse b₂ rfl hinverse).imp_right fun h => .inr ⟨inverse, rfl, h⟩

mutual

/-- No statement of a program loses an element. -/
theorem node_hasElement (n : Node) {base : List Frame} {b b' : Builder}
    (hin : Inside base b.region b) (hrun : b.node source n = .ok b')
    (h : b.HasElement tag start) : b'.HasElement tag start := by
  match n with
  | .content text =>
    rw [node] at hrun
    exact content_hasElement hin hrun h
  | .comment value strip span =>
    rw [node] at hrun
    exact h.place (mustacheComment_frames hrun)
  | .mustache m =>
    rw [node] at hrun
    exact h.place (mustache_frames hrun)
  | .partialCall p =>
    rw [node] at hrun
    exact h.place (partialCall_frames hrun)
  | .block btag ⟨body, names, chained, span⟩ other =>
    match other, block_runs hrun with
    | _, .inComment _ => exact h.of_frames rfl
    | none, .alone hdata hprogram =>
      have hidle := hin.idle hdata
      have hframes₁ := (program_idle hidle hprogram).2.1
      -- The element is on an open frame, or the program took it along.
      refine appendBlock_hasElement (hframes₁ ▸ hin.above.ne_nil) ?_
      exact (program_hasElement
        (fun _ hbody => nodes_hasElement body hidle.push hbody (h.push _)) hprogram).imp_right .inl
    | some ⟨otherBody, otherNames, otherChained, otherSpan⟩, .withElse hdata hprogram hinverse =>
      have hidle := hin.idle hdata
      obtain ⟨hidle₁, hframes₁, -⟩ := program_idle hidle hprogram
      have hframes₂ := (program_idle hidle₁ hinverse).2.1
      refine appendBlock_hasElement (hframes₂ ▸ hframes₁ ▸ hin.above.ne_nil) ?_
      -- If the first program did not take it, the second may.
      rcases program_hasElement
        (fun _ hbody => nodes_hasElement body hidle.push hbody (h.push _)) hprogram with h₁ | h₁
      · exact (program_hasElement (fun _ hbody =>
          nodes_hasElement otherBody hidle₁.push hbody (h₁.push _)) hinverse).imp_right
            fun h₂ => .inr ⟨_, rfl, h₂⟩
      · exact .inr (.inl h₁)

theorem nodes_hasElement (ns : List Node) {base : List Frame} {b b' : Builder}
    (hin : Inside base b.region b) (hrun : b.nodes source ns = .ok b')
    (h : b.HasElement tag start) : b'.HasElement tag start := by
  match ns with
  | [] =>
    rw [nodes] at hrun
    cases hrun
    exact h
  | n :: rest =>
    obtain ⟨b₁, h₁, hrest⟩ := nodes_cons_eq_ok.mp hrun
    exact nodes_hasElement rest (node_balance n hin h₁).1 hrest (node_hasElement n hin h₁ h)

end

/-! ### Runs of the parser -/

/-- When a builder runs some statements, those of the programs in them included, it reads
a text in some state. -/
inductive ReadsText (source : Source) : Builder → List Node → Builder → Content → Prop
  | here {b : Builder} {text : Content} {rest : List Node} :
    ReadsText source b (.content text :: rest) b text
  | later {b b₁ c : Builder} {n : Node} {rest : List Node} {text : Content}
    (h : b.node source n = .ok b₁) (hrest : ReadsText source b₁ rest c text) :
    ReadsText source b (n :: rest) c text
  /-- In the program of a block. -/
  | program {b c : Builder} {btag : BlockTag} {p : Program} {other : Option Program}
    {rest : List Node} {text : Content} (hdata : b.machine.state.isData = true)
    (hp : ReadsText source (b.push (.block [])) p.body c text) :
    ReadsText source b (.block btag p other :: rest) c text
  /-- In the inverse of a block. -/
  | inverse {b b₁ c : Builder} {btag : BlockTag} {p q : Program} {rest : List Node}
    {block : Block Statement} {text : Content} (hdata : b.machine.state.isData = true)
    (hp : b.program source p = .ok (block, b₁))
    (hq : ReadsText source (b₁.push (.block [])) q.body c text) :
    ReadsText source b (.block btag p (some q) :: rest) c text

/-- An element that a text brings is there at the end of the run. -/
theorem ReadsText.hasElement {text : Content} (h : ReadsText source b ns c text)
    (hin : Inside base b.region b) (hrun : b.nodes source ns = .ok b')
    (htext : ∀ base c', Inside base c.region c → c.content source text = .ok c' →
      c'.HasElement tag start) : b'.HasElement tag start := by
  induction h generalizing base b' with
  | @here b text rest =>
    obtain ⟨b₁, h₁, hrest⟩ := nodes_cons_eq_ok.mp hrun
    have hin₁ := (node_balance _ hin h₁).1
    rw [node] at h₁
    exact nodes_hasElement rest hin₁ hrest (htext base b₁ hin h₁)
  | later hnode hrest ih =>
    obtain ⟨b₂, h₂, hrest'⟩ := nodes_cons_eq_ok.mp hrun
    cases hnode.symm.trans h₂
    exact ih (node_balance _ hin hnode).1 hrest' htext
  | @program b c btag p other rest text hdata hp ih =>
    obtain ⟨b₁, hblock, hrest⟩ := nodes_cons_eq_ok.mp hrun
    refine nodes_hasElement rest (node_balance _ hin hblock).1 hrest ?_
    refine block_hasElement hin hdata hblock fun program b₁ hidle₁ hprogram => ?_
    have h₁ := program_hasElement
      (fun _ hbody => ih (hin.idle hdata).push hbody htext) hprogram
    refine h₁.symm.imp_right fun h₁ => ⟨fun _ => h₁, fun q inverse b₂ _ hinverse => ?_⟩
    exact program_hasElement
      (fun _ hbody => nodes_hasElement _ hidle₁.push hbody (h₁.push _)) hinverse
  -- The text is in the `else`, which is reached by reading the program before it.
  | @inverse b b₁ c btag p q rest block text hdata hp hq ih =>
    obtain ⟨b₂, hblock, hrest⟩ := nodes_cons_eq_ok.mp hrun
    refine nodes_hasElement rest (node_balance _ hin hblock).1 hrest ?_
    refine block_hasElement hin hdata hblock fun program b₁ hidle₁ hprogram => ?_
    refine .inr ⟨(nomatch ·), fun q inverse b₂ hother hinverse => ?_⟩
    cases hother
    cases hp.symm.trans hprogram
    exact program_hasElement (fun _ hbody => ih hidle₁.push hbody htext) hinverse

/-- A run of the parser is in a state when a tag ends at a position. -/
inductive EndsTag (source : Source) (mode : Markup.Mode) (c : Builder) (pos : Nat) : Prop
  | intro {program : Program} {b : Builder} {text : Content} {events rest : List Event}
    (hprogram : Mustache.parseProgram (Mustache.lex source.text) = .ok program)
    (hreads : ReadsText source (push { machine := { mode } } (.block []))
      (builtProgram mode program).body b text)
    (hevents : b.textEvents text = events ++ .finishTag pos :: rest)
    (hrun : observeAll source (b.readText text) events = .ok c)

/-- The end of a start tag brings its element. -/
theorem finishTag_element {kept : StartTag} {pos : Nat} (hframes : b.frames ≠ [])
    (htag : b.tag = some (.opening tag start)) (hkept : extractBlockParams tag = .ok kept)
    (h : b.finishTag source pos = .ok b') : b'.HasElement kept start := by
  cases finishTag_runs h with
  | absent hnone => cases hnone.symm.trans htag
  | complete htag' _ hkept' =>
    cases htag'.symm.trans htag
    cases hkept'.symm.trans hkept
    exact hasElement_append (b := { b with tag := none }) hframes
      (hasElement_element.mpr (.inl ⟨rfl, rfl⟩))
  | opened htag' _ hkept' =>
    cases htag'.symm.trans htag
    cases hkept'.symm.trans hkept
    exact ⟨_, List.mem_cons_self, .inl ⟨rfl, rfl⟩⟩
  | closed htag' => cases htag'.symm.trans htag

/-- A start tag is accepted if its block parameters are, but for the name `:`. -/
theorem observe_finishTag (source : Source) {kept : StartTag} {pos : Nat}
    (htag : b.tag = some (.opening tag start)) (hname : tag.name ≠ ":")
    (hkept : extractBlockParams tag = .ok kept) :
    ∃ b', b.observe source (.finishTag pos) = .ok b' := by
  rw [observe, finishTag]
  simp only [htag, finishStartTag, if_neg hname, hkept]
  cases isVoid kept.name || kept.selfClosing
  · exact ⟨_, rfl⟩
  · exact ⟨_, rfl⟩

/-- The element of a start tag that ended during the run is in the tree. -/
theorem EndsTag.element {mode : Markup.Mode} {pos : Nat} {kept : StartTag} {t : Template}
    {warnings : List Diagnostic} (hends : EndsTag source mode c pos)
    (htag : c.tag = some (.opening tag start)) (hkept : extractBlockParams tag = .ok kept)
    (hparse : parse source mode = .ok (t, warnings)) :
    Template.HasElement kept start t.body := by
  obtain ⟨hprogram, hreads, hevents, hrun⟩ := hends
  obtain ⟨program', hprogram', hbuild⟩ := parse_eq_ok.mp hparse
  cases hprogram.symm.trans hprogram'
  obtain ⟨block, b₂, hprogram, rfl, -⟩ := build_eq_ok.mp hbuild
  obtain ⟨b₁, h₁, hend⟩ := program_eq_ok.mp hprogram
  have hidle := idle_start mode
  have hin₁ := (nodes_balance _ hidle.push h₁).1
  have hb₁ : b₁.HasElement kept start := by
    refine hreads.hasElement hidle.push h₁ fun base c' hin hcontent => ?_
    rw [content_eq, hevents, observeAll_append] at hcontent
    obtain ⟨c₁, hc₁, hcontent⟩ := hcontent
    cases hrun.symm.trans hc₁
    obtain ⟨c₂, hfinish, hrest⟩ := observeAll_cons.mp hcontent
    obtain ⟨r, r', hlead, hlead'⟩ := textEvents_leads hevents
    have hin₁ := (observeAll_inside (hin.withMachine _) hlead hrun).1
    obtain ⟨r₁, hlead₁, hlead'⟩ := Markup.leadTo?_cons.mp hlead'
    have hin₂ := (observe_inside hin₁ hlead₁ hfinish).1
    refine observeAll_hasElement hin₂ hlead' hrest ?_
    exact finishTag_element hin₁.above.ne_nil htag hkept hfinish
  -- Below the frame of the whole program there is none.
  obtain ⟨-, -, -, hframes₂, -⟩ := endProgram_idle hin₁ hend
  rcases endProgram_hasElement hb₁ hend with ⟨f, hf, -⟩ | h
  · rw [hframes₂] at hf
    cases hf
  · exact h

end Builder

end TemplateCompiler.Template
