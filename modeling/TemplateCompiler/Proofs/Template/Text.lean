/-
Texts of a template are copies of the source.

A text node covers bytes of the source that lie on character boundaries, and its
characters are those of the source, with line breaks folded.  Only where
references are decoded may an ampersand make a difference.

* `TextNode.CopiedFrom` — the node is a copy of what its span covers;
* `OpenText` — so far a run of text is a copy of what was read of it;
* `Builder.Follows` — the builder keeps up with the markup reader, which stands
  in front of a text;
* `step_follows`, `read_follows` — it does so after a step, and after a whole run;
* `parse_texts` — all texts of a template are copies.

The lexer drops backslashes, whitespace control moves the start of a run, and the
reader of the markup drops a line break.  None of these has to be known here: a
run of text stands in the source where it says (`Mustache.parseProgram_standsAt`),
and from there on offsets and text advance together (`Markup.Machine.step_reads`).
-/
import TemplateCompiler.Proofs.Markup.Reading
import TemplateCompiler.Proofs.Mustache.Places
import TemplateCompiler.Proofs.Template.Tags

namespace TemplateCompiler.Template

open Markup (Event Machine Mode Reading Region)
open Mustache (Node Content Program)

/-! ### Copies -/

/-- A text node is a copy of what its span covers. -/
def TextNode.CopiedFrom (source : Source) (mode : Mode) (node : TextNode) : Prop :=
  ∃ part, Text.StandsAt source.text.toList part node.span.start ∧
    node.span.stop = node.span.start + Text.byteLength part ∧
    (mode = .codemod ∨ '&' ∉ part → node.chars.toList = Text.foldLineBreaks part)

/-- So far a run of text is a copy of what was read of it.  Folding looks ahead
into the text that is still to be read. -/
def OpenText (source : Source) (mode : Mode) (t : TextNode) (offset : Nat) (input : List Char) :
    Prop :=
  ∃ read, Text.StandsAt source.text.toList (read ++ input) t.span.start ∧
    offset = t.span.start + Text.byteLength read ∧
    (mode = .codemod ∨ '&' ∉ read →
      Text.foldLineBreaks (read ++ input) = t.chars.toList ++ Text.foldLineBreaks input)

namespace OpenText

variable {source : Source} {mode : Mode} {t : TextNode} {offset : Nat} {input : List Char}

/-- A run begins with no characters. -/
theorem start (h : Text.StandsAt source.text.toList input offset) :
    OpenText source mode ⟨"", .point offset⟩ offset input :=
  ⟨[], h, by simp [Span.point], fun _ => rfl⟩

/-- A run goes on with one character. -/
theorem push {c : Char} {rest : List Char} (h : OpenText source mode t offset (c :: rest)) :
    OpenText source mode { t with chars := t.chars.push (Reading.of c rest).char }
      (offset + (Reading.of c rest).width) (Reading.of c rest).rest := by
  obtain ⟨read, hstands, hoffset, hfold⟩ := h
  obtain ⟨piece, hpiece, hwidth⟩ := Reading.of_reads c rest
  have hread : read ++ c :: rest = read ++ piece ++ (Reading.of c rest).rest := by
    rw [List.append_assoc, ← hpiece]
  refine ⟨read ++ piece, hread ▸ hstands, ?_, fun hplain => ?_⟩
  · rw [Text.byteLength_append, hoffset, hwidth, Nat.add_assoc]
  · have hplain' : mode = .codemod ∨ '&' ∉ read :=
      hplain.imp_right fun hnot hmem => hnot (List.mem_append_left _ hmem)
    rw [← hread, hfold hplain', Text.foldLineBreaks_cons, String.toList_push, List.append_assoc]
    rfl

/-- A run goes on with a reference, whatever that stands for. -/
theorem skip {body rest : List Char} {chars : String} (hmode : mode ≠ .codemod)
    (h : OpenText source mode t offset ('&' :: body ++ rest)) :
    OpenText source mode { t with chars } (offset + Text.byteLength ('&' :: body)) rest := by
  obtain ⟨read, hstands, hoffset, -⟩ := h
  refine ⟨read ++ '&' :: body, ?_, ?_, fun hplain => ?_⟩
  · rw [List.append_assoc]
    exact hstands
  · rw [Text.byteLength_append, hoffset, Nat.add_assoc]
  · rcases hplain with hcodemod | hnot
    · exact absurd hcodemod hmode
    · exact absurd (by simp) hnot

/-- A run may end in front of anything but a line feed. -/
theorem finish (hcut : ∀ c rest, input = c :: rest → c ≠ '\n')
    (h : OpenText source mode t offset input) :
    TextNode.CopiedFrom source mode { t with span := ⟨t.span.start, offset⟩ } := by
  obtain ⟨read, hstands, hoffset, hfold⟩ := h
  refine ⟨read, ?_, hoffset, fun hplain => ?_⟩
  · have hkept : Text.StandsAt source.text.toList read (t.span.start + Text.byteLength []) :=
      hstands.cut rfl
    exact hkept
  · have hchars := hfold hplain
    cases input with
    | nil => simpa [Text.foldLineBreaks] using hchars.symm
    | cons c rest =>
      rw [Text.foldLineBreaks_append_cons read (hcut c rest rfl)] at hchars
      exact (List.append_cancel_right hchars).symm

end OpenText

namespace Builder

variable {source : Source} {mode : Mode} {base : List Frame} {b b' : Builder} {m : Machine}

/-! ### Steps of the reader -/

/-- A builder that keeps up with the markup reader, which stands in front of a
text. -/
structure Follows (source : Source) (mode : Mode) (b : Builder) (m : Machine)
    (input : List Char) : Prop where
  resolver : m.resolver = Markup.Resolver.ofMode mode
  stands : Text.StandsAt source.text.toList input m.offset
  texts : ∀ node, Item.text node ∈ b.items → node.CopiedFrom source mode
  run : m.state = .data → ∃ t, b.text = some t ∧ OpenText source mode t m.offset input

/-- Texts come into the tree only where a run of text ends. -/
theorem observe_text {r r' : Region} {e : Event} {node : TextNode} (hin : Inside base r b)
    (hlead : Event.leadsTo? r e = some r') (h : b.observe source e = .ok b')
    (hnode : Item.text node ∈ b'.items) : Item.text node ∈ b.items + b.gainedBy e := by
  rw [← (observe_inside hin hlead h).2]
  exact Multiset.mem_add.mpr (.inl hnode)

theorem gainedBy_quiet {e : Event} {node : TextNode} (he : ∀ pos, e ≠ .finishData pos) :
    Item.text node ∉ b.gainedBy e := by
  unfold gainedBy
  split
  · next pos => exact absurd rfl (he pos)
  · cases b.comment <;> simp
  · exact Multiset.notMem_zero _

/-- Events that end no run of text. -/
theorem observeAll_quiet {r r' : Region} {events : List Event} {node : TextNode}
    (hin : Inside base r b) (hlead : Markup.leadTo? r events = some r')
    (hquiet : ∀ pos, .finishData pos ∉ events) (h : b.observeAll source events = .ok b')
    (hnode : Item.text node ∈ b'.items) : Item.text node ∈ b.items := by
  refine (observeAll_induction (motive := fun b₁ => Item.text node ∈ b₁.items → _) ?_ hin hlead h
    id).2 hnode
  intro r r' e b₁ b₂ hmem hin₁ hlead₁ h₁ hold hnode₂
  rcases Multiset.mem_add.mp (observe_text hin₁ hlead₁ h₁ hnode₂) with hnode₁ | hnew
  · exact hold hnode₁
  · refine absurd hnew (gainedBy_quiet fun pos he => hquiet pos ?_)
    rwa [← he]

theorem push_append (text : String) (c : Char) (rest : List Char) :
    text.push c ++ String.ofList rest = text ++ String.ofList (c :: rest) :=
  String.toList_inj.mp (by simp)

/-- Characters that are told one by one join the run of text. -/
theorem observeAll_data {t : TextNode} (ht : b.text = some t) (text : List Char) :
    b.observeAll source (text.map .data) =
      .ok { b with text := some { t with chars := t.chars ++ String.ofList text } } := by
  induction text generalizing b t with
  | nil =>
    rw [String.ofList_nil, String.append_empty, ← ht]
    rfl
  | cons c rest ih =>
    refine observeAll_cons.mpr
      ⟨{ b with text := some { t with chars := t.chars.push c } }, ?_, ?_⟩
    · simp only [observe, ht, Option.map_some]
    · rw [ih rfl, push_append]

theorem pos_eq {input : List Char} (hlength : source.length ≤ maxOffset)
    (h : Text.StandsAt source.text.toList input m.offset) : m.pos = m.offset := by
  have hstop := h.stop_le
  rw [Source.length] at hlength
  exact Nat.min_eq_left (by omega)

/-- A run of text ends where the reader stands. -/
theorem finishData_follows {input : List Char} (hlength : source.length ≤ maxOffset)
    (hin : Inside base .text b) (hfollows : Follows source mode b m input)
    (hcut : ∀ c rest, input = c :: rest → c ≠ '\n') (hdata : m.state = .data)
    (h : b.observe source (.finishData m.pos) = .ok b') :
    ∀ node, Item.text node ∈ b'.items → node.CopiedFrom source mode := by
  obtain ⟨t, ht, hopen⟩ := hfollows.run hdata
  intro node hnode
  rcases Multiset.mem_add.mp (observe_text hin rfl h hnode) with hold | hnew
  · exact hfollows.texts node hold
  · rw [gainedBy, ht, Option.map_some, Option.getD_some, Multiset.mem_singleton,
      pos_eq hlength hfollows.stands] at hnew
    cases hnew
    exact hopen.finish hcut

/-- What a builder has to show when the reader has gone on. -/
structure KeepsUp (source : Source) (mode : Mode) (b : Builder) (next : Markup.Step) : Prop where
  texts : ∀ node, Item.text node ∈ b.items → node.CopiedFrom source mode
  run : next.machine.state = .data →
    ∃ t, b.text = some t ∧ OpenText source mode t next.machine.offset next.rest

/-- A character joins the run of text. -/
theorem pushData_keepsUp {c : Char} {rest : List Char} (hin : Inside base .text b)
    (hfollows : Follows source mode b m (c :: rest)) (hdata : m.state = .data)
    (h : b.observeAll source [.data (Reading.of c rest).char] = .ok b') :
    KeepsUp source mode b'
      (m.take (Reading.of c rest) .data [.data (Reading.of c rest).char]) := by
  obtain ⟨t, ht, hopen⟩ := hfollows.run hdata
  refine ⟨fun node hnode => hfollows.texts node ?_, fun _ => ?_⟩
  · exact observeAll_quiet hin rfl (by simp) h hnode
  · cases h
    exact ⟨_, by rw [ht]; rfl, hopen.push⟩

/-- A reference joins the run of text. -/
theorem takeReference_keepsUp {c : Char} {rest : List Char} (hin : Inside base .text b)
    (hfollows : Follows source mode b m (c :: rest)) (hdata : m.state = .data)
    (hc : (Reading.of c rest).char = '&')
    (h : b.observeAll source (m.takeReference (Reading.of c rest) .data).events = .ok b') :
    KeepsUp source mode b' (m.takeReference (Reading.of c rest) .data) := by
  rw [Machine.takeReference] at h ⊢
  split at h
  · next text whole hsome =>
    obtain ⟨body, hbody, hwidth⟩ := Markup.Machine.reference?_reads hc hsome
    -- Where text is kept as it stands no reference is resolved.
    have hmode : mode ≠ .codemod := by
      rintro rfl
      rw [Machine.reference?, hfollows.resolver] at hsome
      split at hsome <;> cases hsome
    obtain ⟨t, ht, hopen⟩ := hfollows.run hdata
    refine ⟨fun node hnode => hfollows.texts node ?_, fun _ => ?_⟩
    · exact observeAll_quiet hin (Markup.leadTo?_map (fun _ => rfl) text) (by simp) h hnode
    · rw [Machine.take, observeAll_data ht text] at h
      cases h
      rw [hbody] at hopen
      refine ⟨_, rfl, ?_⟩
      simp only [Machine.take, hwidth]
      exact hopen.skip hmode
  · rw [hdata]
    rw [← hc] at h ⊢
    exact pushData_keepsUp hin hfollows hdata h

/-- A step in a run of text. -/
theorem stepData_keepsUp {c : Char} {rest : List Char} (hlength : source.length ≤ maxOffset)
    (hin : Inside base .text b) (hfollows : Follows source mode b m (c :: rest))
    (hdata : m.state = .data)
    (h : b.observeAll source (m.stepData (c :: rest) (Reading.of c rest)).events = .ok b') :
    KeepsUp source mode b' (m.stepData (c :: rest) (Reading.of c rest)) := by
  rw [Machine.stepData] at h ⊢
  split at h
  · next hangle =>
    rw [if_pos hangle]
    have hplain : Reading.of c rest = ⟨c, c.utf8Size, rest⟩ :=
      Reading.of_eq (by rw [hangle.1]; decide)
    -- The run ends in front of an angle bracket, which parts no line break.
    have hc : c = '<' := by rw [← hangle.1, hplain]
    simp only [Machine.openTag, Machine.take, List.cons_append, List.nil_append, observeAll,
      List.foldlM_cons, List.foldlM_nil, bind_eq_ok, pure_eq_ok] at h
    obtain ⟨b₁, h₁, b₂, h₂, rfl⟩ := h
    cases h₂
    refine ⟨finishData_follows hlength hin hfollows ?_ hdata h₁, fun hstate => by cases hstate⟩
    intro c' rest' heq
    rw [← (List.cons.inj heq).1, hc]
    decide
  next hangle =>
  rw [if_neg hangle]
  split at h
  · next hamp =>
    rw [if_pos hamp]
    exact takeReference_keepsUp hin hfollows hdata hamp.1 h
  · next hamp =>
    rw [if_neg hamp]
    exact pushData_keepsUp hin hfollows hdata h

/-- A step in front of a run of text. -/
theorem stepBeforeData_keepsUp {c : Char} {rest : List Char} (hlength : source.length ≤ maxOffset)
    (hin : Inside base .text b) (hfollows : Follows source mode b m (c :: rest))
    (h : b.observeAll source (m.stepBeforeData (c :: rest) (Reading.of c rest)).events = .ok b') :
    KeepsUp source mode b' (m.stepBeforeData (c :: rest) (Reading.of c rest)) := by
  rw [Machine.stepBeforeData] at h ⊢
  split at h
  · next hangle =>
    rw [if_pos hangle]
    refine ⟨fun node hnode => hfollows.texts node ?_, fun hstate => by cases hstate⟩
    exact observeAll_quiet hin rfl (by simp [Machine.openTag, Machine.take]) h hnode
  next hangle =>
  rw [if_neg hangle]
  split at h
  · next hbreak =>
    rw [if_pos hbreak]
    obtain ⟨piece, hpiece, hwidth⟩ := Reading.of_reads c rest
    -- The run begins behind the line break that is dropped, with all its bytes.
    have hstands : Text.StandsAt source.text.toList (Reading.of c rest).rest
        (m.offset + (Reading.of c rest).width) := by
      rw [← hwidth]
      exact hfollows.stands.cut (by rw [hpiece, List.append_nil])
    have hpos : m.posAfter (Reading.of c rest) = m.offset + (Reading.of c rest).width := by
      have hstop := hstands.stop_le
      rw [Source.length] at hlength
      exact Nat.min_eq_left (by omega)
    refine ⟨fun node hnode => hfollows.texts node ?_, fun _ => ?_⟩
    · exact observeAll_quiet hin rfl (by simp [Machine.take]) h hnode
    · cases h
      rw [hpos]
      exact ⟨_, rfl, .start hstands⟩
  · next hbreak =>
    rw [if_neg hbreak]
    refine ⟨fun node hnode => hfollows.texts node ?_, fun _ => ?_⟩
    · exact observeAll_quiet hin rfl (by simp [Machine.hand]) h hnode
    · cases h
      rw [pos_eq hlength hfollows.stands]
      exact ⟨_, rfl, .start hfollows.stands⟩

/-- A step of the reader. -/
theorem step_follows {c : Char} {rest : List Char} (hlength : source.length ≤ maxOffset)
    (hin : Inside base m.state.region b) (hfollows : Follows source mode b m (c :: rest))
    (h : b.observeAll source (m.step c rest).events = .ok b') :
    Follows source mode b' (m.step c rest).machine (m.step c rest).rest := by
  obtain ⟨⟨piece, hpiece, hoffset⟩, hresolver⟩ := m.step_reads c rest
  have hkeeps : KeepsUp source mode b' (m.step c rest) := by
    -- In a run of text, in front of one, or elsewhere.
    by_cases hdata : m.state = .data
    · have hstep : m.step c rest = m.stepData (c :: rest) (Reading.of c rest) := by
        rw [Machine.step, hdata]
      rw [hstep] at h ⊢
      rw [hdata] at hin
      exact stepData_keepsUp hlength hin hfollows hdata h
    by_cases hbefore : m.state = .beforeData
    · have hstep : m.step c rest = m.stepBeforeData (c :: rest) (Reading.of c rest) := by
        rw [Machine.step, hbefore]
      rw [hstep] at h ⊢
      rw [hbefore] at hin
      exact stepBeforeData_keepsUp hlength hin hfollows h
    · have hoff : m.state.isData = false := by
        cases hs : m.state <;> first | rfl | contradiction
      obtain ⟨hstate, hquiet⟩ := m.step_quiet c rest hoff
      refine ⟨fun node hnode => hfollows.texts node ?_, fun hdata => absurd hdata hstate⟩
      exact observeAll_quiet hin (m.step_leads c rest) hquiet h hnode
  refine ⟨hresolver.trans hfollows.resolver, ?_, hkeeps.texts, hkeeps.run⟩
  rw [hoffset]
  exact hfollows.stands.cut (by rw [hpiece, List.append_nil])

/-- A piece of text, read to its end. -/
theorem read_follows {input : List Char} (hlength : source.length ≤ maxOffset)
    (hin : Inside base m.state.region b) (hfollows : Follows source mode b m input)
    (h : b.observeAll source (m.read input).2 = .ok b') :
    Follows source mode b' (m.read input).1 [] := by
  fun_induction Machine.read m input generalizing b
  case case1 m =>
    cases h
    exact hfollows
  case case2 m c rest next result ih =>
    obtain ⟨b₁, h₁, h⟩ := observeAll_append.mp h
    have hin₁ := (observeAll_inside hin (m.step_leads c rest) h₁).1
    exact ih hin₁ (step_follows hlength hin hfollows h₁) h

/-! ### Between runs of text -/

/-- A builder between two statements of a program: no run of text is open, and
all texts are copies. -/
structure Faithful (source : Source) (mode : Mode) (b : Builder) : Prop where
  resolver : b.machine.resolver = Markup.Resolver.ofMode mode
  state : b.machine.state ≠ .data
  texts : ∀ node, Item.text node ∈ b.items → node.CopiedFrom source mode

/-- A run of text. -/
theorem content_faithful {c : Content} (hlength : source.length ≤ maxOffset)
    (hin : Inside base b.region b)
    (hstands : Text.StandsAt source.text.toList c.value c.valueStart)
    (hfaithful : Faithful source mode b) (h : b.content source c = .ok b') :
    Faithful source mode b' := by
  rw [content] at h
  simp only at h
  have hmachine := observeAll_machine h
  generalize hm : b.machine.moveTo c.valueStart = m at h hmachine
  have hstate : m.state = b.machine.state := by rw [← hm]; rfl
  obtain ⟨b₁, h₁, h⟩ := observeAll_append.mp h
  have hin' : Inside base m.state.region { b with machine := (m.read c.value).1.flush.1 } := by
    rw [hstate]
    exact hin.withMachine _
  have hfollows : Follows source mode { b with machine := (m.read c.value).1.flush.1 } m c.value :=
    ⟨by rw [← hm]; exact hfaithful.resolver, by rw [← hm]; exact hstands, hfaithful.texts,
      fun hdata => absurd (hstate.symm.trans hdata) hfaithful.state⟩
  have hend := read_follows hlength hin' hfollows h₁
  have hin₁ := (observeAll_inside hin' (m.read_leads c.value) h₁).1
  -- At its end the run is closed, if it is open.
  rw [Machine.flush] at h hmachine
  split at h
  · next hdata =>
    rw [if_pos hdata] at hmachine
    obtain ⟨b₂, h₂, hdone⟩ := observeAll_cons.mp h
    cases hdone
    rw [hdata] at hin₁
    refine ⟨by rw [hmachine]; exact hend.resolver, by rw [hmachine]; simp, ?_⟩
    exact finishData_follows hlength hin₁ hend (by simp) hdata h₂
  · next hdata =>
    rw [if_neg hdata] at hmachine
    cases h
    exact ⟨by rw [hmachine]; exact hend.resolver, by rw [hmachine]; exact hdata, hend.texts⟩

theorem text_mem_items {node : TextNode} :
    Item.text node ∈ b.items ↔ Item.text node ∈ framesItems b.frames := by
  simp [items]

/-- Texts stand in frames only. -/
theorem Faithful.of_frames (h : Faithful source mode b)
    (hresolver : b'.machine.resolver = b.machine.resolver) (hstate : b'.machine.state ≠ .data)
    (hframes : b'.frames = b.frames) : Faithful source mode b' := by
  refine ⟨hresolver.trans h.resolver, hstate, fun node hnode => h.texts node ?_⟩
  rwa [text_mem_items, ← hframes, ← text_mem_items]

theorem Faithful.append {s : Statement} (h : Faithful source mode b)
    (hs : ∀ node, Item.text node ∈ itemsOf [s] → node.CopiedFrom source mode) :
    Faithful source mode (b.append s) := by
  refine ⟨by rw [append_machine]; exact h.resolver, by rw [append_machine]; exact h.state, ?_⟩
  intro node hnode
  have htexts := h.texts node
  rw [text_mem_items] at hnode htexts
  rw [Builder.append] at hnode
  cases hframes : b.frames with
  | nil =>
    rw [hframes] at hnode
    simp only at hnode
    rw [hframes] at hnode
    exact absurd hnode (Multiset.notMem_zero _)
  | cons f rest =>
    rw [hframes] at hnode htexts
    simp only [framesItems_cons, Frame.push_items, Multiset.mem_add] at hnode htexts
    rcases hnode with (hnode | hnode) | hnode
    · exact htexts (.inl hnode)
    · exact hs node hnode
    · exact htexts (.inr hnode)

/-! ### Single tags -/

/-- A tag becomes a statement of the tree. -/
theorem Faithful.appendTag {s : Statement} {tag : Tag} (h : Faithful source mode b)
    (hs : s.within = [s]) (hitems : s.items = {.tag tag}) : Faithful source mode (b.append s) := by
  refine h.append fun node hnode => ?_
  rw [itemsOf_singleton hs, hitems, Multiset.mem_singleton] at hnode
  cases hnode

theorem appendToComment_faithful (h : Faithful source mode b) (span : Span) :
    Faithful source mode (b.appendToComment source span) :=
  h.of_frames rfl (by simp [appendToComment, goTo]) rfl

theorem Faithful.goTo {state : Markup.State} (h : Faithful source mode b) (hstate : state ≠ .data) :
    Faithful source mode (b.goTo state) :=
  h.of_frames rfl hstate rfl

theorem addModifier_faithful {tag : MustacheTag} (hfaithful : Faithful source mode b)
    (h : b.addModifier tag = .ok b') : Faithful source mode b' := by
  cases addModifier_runs h with
  | joined => exact hfaithful.of_frames rfl hfaithful.state rfl
  | dropped => exact hfaithful

theorem addPart_faithful (hfaithful : Faithful source mode b) (tag : MustacheTag) :
    Faithful source mode (b.addPart tag) :=
  hfaithful.of_frames rfl hfaithful.state rfl

theorem mustache_faithful {tag : MustacheTag} (hfaithful : Faithful source mode b)
    (h : b.mustache source tag = .ok b') : Faithful source mode b' := by
  cases mustache_runs h with
  | inComment => exact appendToComment_faithful hfaithful _
  | modifier _ hadd => exact addModifier_faithful hfaithful hadd
  | @afterName b₁ b₂ _ hvalue hadd =>
    obtain ⟨hmachine, hframes⟩ := emptyValue_leaves hvalue
    have hfaithful₁ : Faithful source mode b₁ :=
      hfaithful.of_frames (by rw [hmachine]) (by rw [hmachine]; exact hfaithful.state) hframes
    exact (addModifier_faithful hfaithful₁ hadd).goTo (by simp)
  | afterValue _ hadd => exact (addModifier_faithful hfaithful hadd).goTo (by simp)
  | beginValue _ hbegin =>
    cases hbegin
    refine Faithful.goTo (addPart_faithful ?_ tag) (by simp)
    exact hfaithful.of_frames rfl hfaithful.state rfl
  | part => exact addPart_faithful hfaithful tag
  | statement => exact hfaithful.appendTag (by simp only [Statement.within]) rfl

theorem mustacheComment_faithful {c : Comment} (hfaithful : Faithful source mode b)
    (h : b.mustacheComment source c = .ok b') : Faithful source mode b' := by
  cases mustacheComment_runs h with
  | inComment => exact appendToComment_faithful hfaithful _
  | statement => exact hfaithful.appendTag (by simp only [Statement.within]) rfl
  | note => exact hfaithful.of_frames rfl hfaithful.state rfl

theorem partialCall_faithful {tag : PartialTag} (hfaithful : Faithful source mode b)
    (h : b.partialCall source tag = .ok b') : Faithful source mode b' := by
  cases partialCall_runs h with
  | inComment => exact appendToComment_faithful hfaithful _
  | statement => exact hfaithful.appendTag (by simp only [Statement.within]) rfl

/-! ### Programs -/

/-- All texts among statements are copies. -/
def Copies (source : Source) (mode : Mode) (ss : List Statement) : Prop :=
  ∀ node, Item.text node ∈ itemsOf ss → node.CopiedFrom source mode

theorem Faithful.push (h : Faithful source mode b) :
    Faithful source mode (b.push (.block [])) := by
  refine ⟨h.resolver, h.state, fun node hnode => h.texts node ?_⟩
  rw [text_mem_items] at hnode ⊢
  simpa [Builder.push, framesItems_cons, Frame.items, itemsOf, statementsWithin] using hnode

/-- The end of a program gives its texts back. -/
theorem endProgram_faithful {names : List String} {chained : Bool} {span : Span}
    {block : Block Statement} (hin : Inside base b.region b) (hfaithful : Faithful source mode b)
    (h : b.endProgram names chained span = .ok (block, b')) :
    Faithful source mode b' ∧ Copies source mode block.body := by
  obtain ⟨-, -, hmachine, hbase, hframes⟩ := endProgram_idle hin h
  have htexts : ∀ node, Item.text node ∈ itemsOf block.body + framesItems base →
      node.CopiedFrom source mode := by
    intro node hnode
    apply hfaithful.texts node
    rwa [text_mem_items, hframes, framesItems_cons, Frame.items]
  refine ⟨⟨by rw [hmachine]; exact hfaithful.resolver, by rw [hmachine]; exact hfaithful.state,
    fun node hnode => htexts node ?_⟩, fun node hnode => htexts node ?_⟩
  · rw [text_mem_items, hbase] at hnode
    exact Multiset.mem_add.mpr (.inr hnode)
  · exact Multiset.mem_add.mpr (.inl hnode)

/-- So does a program that was run in a frame of its own. -/
theorem program_faithful {p : Program} {block : Block Statement} (hidle : b.Idle)
    (hnodes : ∀ b₁, nodes source (b.push (.block [])) p.body = .ok b₁ → Faithful source mode b₁)
    (h : b.program source p = .ok (block, b')) :
    Faithful source mode b' ∧ Copies source mode block.body := by
  obtain ⟨b₁, hrun, hend⟩ := program_eq_ok.mp h
  exact endProgram_faithful (nodes_balance p.body hidle.push hrun).1 (hnodes b₁ hrun) hend

/-- The runs of text in statements of a program stand in the source. -/
def Stand (source : Source) (ns : List Node) : Prop :=
  ∀ text, .content text ∈ ns → Text.StandsAt source.text.toList text.value text.valueStart

mutual

/-- A statement of a program adds copies only. -/
theorem node_faithful (n : Node) {base : List Frame} {b b' : Builder}
    (hlength : source.length ≤ maxOffset) (hstand : Stand source n.within)
    (hin : Inside base b.region b) (hfaithful : Faithful source mode b)
    (h : b.node source n = .ok b') : Faithful source mode b' := by
  match n with
  | .content c =>
    rw [node] at h
    refine content_faithful hlength hin (hstand c ?_) hfaithful h
    simp [Node.within]
  | .comment value strip span =>
    rw [node] at h
    exact mustacheComment_faithful hfaithful h
  | .mustache tag =>
    rw [node] at h
    exact mustache_faithful hfaithful h
  | .partialCall tag =>
    rw [node] at h
    exact partialCall_faithful hfaithful h
  | .block tag ⟨body, names, chained, span⟩ other =>
    -- Each branch is a program of its own, in a frame of its own.
    have hbodyStand : Stand source (Mustache.nodesWithin body) := fun text htext =>
      hstand text (by simp [Node.within, Mustache.programWithin, htext])
    match other, block_runs h with
    | _, .inComment _ => exact appendToComment_faithful hfaithful _
    | none, .alone hdata hprogram =>
      have hidle := hin.idle hdata
      obtain ⟨hfaithful₁, hcopies⟩ := program_faithful hidle
        (fun _ => nodes_faithful body hlength hbodyStand hidle.push hfaithful.push) hprogram
      refine hfaithful₁.append fun node hnode => hcopies node ?_
      simpa [itemsOf_block] using hnode
    | some ⟨otherBody, otherNames, otherChained, otherSpan⟩, .withElse hdata hprogram hinverse =>
      have hotherStand : Stand source (Mustache.nodesWithin otherBody) := fun text htext =>
        hstand text (by simp [Node.within, Mustache.otherWithin, Mustache.programWithin, htext])
      have hidle := hin.idle hdata
      obtain ⟨hfaithful₁, hcopies⟩ := program_faithful hidle
        (fun _ => nodes_faithful body hlength hbodyStand hidle.push hfaithful.push) hprogram
      have hidle₁ := (program_idle hidle hprogram).1
      obtain ⟨hfaithful₂, hcopies'⟩ := program_faithful hidle₁
        (fun _ => nodes_faithful otherBody hlength hotherStand hidle₁.push hfaithful₁.push) hinverse
      refine hfaithful₂.append fun node hnode => ?_
      rw [itemsOf_block] at hnode
      simp only [Option.map_some, Option.getD_some, Multiset.mem_add, Multiset.mem_singleton,
        reduceCtorEq, false_or] at hnode
      exact hnode.elim (hcopies node) (hcopies' node)

/-- Statements in order. -/
theorem nodes_faithful (ns : List Node) {base : List Frame} {b b' : Builder}
    (hlength : source.length ≤ maxOffset) (hstand : Stand source (Mustache.nodesWithin ns))
    (hin : Inside base b.region b) (hfaithful : Faithful source mode b)
    (h : b.nodes source ns = .ok b') : Faithful source mode b' := by
  match ns with
  | [] =>
    rw [nodes] at h
    cases h
    exact hfaithful
  | n :: rest =>
    obtain ⟨b₁, hnode, hnodes⟩ := nodes_cons_eq_ok.mp h
    have hfirst : Stand source n.within := fun text htext =>
      hstand text (by simp [Mustache.nodesWithin, htext])
    have hrest : Stand source (Mustache.nodesWithin rest) := fun text htext =>
      hstand text (by simp [Mustache.nodesWithin, htext])
    exact nodes_faithful rest hlength hrest (node_balance n hin hnode).1
      (node_faithful n hlength hfirst hin hfaithful hnode) hnodes

end

end Builder

/-! ### Templates -/

/-- Whitespace control leaves runs of text where they stand. -/
theorem builtProgram_stand {source : Source} (mode : Mode) {program : Program}
    (hlength : source.length ≤ maxOffset)
    (h : Mustache.parseProgram (Mustache.lex source.text) = .ok program) :
    Builder.Stand source (Mustache.nodesWithin (builtProgram mode program).body) := by
  have hread := Mustache.parseProgram_standsAt hlength h
  cases mode with
  | codemod => exact hread
  | precompile =>
    intro text' htext'
    have hstrips := Mustache.stripProgram_stripsTo program
    obtain ⟨text, htext, hkept⟩ := hstrips.content_within
      (by rw [Mustache.programWithin_eq]; exact htext')
    rw [Mustache.programWithin_eq] at htext
    obtain ⟨front, back, hvalue, hstart, -, -⟩ := hkept.kept
    rw [hstart]
    exact (hread text htext).cut hvalue

theorem build_copies {source : Source} {mode : Mode} {program : Program} {t : Template}
    {warnings : List Diagnostic} (hlength : source.length ≤ maxOffset)
    (hstand : Builder.Stand source (Mustache.nodesWithin program.body))
    (h : build source mode program = .ok (t, warnings)) : Builder.Copies source mode t.body := by
  obtain ⟨block, b, hprogram, rfl, -⟩ := build_eq_ok.mp h
  have hidle := Builder.idle_start mode
  have hstart : Builder.Faithful source mode { machine := { mode } } := by
    refine ⟨rfl, by simp, fun node hnode => ?_⟩
    rw [hidle.items_eq] at hnode
    exact absurd hnode (Multiset.notMem_zero _)
  exact (Builder.program_faithful hidle
    (fun _ => Builder.nodes_faithful program.body hlength hstand hidle.push hstart.push)
    hprogram).2

/-- A text of a template covers bytes of the source, and says what they say. -/
theorem parse_texts {source : Source} {mode : Mode} {t : Template} {warnings : List Diagnostic}
    {node : TextNode} (hlength : source.length < 2 ^ 32)
    (h : parse source mode = .ok (t, warnings)) (hnode : .text node ∈ statementsWithin t.body) :
    node.span.start ≤ node.span.stop ∧ node.span.stop ≤ source.length ∧
      ∃ part, Text.slice? source.text.toList node.span.start node.span.stop = some part ∧
        (mode = .codemod ∨ '&' ∉ part → node.chars.toList = Text.foldLineBreaks part) := by
  have hlength' : source.length ≤ maxOffset := Nat.le_of_lt_succ hlength
  obtain ⟨program, hprogram, hbuild⟩ := parse_eq_ok.mp h
  have hcopies := build_copies hlength' (builtProgram_stand mode hlength' hprogram) hbuild
  -- A text in the tree is an item of it, so it was copied when its run ended.
  have hmem : Item.text node ∈ itemsOf t.body :=
    mem_itemsOf.mpr ⟨.text node, hnode, by simp [Statement.items]⟩
  obtain ⟨part, hstands, hstop, hchars⟩ := hcopies node hmem
  have hle := hstands.stop_le
  rw [hstop]
  exact ⟨Nat.le_add_right _ _, hle, part, hstands.slice?, hchars⟩

/-- A line break that is dropped, one that is folded, braces behind a backslash,
and a blank that is stripped. -/
def mixedTexts : Source :=
  ⟨"<pre>\r\né\r\\\x7b\x7bb\x7d\x7d\n\x7b\x7b!~\x7d\x7d x</pre>", ""⟩

/-- The tokens of `mixedTexts`. -/
def mixedTokens : List Mustache.Token :=
  [⟨.content "<pre>\r\né\r", ⟨0, 11⟩⟩, ⟨.content "\x7b\x7bb\x7d\x7d\n", ⟨11, 17⟩⟩,
    ⟨.comment "" ⟨false, true⟩, ⟨17, 23⟩⟩, ⟨.content " x</pre>", ⟨23, 31⟩⟩, ⟨.eof, ⟨31, 31⟩⟩]

theorem parse_texts_mixed :
    ∃ t warnings node, parse mixedTexts .precompile = .ok (t, warnings) ∧
      .text node ∈ statementsWithin t.body ∧ node.span = ⟨7, 10⟩ ∧
      node.chars.toList = Text.foldLineBreaks ['é', '\r'] := by
  have hparse : parse mixedTexts .precompile = .ok
      ({ body :=
          [.element { name := "pre" }
            [.text ⟨"é\n", ⟨7, 10⟩⟩, .text ⟨"\x7b\x7bb\x7d\x7d\n", ⟨11, 17⟩⟩,
              .mustacheComment ⟨"", ⟨17, 23⟩⟩, .text ⟨"x", ⟨24, 25⟩⟩] ⟨0, 31⟩]
         span := ⟨0, 31⟩ }, []) := by
    have hlex : Mustache.lex mixedTexts.text = mixedTokens := by decide +kernel
    have hprogram : Mustache.parseProgram mixedTokens = .ok _ := rfl
    rw [parse, hlex, hprogram]
    -- Only the texts are run; the statements are laid open before.
    show build mixedTexts .precompile
      ⟨[.content _, .content _, .comment _ _ _, .content _], _, _, _⟩ = _
    simp only [build, Builder.program, Builder.nodes, Builder.node]
    with_unfolding_all rfl
  have hnode : .text ⟨"é\n", ⟨7, 10⟩⟩ ∈ statementsWithin
      [.element { name := "pre" }
        [.text ⟨"é\n", ⟨7, 10⟩⟩, .text ⟨"\x7b\x7bb\x7d\x7d\n", ⟨11, 17⟩⟩,
          .mustacheComment ⟨"", ⟨17, 23⟩⟩, .text ⟨"x", ⟨24, 25⟩⟩] ⟨0, 31⟩] := by
    simp [statementsWithin, Statement.within]
  obtain ⟨-, -, part, hslice, hchars⟩ := parse_texts (by decide +kernel) hparse hnode
  have hpart : Text.slice? mixedTexts.text.toList 7 10 = some ['é', '\r'] := by decide +kernel
  obtain rfl : part = ['é', '\r'] := Option.some.inj (hslice.symm.trans hpart)
  exact ⟨_, _, _, hparse, hnode, rfl, hchars (.inr (by decide))⟩

end TemplateCompiler.Template
