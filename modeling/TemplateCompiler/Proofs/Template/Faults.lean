/-
Where the builder of a template finds fault.

* `Statement.Lies` — all spans of a statement lie in a text, and the names of its
  elements stand behind their brackets;
* `Builder.Lies` — the tree so far and what is still being read lie in a text, up to
  an offset;
* `Builder.observe_lies` — an event that may come keeps it so, or a fault lies in the
  text;
* `Builder.nodes_halts` — the same for the statements of a program;
* `parse_lies` — a template lies in its source, with the warnings or the fault.
-/
import TemplateCompiler.Proofs.Markup.Cuts
import TemplateCompiler.Proofs.Mustache.Faults
import TemplateCompiler.Proofs.Template.Order
import TemplateCompiler.Proofs.Template.Text

namespace TemplateCompiler.Template

open Markup (Event Machine Mode LieAll)
open Mustache (Node Content Program nodesPlaced programPlaced otherPlaced)

/-! ### Statements -/

/-- What stands in a start tag lies in a text, and its name behind its bracket. -/
structure StartTag.LiesIn (text : List Char) (tag : StartTag) (span : Span) : Prop where
  lies : span.LiesIn text
  name : span.start + Text.byteLength tag.name.toList + 1 ≤ span.stop
  parts : SpansLie text tag.spanTrees

mutual

/-- The spans of a statement lie in a text. -/
def Statement.Lies (text : List Char) : Statement → Prop
  | .mustache tag => SpansLie text [tag.spanTree]
  | .partialCall tag => SpansLie text [tag.spanTree]
  | .comment c | .mustacheComment c => c.span.LiesIn text
  | .text node => node.span.LiesIn text
  | .block tag program other =>
    SpansLie text [.node tag.span (callSpans tag.call)] ∧ blockLies text program ∧
      otherLies text other
  | .element tag children span => tag.LiesIn text span ∧ bodyLies text children

/-- The spans of statements lie in a text. -/
def bodyLies (text : List Char) : List Statement → Prop
  | [] => True
  | s :: rest => s.Lies text ∧ bodyLies text rest

/-- The spans of a branch of a block lie in a text. -/
def blockLies (text : List Char) : Block Statement → Prop
  | ⟨body, _, _, span⟩ => span.LiesIn text ∧ bodyLies text body

/-- The spans of a branch that may be missing lie in a text. -/
def otherLies (text : List Char) : Option (Block Statement) → Prop
  | none => True
  | some block => blockLies text block

end

theorem bodyLies_snoc {text : List Char} {body : List Statement} {s : Statement}
    (hbody : bodyLies text body) (hs : s.Lies text) : bodyLies text (body ++ [s]) := by
  induction body with
  | nil => exact ⟨hs, trivial⟩
  | cons first rest ih => exact ⟨hbody.1, ih hbody.2⟩

theorem StartTag.spansLie_iff {text : List Char} {tag : StartTag} :
    SpansLie text tag.spanTrees ↔ SpansLie text (tag.attributes.map Attr.spanTree) ∧
      SpansLie text (tag.modifiers.map Modifier.spanTree) ∧
        SpansLie text (tag.comments.map Comment.spanTree) := by
  rw [StartTag.spanTrees, SpansLie.append_iff, SpansLie.append_iff]

/-! ### What is open -/

/-- What is in an open frame lies in a text, up to an offset. -/
def Frame.Lies (text : List Char) (n : Nat) : Frame → Prop
  | .block body => bodyLies text body
  | .element tag children span => tag.LiesIn text span ∧ span.stop ≤ n ∧ bodyLies text children

/-- A tag that is being read lies in a text, up to an offset. -/
def PendingTag.Lies (text : List Char) (n : Nat) : PendingTag → Prop
  | .opening tag start => Text.Cut text start ∧
      start + Text.byteLength tag.name.toList + 1 ≤ n ∧ SpansLie text tag.spanTrees
  | .closing _ start => Text.Cut text start ∧ start + 1 ≤ n

/-- An attribute that is being read lies in a text, up to an offset. -/
structure PendingAttr.Lies (text : List Char) (n : Nat) (a : PendingAttr) : Prop where
  start : Text.Cut text a.start
  name : a.start + Text.byteLength a.name.toList ≤ n
  valueStart : Text.Cut text a.valueStart
  value_le : a.valueStart ≤ n
  parts : SpansLie text (a.parts.map ConcatPart.spanTree)
  text : ∀ t, a.text = some t → Text.Cut text t.span.start

section

variable {text : List Char} {n n' : Nat}

theorem Frame.Lies.mono {f : Frame} (h : f.Lies text n) (hle : n ≤ n') : f.Lies text n' := by
  cases f with
  | block body => exact h
  | element tag children span => exact ⟨h.1, Nat.le_trans h.2.1 hle, h.2.2⟩

theorem PendingTag.Lies.mono {t : PendingTag} (h : t.Lies text n) (hle : n ≤ n') :
    t.Lies text n' := by
  cases t with
  | opening tag start => exact ⟨h.1, Nat.le_trans h.2.1 hle, h.2.2⟩
  | closing name start => exact ⟨h.1, Nat.le_trans h.2 hle⟩

theorem PendingAttr.Lies.mono {a : PendingAttr} (h : a.Lies text n) (hle : n ≤ n') :
    a.Lies text n' :=
  ⟨h.start, Nat.le_trans h.name hle, h.valueStart, Nat.le_trans h.value_le hle, h.parts, h.text⟩

theorem Frame.Lies.push {f : Frame} {s : Statement} (h : f.Lies text n) (hs : s.Lies text) :
    (f.push s).Lies text n := by
  cases f with
  | block body => exact bodyLies_snoc h hs
  | element tag children span => exact ⟨h.1, h.2.1, bodyLies_snoc h.2.2 hs⟩

/-- The text that is being read becomes a part of the value. -/
theorem PendingAttr.Lies.finishText {a : PendingAttr} {stop : Nat} (h : a.Lies text n)
    (hstop : stop ≤ Text.byteLength text) : (a.finishText stop).Lies text n := by
  rw [PendingAttr.finishText]
  split
  · next t ht =>
    have hcut := h.text t ht
    refine ⟨h.start, h.name, h.valueStart, h.value_le, ?_, fun t ht => by cases ht⟩
    rw [List.map_append]
    exact SpansLie.append_iff.mpr ⟨h.parts, SpansLie.node_iff.mpr
      ⟨⟨hcut, Nat.le_max_right _ _, Nat.max_le.mpr ⟨hstop, hcut.le⟩⟩, .nil⟩⟩
  · exact h

/-- A character of a value joins its text, which may begin with it. -/
theorem PendingAttr.Lies.pushValue {a : PendingAttr} {pos : Nat} (h : a.Lies text n)
    (hpos : Text.Cut text pos) (c : Char) : (a.pushValue c pos).Lies text n := by
  rw [PendingAttr.pushValue]
  split
  · next t ht =>
    refine ⟨h.start, h.name, h.valueStart, h.value_le, h.parts, fun t' ht' => ?_⟩
    obtain rfl := Option.some.inj ht'
    exact h.text t ht
  · refine ⟨h.start, h.name, h.valueStart, h.value_le, h.parts, fun t' ht' => ?_⟩
    obtain rfl := Option.some.inj ht'
    exact hpos

/-- The value of an attribute lies in the text if its parts do. -/
theorem attrValue_lies {a : PendingAttr} {span : Span} (hspan : span.LiesIn text)
    (hparts : SpansLie text (a.parts.map ConcatPart.spanTree)) :
    Fault.OrElse text (fun value => SpansLie text [value.spanTree]) (attrValue a span) := by
  have hleaf : SpansLie text [.node span []] := SpansLie.node_iff.mpr ⟨hspan, .nil⟩
  -- A mustache that is the whole value is the first of the parts.
  have hfirst : ∀ {tag : MustacheTag} {rest : List ConcatPart}, a.parts = .mustache tag :: rest →
      SpansLie text [(AttrValue.mustache tag).spanTree] := by
    intro tag rest hcons
    rw [hcons] at hparts
    exact (SpansLie.cons_iff.mp hparts).1
  rw [attrValue]
  refine .ite (fun _ => ?_) fun _ => ?_
  · refine .ite (fun _ => SpansLie.node_iff.mpr ⟨hspan, hparts⟩) fun _ => ?_
    simp only
    split
    · next hcons => exact hfirst hcons
    · next hcons => exact .ite (fun _ => hfirst hcons) fun _ => .ofStructure hspan
    · exact .ofStructure hspan
  · split
    · exact hleaf
    · next hcons => exact hfirst hcons
    · exact hleaf

/-- Taking block parameters out of a start tag leaves the rest of it. -/
theorem extractBlockParams_lies {tag kept : StartTag} {span : Span}
    (h : extractBlockParams tag = .ok kept) (hlies : tag.LiesIn text span) :
    kept.LiesIn text span := by
  rcases extractBlockParams_cases h with rfl | ⟨count, params, -, rfl⟩
  · exact hlies
  · obtain ⟨hspan, hname, hparts⟩ := hlies
    obtain ⟨hattributes, hmore⟩ := StartTag.spansLie_iff.mp hparts
    refine ⟨hspan, hname, StartTag.spansLie_iff.mpr ⟨?_, hmore⟩⟩
    rw [← List.take_append_drop count tag.attributes, List.map_append, SpansLie.append_iff]
      at hattributes
    exact hattributes.1

end

namespace Builder

/-! ### Events -/

/-- The labels of warnings lie in a text. -/
def WarningsLie (text : List Char) (warnings : List Diagnostic) : Prop :=
  ∀ warning ∈ warnings, ∀ label ∈ warning.labels, label.span.LiesIn text

/-- The tree so far and what is still being read lie in a text, up to an offset. -/
structure Lies (text : List Char) (n : Nat) (b : Builder) : Prop where
  frames : ∀ f ∈ b.frames, f.Lies text n
  run : ∀ t, b.text = some t → Text.Cut text t.span.start ∧ t.span.start ≤ n
  comment : ∀ c, b.comment = some c → Text.Cut text c.span.start ∧ c.span.start ≤ n
  tag : ∀ t, b.tag = some t → t.Lies text n
  attr : ∀ a, b.attr = some a → a.Lies text n
  warnings : WarningsLie text b.warnings

variable {source : Source} {text : List Char} {n n' : Nat} {b : Builder}

theorem Lies.mono (h : b.Lies text n) (hle : n ≤ n') : b.Lies text n' where
  frames f hf := (h.frames f hf).mono hle
  run t ht := ⟨(h.run t ht).1, Nat.le_trans (h.run t ht).2 hle⟩
  comment c hc := ⟨(h.comment c hc).1, Nat.le_trans (h.comment c hc).2 hle⟩
  tag t ht := (h.tag t ht).mono hle
  attr a ha := (h.attr a ha).mono hle
  warnings := h.warnings

theorem Lies.withMachine (h : b.Lies text n) (machine : Machine) :
    Lies text n { b with machine } :=
  ⟨h.frames, h.run, h.comment, h.tag, h.attr, h.warnings⟩

/-- A statement joins the innermost frame. -/
theorem Lies.append {s : Statement} (h : b.Lies text n) (hs : s.Lies text) :
    (b.append s).Lies text n := by
  rw [Builder.append]
  split
  · next f rest hframes =>
    have hall := h.frames
    rw [hframes] at hall
    obtain ⟨hfirst, hrest⟩ := List.forall_mem_cons.mp hall
    exact ⟨List.forall_mem_cons.mpr ⟨hfirst.push hs, hrest⟩, h.run, h.comment, h.tag, h.attr,
      h.warnings⟩
  · exact h

theorem Lies.push {f : Frame} (h : b.Lies text n) (hf : f.Lies text n) : (b.push f).Lies text n :=
  ⟨List.forall_mem_cons.mpr ⟨hf, h.frames⟩, h.run, h.comment, h.tag, h.attr, h.warnings⟩

/-- A change to the tag that is being read. -/
theorem Lies.onTag {f : PendingTag → PendingTag} (h : b.Lies text n) (hle : n ≤ n')
    (hf : ∀ t : PendingTag, t.Lies text n → (f t).Lies text n') :
    Lies text n' { b with tag := b.tag.map f } := by
  have hmono := h.mono hle
  refine ⟨hmono.frames, hmono.run, hmono.comment, fun t ht => ?_, hmono.attr, hmono.warnings⟩
  obtain ⟨old, hold, rfl⟩ := Option.map_eq_some_iff.mp ht
  exact hf old (h.tag old hold)

/-- A change to the attribute that is being read. -/
theorem Lies.onAttr {f : PendingAttr → PendingAttr} (h : b.Lies text n) (hle : n ≤ n')
    (hf : ∀ a : PendingAttr, a.Lies text n → (f a).Lies text n') :
    Lies text n' { b with attr := b.attr.map f } := by
  have hmono := h.mono hle
  refine ⟨hmono.frames, hmono.run, hmono.comment, hmono.tag, fun a ha => ?_, hmono.warnings⟩
  obtain ⟨old, hold, rfl⟩ := Option.map_eq_some_iff.mp ha
  exact hf old (h.attr old hold)

/-- A start tag ends: the element is complete, or open from now on. -/
theorem finishStartTag_lies {tag : StartTag} {span : Span} (h : b.Lies text n)
    (htag : tag.LiesIn text span) (hstop : span.stop ≤ n) :
    Fault.OrElse text (Lies text n) (b.finishStartTag tag span) := by
  rw [finishStartTag]
  refine .ite (fun _ => .ofStructure htag.lies) fun _ => ?_
  split
  · exact .ofStructure htag.lies
  · next kept hkept =>
    have hkept := extractBlockParams_lies hkept htag
    refine .ite (fun _ => h.append ?_) fun _ => h.push ⟨hkept, hstop, trivial⟩
    rw [Statement.Lies]
    exact ⟨hkept, trivial⟩

/-- An end tag ends, and with it the innermost element. -/
theorem finishEndTag_lies {name : String} {span : Span} (h : b.Lies text n)
    (hspan : span.LiesIn text) (hstop : n ≤ span.stop) :
    Fault.OrElse text (Lies text n) (b.finishEndTag source name span) := by
  rw [finishEndTag]
  refine .ite (fun _ => .ofStructure hspan) fun _ => ?_
  split
  · next tag children elementSpan rest hframes =>
    have hall := h.frames
    rw [hframes] at hall
    obtain ⟨⟨htag, hle, hchildren⟩, hrest⟩ := List.forall_mem_cons.mp hall
    refine .ite (fun _ => ?_) fun _ => ⟨hspan, ?_⟩
    · have hb : Lies text n { b with frames := rest } :=
        ⟨hrest, h.run, h.comment, h.tag, h.attr, h.warnings⟩
      refine hb.append ?_
      obtain ⟨⟨hcut, hstart, -⟩, hname, hparts⟩ := htag
      have hstop' := Nat.le_trans hle hstop
      rw [Statement.Lies]
      exact ⟨⟨⟨hcut, Nat.le_trans hstart hstop', hspan.stop_le⟩, Nat.le_trans hname hstop', hparts⟩,
        hchildren⟩
    · simpa [Fault.withRelated, Fault.ofStructure] using htag.lies
  · exact .ofStructure hspan

/-- A tag ends at a position. -/
theorem finishTag_lies {pos : Nat} (h : b.Lies text n) (hpos : n ≤ pos) (hcut : Text.Cut text pos) :
    Fault.OrElse text (Lies text pos) (b.finishTag source pos) := by
  have hmono := h.mono hpos
  have hdone : Lies text pos { b with tag := none } :=
    ⟨hmono.frames, hmono.run, hmono.comment, fun t ht => (by cases ht), hmono.attr,
      hmono.warnings⟩
  rw [finishTag]
  split
  · next tag start htag =>
    obtain ⟨hstart, hname, hparts⟩ := hmono.tag _ htag
    have hspan : Span.LiesIn text ⟨start, pos⟩ :=
      ⟨hstart, by show start ≤ pos; omega, hcut.le⟩
    exact finishStartTag_lies hdone ⟨hspan, hname, hparts⟩ (Nat.le_refl _)
  · next name start htag =>
    obtain ⟨hstart, hle⟩ := hmono.tag _ htag
    exact finishEndTag_lies hdone ⟨hstart, Nat.le_of_succ_le hle, hcut.le⟩ (Nat.le_refl _)
  · exact hmono

/-- An attribute ends, and joins its start tag. -/
theorem finishAttr_lies {pos : Nat} (h : b.Lies text n) (hpos : n ≤ pos)
    (hcut : Text.Cut text pos) :
    Fault.OrElse text (Lies text pos) (b.finishAttr pos) := by
  have hmono := h.mono hpos
  rw [finishAttr]
  split
  · exact hmono
  next pending hattr =>
  -- The last run of text ends before the closing quote.
  have hlies :
      (pending.finishText (if pending.quoted then pos - 1 else pos)).Lies text pos := by
    refine (hmono.attr pending hattr).finishText ?_
    have hle := hcut.le
    split <;> omega
  simp only
  generalize pending.finishText (if pending.quoted then pos - 1 else pos) = a at hlies
  have hdone : ∀ tag : Option PendingTag, (∀ t, tag = some t → t.Lies text pos) →
      Lies text pos { b with attr := none, tag } := fun tag htag =>
    ⟨hmono.frames, hmono.run, hmono.comment, htag, fun a ha => (by cases ha), hmono.warnings⟩
  split
  · exact hdone _ hmono.tag
  · next name start htag =>
    obtain ⟨hstart, hle⟩ := hmono.tag _ htag
    exact .ofStructure ⟨hstart, Nat.le_of_succ_le hle, hcut.le⟩
  · next tag start htag =>
    have hstart := Nat.le_trans (Nat.le_add_right _ _) hlies.name
    refine .ite (fun _ => .ofStructure ?_) fun _ => ?_
    · exact ⟨hlies.start, Nat.le_add_right _ _, Nat.le_trans hlies.name hcut.le⟩
    · refine (attrValue_lies ⟨hlies.valueStart, hlies.value_le, hcut.le⟩ hlies.parts).bind
        fun value hvalue => hdone _ fun t ht => ?_
      obtain rfl := Option.some.inj ht
      obtain ⟨htagStart, hname, hparts⟩ := hmono.tag _ htag
      refine ⟨htagStart, hname, ?_⟩
      obtain ⟨hattributes, hmore⟩ := StartTag.spansLie_iff.mp hparts
      refine StartTag.spansLie_iff.mpr ⟨?_, hmore⟩
      rw [List.map_append]
      exact SpansLie.append_iff.mpr ⟨hattributes,
        SpansLie.node_iff.mpr ⟨⟨hlies.start, hstart, hcut.le⟩, hvalue⟩⟩

theorem byteLength_push (name : String) (c : Char) :
    Text.byteLength (name.push c).toList = Text.byteLength name.toList + c.utf8Size := by
  rw [String.toList_push, Text.byteLength_append, Text.byteLength_cons, Text.byteLength_nil,
    Nat.add_zero]

/-- An event that may come leaves the tree in the text, or finds a fault there. -/
theorem observe_lies (source : Source) {e : Event} (h : b.Lies text n) (he : e.Lies text n) :
    Fault.OrElse text (Lies text (e.clock n)) (b.observe source e) := by
  cases e with
  | reset =>
    exact ⟨h.frames, fun t ht => (by cases ht), fun c hc => (by cases hc),
      fun t ht => (by cases ht), fun a ha => (by cases ha), h.warnings⟩
  | tagOpen pos => exact h.mono he.1
  | beginData pos =>
    have hmono := h.mono he.1
    refine ⟨hmono.frames, fun t ht => ?_, hmono.comment, hmono.tag, hmono.attr, hmono.warnings⟩
    obtain rfl := Option.some.inj ht
    exact ⟨he.2, Nat.le_refl _⟩
  | data c =>
    refine ⟨h.frames, fun t ht => ?_, h.comment, h.tag, h.attr, h.warnings⟩
    obtain ⟨old, hold, rfl⟩ := Option.map_eq_some_iff.mp ht
    exact h.run old hold
  | finishData pos =>
    have hmono := h.mono he.1
    rw [observe]
    split
    · next t ht =>
      obtain ⟨hcut, hle⟩ := hmono.run t ht
      have hdone : Lies text pos { b with text := none } :=
        ⟨hmono.frames, fun t ht => (by cases ht), hmono.comment, hmono.tag, hmono.attr,
          hmono.warnings⟩
      refine hdone.append ?_
      rw [Statement.Lies]
      exact ⟨hcut, hle, he.2.le⟩
    · exact hmono
  | beginComment pos =>
    refine ⟨h.frames, h.run, fun c hc => ?_, h.tag, h.attr, h.warnings⟩
    obtain rfl := Option.some.inj hc
    exact ⟨he.2, Nat.le_of_succ_le he.1⟩
  | commentData c =>
    refine ⟨h.frames, h.run, fun t ht => ?_, h.tag, h.attr, h.warnings⟩
    obtain ⟨old, hold, rfl⟩ := Option.map_eq_some_iff.mp ht
    exact h.comment old hold
  | finishComment pos =>
    have hmono := h.mono he.1
    rw [observe]
    split
    · next c hc =>
      obtain ⟨hcut, hle⟩ := hmono.comment c hc
      have hdone : Lies text pos { b with comment := none } :=
        ⟨hmono.frames, hmono.run, fun c hc => (by cases hc), hmono.tag, hmono.attr,
          hmono.warnings⟩
      refine hdone.append ?_
      rw [Statement.Lies]
      exact ⟨hcut, hle, he.2.le⟩
    · exact hmono
  | beginStartTag pos =>
    refine ⟨h.frames, h.run, h.comment, fun t ht => ?_, h.attr, h.warnings⟩
    obtain rfl := Option.some.inj ht
    exact ⟨he.2, he.1, .nil⟩
  | beginEndTag pos =>
    refine ⟨h.frames, h.run, h.comment, fun t ht => ?_, h.attr, h.warnings⟩
    obtain rfl := Option.some.inj ht
    exact ⟨he.2, he.1⟩
  -- Names grow by what is read, so they are no longer than the text.
  | tagName c =>
    refine h.onTag (Nat.le_add_right _ _) fun t ht => ?_
    cases t with
    | opening tag start =>
      obtain ⟨hcut, hle, hparts⟩ := ht
      refine ⟨hcut, ?_, hparts⟩
      rw [byteLength_push]
      show start + (_ + c.utf8Size) + 1 ≤ n + c.utf8Size
      omega
    | closing name start => exact ⟨ht.1, Nat.le_trans ht.2 (Nat.le_add_right _ _)⟩
  | selfClosing =>
    refine h.onTag (Nat.le_refl _) fun t ht => ?_
    cases t <;> exact ht
  | finishTag pos => exact finishTag_lies h he.1 he.2
  | beginAttribute pos =>
    have hmono := h.mono he.1
    refine ⟨hmono.frames, hmono.run, hmono.comment, hmono.tag, fun a ha => ?_, hmono.warnings⟩
    obtain rfl := Option.some.inj ha
    exact ⟨he.2, Nat.le_refl _, he.2, Nat.le_refl _, .nil, fun t ht => by cases ht⟩
  | attributeName c =>
    refine h.onAttr (Nat.le_add_right _ _) fun a ha => ?_
    obtain ⟨hstart, hname, hvalue, hle, hparts, htext⟩ := ha
    refine ⟨hstart, ?_, hvalue, Nat.le_trans hle (Nat.le_add_right _ _), hparts, htext⟩
    rw [byteLength_push]
    show a.start + (_ + c.utf8Size) ≤ n + c.utf8Size
    omega
  | beginAttributeValue quoted pos =>
    refine h.onAttr he.1 fun a ha => ?_
    exact ⟨ha.start, Nat.le_trans ha.name he.1, he.2, Nat.le_refl _, ha.parts,
      fun t ht => by cases ht⟩
  | attributeValue c pos => exact h.onAttr he.1 fun a ha => (ha.mono he.1).pushValue he.2 c
  | finishAttributeValue pos => exact finishAttr_lies h he.1 he.2
  | problem problem pos =>
    have hmono := h.mono he.1
    refine ⟨hmono.frames, hmono.run, hmono.comment, hmono.tag, hmono.attr, ?_⟩
    refine List.forall_mem_append.mpr ⟨hmono.warnings, List.forall_mem_singleton.mpr ?_⟩
    exact List.forall_mem_singleton.mpr (.point he.2)

/-- Events that may come one after the other. -/
theorem observeAll_lies (source : Source) {events : List Event} {hi : Nat} (h : b.Lies text n)
    (hevents : LieAll text n events hi) :
    Fault.OrElse text (Lies text hi) (b.observeAll source events) := by
  induction events generalizing b n with
  | nil => exact h.mono hevents
  | cons e rest ih =>
    rw [observeAll, List.foldlM_cons]
    exact (observe_lies source h hevents.1).bind fun b₁ h₁ => ih h₁ hevents.2

/-! ### Runs of text -/

/-- What is left of a text after a step stands where the reader does. -/
theorem step_standsAt {m : Machine} {c : Char} {rest : List Char}
    (h : Text.StandsAt text (c :: rest) m.offset) :
    Text.StandsAt text (m.step c rest).rest (m.step c rest).machine.offset := by
  obtain ⟨piece, hpiece, hoffset⟩ := (m.step_reads c rest).piece
  rw [hoffset]
  have hcut : c :: rest = piece ++ (m.step c rest).rest ++ [] := by rw [hpiece, List.append_nil]
  exact h.cut hcut

theorem pos_cut {m : Machine} {input : List Char} (hlength : Text.byteLength text ≤ maxOffset)
    (h : Text.StandsAt text input m.offset) : m.pos = m.offset ∧ Text.Cut text m.pos := by
  have hpos : m.pos = m.offset := Nat.min_eq_left (Nat.le_trans h.start_cut.le hlength)
  exact ⟨hpos, hpos ▸ h.start_cut⟩

/-- A piece of text is read to its end, with what it adds to the tree. -/
theorem read_lies (source : Source) {m : Machine} {input : List Char}
    (hlength : Text.byteLength text ≤ maxOffset) (hstands : Text.StandsAt text input m.offset)
    (hopened : m.Opened text m.pos) (h : b.Lies text m.pos) :
    Fault.OrElse text (Lies text (m.read input).1.pos) (b.observeAll source (m.read input).2) ∧
      (m.read input).1.Opened text (m.read input).1.pos ∧
      Text.Cut text (m.read input).1.pos := by
  fun_induction Markup.Machine.read m input generalizing b
  case case1 m => exact ⟨h, hopened, (pos_cut hlength hstands).2⟩
  case case2 m c rest next result ih =>
    have hticks := Machine.step_ticks hlength hstands hopened
    have hnext := step_standsAt hstands
    refine ⟨?_, ih hnext hticks.opened (h.mono ?_) |>.2⟩
    · rw [observeAll, List.foldlM_append]
      exact (observeAll_lies source h hticks.lies).bind fun b₁ h₁ => (ih hnext hticks.opened h₁).1
    · obtain ⟨piece, -, hoffset⟩ := (m.step_reads c rest).piece
      have hpos := (pos_cut hlength hstands).1
      have hpos' := (pos_cut hlength hnext).1
      show m.pos ≤ (m.step c rest).machine.pos
      omega

/-! ### Statements of a program -/

/-- A builder between two statements of a program. -/
structure Halts (text : List Char) (n : Nat) (b : Builder) : Prop where
  lies : b.Lies text n
  opened : b.machine.Opened text n

theorem Halts.mono (h : b.Halts text n) (hle : n ≤ n') : b.Halts text n' :=
  ⟨h.lies.mono hle, h.opened.mono hle⟩

theorem Halts.append {s : Statement} (h : b.Halts text n) (hs : s.Lies text) :
    (b.append s).Halts text n :=
  ⟨h.lies.append hs, by rw [append_machine]; exact h.opened⟩

/-- The reader goes on in another state of the tag or comment that is open. -/
theorem Halts.goTo {state : Markup.State} (h : b.Halts text n)
    (hdata : b.machine.state.isData = false) : (b.goTo state).Halts text n :=
  ⟨h.lies.withMachine _, fun _ => h.opened hdata⟩

/-- A run of text is read to its end, and closed. -/
theorem content_halts {c : Content} (hlength : Text.byteLength text ≤ maxOffset)
    (h : b.Halts text n) (hstands : Text.StandsAt text c.value c.valueStart)
    (hplaced : c.Placed) (hle : n ≤ c.span.start) :
    Fault.OrElse text (Halts text c.span.stop) (b.content source c) := by
  obtain ⟨hstart, hstop⟩ := hplaced
  have hmono := h.mono (Nat.le_trans hle hstart)
  rw [content]
  -- The reader starts anew where the run begins in the source.
  generalize hm : b.machine.moveTo c.valueStart = m
  have hstands' : Text.StandsAt text c.value m.offset := by
    rw [← hm]
    exact hstands
  have hpos : min c.valueStart maxOffset = m.pos := by
    rw [← hm]
    rfl
  have hopened : m.Opened text m.pos := by
    rw [← hpos, ← hm]
    exact hmono.opened
  rw [hpos] at hmono
  have hend : (m.read c.value).1.pos ≤ c.span.stop := by
    rw [Machine.pos, Machine.read_offset, ← hm]
    exact hstop
  obtain ⟨hread, hopened', hcut⟩ := read_lies source
    (b := { b with machine := (m.read c.value).1.flush.1 }) hlength hstands' hopened
    (hmono.lies.withMachine _)
  have hall := hread.bind fun b₁ h₁ =>
    observeAll_lies source h₁ (Machine.flush_lieAll hcut)
  simp only [observeAll, ← List.foldlM_append] at hall ⊢
  refine (hall.and fun b' => observeAll_machine).imp fun b' hb' => ?_
  obtain ⟨hlies, hmachine⟩ := hb'
  exact Halts.mono ⟨hlies, by rw [hmachine]; exact Machine.flush_opened hopened'⟩ hend

/-- A tag in a comment of the markup becomes part of its text. -/
theorem Halts.appendToComment {span : Span} (h : b.Halts text n)
    (hcomment : b.machine.state.isComment = true) :
    (b.appendToComment source span).Halts text n := by
  rw [Builder.appendToComment]
  have hlies := h.lies
  refine Halts.goTo (b := { b with comment := _ }) ⟨⟨hlies.frames, hlies.run, fun c hc => ?_,
    hlies.tag, hlies.attr, hlies.warnings⟩, h.opened⟩ (isData_eq_false_of_isComment hcomment)
  obtain ⟨old, hold, rfl⟩ := Option.map_eq_some_iff.mp hc
  exact hlies.comment old hold

/-- A mustache becomes a modifier of the start tag. -/
theorem addModifier_lies {m : MustacheTag} (h : b.Lies text n) (hm : SpansLie text [m.spanTree]) :
    Fault.OrElse text (fun b' => b'.Lies text n ∧ b'.machine = b.machine) (b.addModifier m) := by
  rw [addModifier]
  split
  · next tag start htag =>
    split
    · exact .ofStructure hm.lies
    · refine ⟨⟨h.frames, h.run, h.comment, fun t ht => ?_, h.attr, h.warnings⟩, rfl⟩
      obtain rfl := Option.some.inj ht
      obtain ⟨hcut, hname, hparts⟩ := h.tag _ htag
      refine ⟨hcut, hname, ?_⟩
      obtain ⟨hattributes, hmodifiers, hcomments⟩ := StartTag.spansLie_iff.mp hparts
      refine StartTag.spansLie_iff.mpr ⟨hattributes, ?_, hcomments⟩
      rw [List.map_append]
      exact SpansLie.append_iff.mpr ⟨hmodifiers, hm⟩
  · exact ⟨h, rfl⟩

/-- A mustache becomes a part of the attribute value. -/
theorem addPart_lies {m : MustacheTag} (h : b.Lies text n) (hm : SpansLie text [m.spanTree]) :
    (b.addPart m).Lies text n := by
  refine h.onAttr (Nat.le_refl _) fun a ha => ?_
  have hlies := ha.finishText hm.lies.cut.le
  refine ⟨hlies.start, hlies.name, hlies.valueStart, hlies.value_le, ?_, hlies.text⟩
  rw [List.map_append]
  exact SpansLie.append_iff.mpr ⟨hlies.parts, hm⟩

/-- A mustache is placed where the reader is. -/
theorem mustache_halts {m : MustacheTag} (h : b.Halts text n) (hm : SpansLie text [m.spanTree])
    (hle : n ≤ m.span.start) :
    Fault.OrElse text (Halts text m.span.stop) (b.mustache source m) := by
  have hspan : m.span.LiesIn text := hm.lies
  have hstart := h.mono hle
  have hstop := hstart.mono hspan.start_le
  -- A modifier, after which the reader goes on in the same tag.
  have hmodifier : ∀ {b₁ : Builder}, b₁.Lies text m.span.stop → b₁.machine = b.machine →
      b.machine.state.isData = false → Fault.OrElse text (Halts text m.span.stop) (do
        let b ← b₁.addModifier m
        return b.goTo .beforeAttributeName) := by
    intro b₁ h₁ hmachine hdata
    refine (addModifier_lies h₁ hm).bind ?_
    rintro b₂ ⟨h₂, hmachine₂⟩
    have hmachine' := hmachine₂.trans hmachine
    exact Halts.goTo ⟨h₂, by rw [hmachine']; exact hstop.opened⟩ (by rw [hmachine']; exact hdata)
  have hname : b.machine.state.isData = false → Fault.OrElse text (Halts text m.span.stop) (do
      let b ← b.observeAll source
        [.beginAttributeValue false m.span.start, .finishAttributeValue m.span.start]
      let b ← b.addModifier m
      return b.goTo .beforeAttributeName) := by
    intro hdata
    have hevents : LieAll text m.span.start
        [.beginAttributeValue false m.span.start, .finishAttributeValue m.span.start]
        m.span.stop :=
      ⟨⟨Nat.le_refl _, hspan.cut⟩, ⟨Nat.le_refl _, hspan.cut⟩, hspan.start_le⟩
    have hobserved := (observeAll_lies source hstart.lies hevents).and
      fun b' => observeAll_machine
    refine hobserved.bind ?_
    rintro b₁ ⟨h₁, hmachine⟩
    exact hmodifier h₁ hmachine hdata
  rw [mustache]
  refine .ite (fun hcomment => hstop.appendToComment hcomment) fun _ => ?_
  refine .ite (fun _ => .ofStructure hspan) fun _ => ?_
  simp only
  split
  · exact .ofStructure hspan
  · exact .ofStructure hspan
  · exact .ofStructure hspan
  · exact .ofStructure hspan
  · refine (addModifier_lies hstop.lies hm).imp ?_
    rintro b' ⟨h', hmachine⟩
    exact ⟨h', by rw [hmachine]; exact hstop.opened⟩
  · next hstate => exact hname (by rw [hstate]; rfl)
  · next hstate => exact hname (by rw [hstate]; rfl)
  · next hstate => exact hmodifier hstop.lies rfl (by rw [hstate]; rfl)
  · next hstate =>
    have hevent : Event.Lies text m.span.start (.beginAttributeValue false m.span.start) :=
      ⟨Nat.le_refl _, hspan.cut⟩
    have hobserved := (observe_lies source hstart.lies hevent).and
      fun b' => observe_machine
    refine hobserved.bind ?_
    rintro b₁ ⟨h₁, hmachine⟩
    have hmachine' : (b₁.addPart m).machine = b.machine := hmachine
    exact Halts.goTo ⟨addPart_lies (h₁.mono hspan.start_le) hm,
      by rw [hmachine']; exact hstop.opened⟩ (by rw [hmachine', hstate]; rfl)
  · exact ⟨addPart_lies hstop.lies hm, hstop.opened⟩
  · exact ⟨addPart_lies hstop.lies hm, hstop.opened⟩
  · exact ⟨addPart_lies hstop.lies hm, hstop.opened⟩
  · exact hstop.append (by rw [Statement.Lies]; exact hm)

/-- A comment in braces is placed where the reader is. -/
theorem mustacheComment_halts {c : Comment} (h : b.Halts text n) (hspan : c.span.LiesIn text)
    (hle : n ≤ c.span.start) :
    Fault.OrElse text (Halts text c.span.stop) (b.mustacheComment source c) := by
  have hstop := h.mono (Nat.le_trans hle hspan.start_le)
  rw [mustacheComment]
  refine .ite (fun hcomment => hstop.appendToComment hcomment) fun _ => ?_
  refine .ite (fun _ => hstop.append (by rw [Statement.Lies]; exact hspan)) fun _ => ?_
  have hnote : let note : StartTag → StartTag := fun t => { t with comments := t.comments ++ [c] }
      Halts text c.span.stop { b with tag := b.tag.map (·.onStartTag note) } := by
    refine ⟨hstop.lies.onTag (Nat.le_refl _) fun t ht => ?_, hstop.opened⟩
    cases t with
    | closing name start => exact ht
    | opening tag start =>
      obtain ⟨hcut, hname, hparts⟩ := ht
      refine ⟨hcut, hname, ?_⟩
      obtain ⟨hattributes, hmodifiers, hcomments⟩ := StartTag.spansLie_iff.mp hparts
      refine StartTag.spansLie_iff.mpr ⟨hattributes, hmodifiers, ?_⟩
      rw [List.map_append]
      exact SpansLie.append_iff.mpr ⟨hcomments, SpansLie.node_iff.mpr ⟨hspan, .nil⟩⟩
  split
  · exact hnote
  · exact hnote
  · exact .ofStructure hspan

/-- A partial is placed where the reader is. -/
theorem partialCall_halts {p : PartialTag} (h : b.Halts text n) (hp : SpansLie text [p.spanTree])
    (hle : n ≤ p.span.start) :
    Fault.OrElse text (Halts text p.span.stop) (b.partialCall source p) := by
  have hspan : p.span.LiesIn text := hp.lies
  have hstop := h.mono (Nat.le_trans hle hspan.start_le)
  rw [partialCall]
  refine .ite (fun hcomment => hstop.appendToComment hcomment) fun _ => ?_
  refine .ite (fun _ => hstop.append (by rw [Statement.Lies]; exact hp)) fun _ => ?_
  exact .ofStructure hspan

/-- A program ends with nothing left open in it. -/
theorem endProgram_halts {names : List String} {chained : Bool} {span : Span}
    (h : b.Halts text n) (hspan : span.LiesIn text) (hstop : Text.Cut text span.stop) :
    Fault.OrElse text (fun result => blockLies text result.1 ∧ result.2.Halts text n)
      (b.endProgram names chained span) := by
  have hclosed : Fault.OrElse text (fun _ => True) (b.checkClosed span.stop) := by
    rw [checkClosed]
    exact .ite (fun _ => trivial) fun _ => .ofStructure (.point hstop)
  -- What is still open is a fault at its own place; else the body is taken off.
  have hpop : Fault.OrElse text (fun result => bodyLies text result.1 ∧ result.2.Halts text n)
      (b.popBlock span) := by
    have hlies := h.lies
    have hframes := hlies.frames
    rw [popBlock]
    split
    · next body rest hcons =>
      rw [hcons] at hframes
      obtain ⟨hbody, hrest⟩ := List.forall_mem_cons.mp hframes
      exact ⟨hbody, ⟨hrest, hlies.run, hlies.comment, hlies.tag, hlies.attr, hlies.warnings⟩,
        h.opened⟩
    · next tag children elementSpan rest hcons =>
      rw [hcons] at hframes
      exact .ofStructure (List.forall_mem_cons.mp hframes).1.1.lies
    · exact .ofStructure hspan
  rw [endProgram]
  refine hclosed.bind fun _ _ => hpop.bind ?_
  rintro ⟨body, b'⟩ ⟨hbody, hb'⟩
  exact ⟨⟨hspan, hbody⟩, hb'⟩

mutual

/-- A statement of a program leaves the tree in the text, or finds a fault there. -/
theorem node_halts (node : Node) {source : Source} {n : Nat} {b : Builder}
    (hlength : source.length ≤ maxOffset) (h : b.Halts source.text.toList n)
    (hle : n ≤ node.span.start) (hplaced : node.Placed) (hstand : Stand source node.within)
    (hspans : SpansLie source.text.toList [node.spanTree]) :
    Fault.OrElse source.text.toList (Halts source.text.toList node.span.stop)
      (b.node source node) := by
  match node with
  | .content c =>
    rw [Builder.node]
    rw [Node.Placed] at hplaced
    refine content_halts hlength h (hstand c ?_) hplaced hle
    simp [Node.within]
  | .comment value strip span =>
    rw [Builder.node]
    rw [Node.spanTree] at hspans
    exact mustacheComment_halts h hspans.lies hle
  | .mustache tag =>
    rw [Builder.node]
    rw [Node.spanTree] at hspans
    exact mustache_halts h hspans hle
  | .partialCall tag =>
    rw [Builder.node]
    rw [Node.spanTree] at hspans
    exact partialCall_halts h hspans hle
  | .block tag ⟨body, names, chained, span⟩ other =>
    rw [Builder.node]
    rw [Node.Placed] at hplaced
    obtain ⟨-, mid, hplaced, hother⟩ := hplaced
    rw [programPlaced] at hplaced
    obtain ⟨hstart, hbody, hstop⟩ := hplaced
    rw [Node.spanTree, SpansLie.node_iff, SpansLie.append_iff, SpansLie.cons_iff,
      Mustache.programSpans, SpansLie.node_iff, SpansLie.cons_iff, SpansLie.node_iff] at hspans
    obtain ⟨htag, hcall, ⟨hspan, ⟨hend, -⟩, hnodes⟩, hothers⟩ := hspans
    have hstop' := h.mono (Nat.le_trans hle htag.start_le)
    refine .ite (fun hcomment => hstop'.appendToComment hcomment) fun _ => ?_
    have hplace : Fault.OrElse source.text.toList (fun _ => True) (b.checkBlockPlace tag.span) := by
      rw [checkBlockPlace]
      exact .ite (fun _ => trivial) fun _ => .ofStructure htag
    refine hplace.bind fun _ _ => ?_
    -- Each branch is a program of its own, in a frame of its own.
    have hbodyStand : Stand source (Mustache.nodesWithin body) := fun text htext =>
      hstand text (by simp [Node.within, Mustache.programWithin, htext])
    have hpush : (b.push (.block [])).Halts source.text.toList span.start :=
      Halts.mono ⟨h.lies.push trivial, h.opened⟩ (Nat.le_trans hle hstart)
    refine (nodes_halts body hlength hpush hbody hbodyStand hnodes).bind fun b₁ h₁ => ?_
    refine (endProgram_halts h₁ hspan hend.cut).bind ?_
    rintro ⟨program, b₂⟩ ⟨hprogram, h₂⟩
    match other with
    | none =>
      rw [otherPlaced] at hother
      refine (h₂.mono (Nat.le_trans hstop hother)).append ?_
      rw [Statement.Lies]
      exact ⟨SpansLie.node_iff.mpr ⟨htag, hcall⟩, hprogram, trivial⟩
    | some ⟨otherBody, otherNames, otherChained, otherSpan⟩ =>
      rw [otherPlaced, programPlaced] at hother
      obtain ⟨hstart', hbody', hstop''⟩ := hother
      rw [Mustache.otherSpans, Mustache.programSpans, SpansLie.node_iff, SpansLie.cons_iff,
        SpansLie.node_iff] at hothers
      obtain ⟨hspan', ⟨hend', -⟩, hnodes'⟩ := hothers
      have hotherStand : Stand source (Mustache.nodesWithin otherBody) := fun text htext =>
        hstand text (by simp [Node.within, Mustache.otherWithin, Mustache.programWithin, htext])
      have hpush' : (b₂.push (.block [])).Halts source.text.toList otherSpan.start :=
        Halts.mono ⟨h₂.lies.push trivial, h₂.opened⟩ (Nat.le_trans hstop hstart')
      refine (nodes_halts otherBody hlength hpush' hbody' hotherStand hnodes').bind
        fun b₃ h₃ => ?_
      refine (endProgram_halts h₃ hspan' hend'.cut).bind ?_
      rintro ⟨inverse, b₄⟩ ⟨hinverse, h₄⟩
      refine (h₄.mono hstop'').append ?_
      rw [Statement.Lies]
      exact ⟨SpansLie.node_iff.mpr ⟨htag, hcall⟩, hprogram, hinverse⟩

/-- Statements of a program, one after the other. -/
theorem nodes_halts (ns : List Node) {source : Source} {n hi : Nat} {b : Builder}
    (hlength : source.length ≤ maxOffset) (h : b.Halts source.text.toList n)
    (hplaced : nodesPlaced n ns hi) (hstand : Stand source (Mustache.nodesWithin ns))
    (hspans : SpansLie source.text.toList (Mustache.nodeSpans ns)) :
    Fault.OrElse source.text.toList (Halts source.text.toList hi) (b.nodes source ns) := by
  match ns with
  | [] =>
    rw [nodes]
    rw [nodesPlaced] at hplaced
    exact h.mono hplaced
  | node :: rest =>
    rw [nodes]
    rw [nodesPlaced] at hplaced
    obtain ⟨hstart, hfirst, hrest⟩ := hplaced
    rw [Mustache.nodeSpans, SpansLie.cons_iff] at hspans
    have hfirstStand : Stand source node.within := fun text htext =>
      hstand text (by simp [Mustache.nodesWithin, htext])
    have hrestStand : Stand source (Mustache.nodesWithin rest) := fun text htext =>
      hstand text (by simp [Mustache.nodesWithin, htext])
    exact (node_halts node hlength h hstart hfirst hfirstStand hspans.1).bind
      fun b₁ h₁ => nodes_halts rest hlength h₁ hrest hrestStand hspans.2

end

end Builder

/-! ### Templates -/

variable {source : Source} {mode : Mode}

theorem builtProgram_spans (mode : Mode) (program : Program) :
    Mustache.programSpans (builtProgram mode program) = Mustache.programSpans program := by
  cases mode with
  | precompile => exact (Mustache.stripProgram_stripsTo program).spans
  | codemod => rfl

theorem build_lies {program : Program} {hi : Nat} (hlength : source.length ≤ maxOffset)
    (hplaced : programPlaced 0 program hi)
    (hstand : Builder.Stand source (Mustache.nodesWithin program.body))
    (hspans : SpansLie source.text.toList [Mustache.programSpans program]) :
    Fault.OrElse source.text.toList (fun result => bodyLies source.text.toList result.1.body ∧
      Builder.WarningsLie source.text.toList result.2) (build source mode program) := by
  obtain ⟨body, names, chained, span⟩ := program
  rw [Mustache.programSpans, SpansLie.node_iff, SpansLie.cons_iff, SpansLie.node_iff] at hspans
  obtain ⟨hspan, ⟨hend, -⟩, hnodes⟩ := hspans
  rw [programPlaced] at hplaced
  have hstart : Builder.Halts source.text.toList span.start
      (Builder.push { machine := { mode } } (.block [])) := by
    exact ⟨⟨List.forall_mem_singleton.mpr trivial, fun t ht => (by cases ht),
      fun c hc => (by cases hc), fun t ht => (by cases ht), fun a ha => (by cases ha),
      fun warning hwarning => (by cases hwarning)⟩, fun hstate => (by cases hstate)⟩
  rw [build, Builder.program]
  simp only [bind_assoc]
  refine (Builder.nodes_halts body hlength hstart hplaced.2.1 hstand hnodes).bind fun b₁ h₁ => ?_
  refine (Builder.endProgram_halts h₁ hspan hend.cut).bind ?_
  rintro ⟨⟨body, names, chained, span⟩, b₂⟩ ⟨hblock, h₂⟩
  exact ⟨hblock.2, h₂.lies.warnings⟩

/-- A template lies in its source, with its warnings; a fault lies there too. -/
theorem parse_lies (hlength : source.length ≤ maxOffset) :
    Fault.OrElse source.text.toList (fun result => bodyLies source.text.toList result.1.body ∧
      Builder.WarningsLie source.text.toList result.2) (parse source mode) := by
  rw [parse]
  have hprogram : Fault.OrElse source.text.toList (fun program =>
      SpansLie source.text.toList [Mustache.programSpans program] ∧
        programPlaced 0 program source.length ∧
        Builder.Stand source (Mustache.nodesWithin (builtProgram mode program).body))
      (Mustache.parseProgram (Mustache.lex source.text)) :=
    (Mustache.parseProgram_lies hlength).and fun program h =>
      ⟨Mustache.parseProgram_placed h, builtProgram_stand mode hlength h⟩
  refine hprogram.bind ?_
  rintro program ⟨hspans, hplaced, hstand⟩
  rw [← builtProgram_spans mode] at hspans
  exact build_lies hlength (builtProgram_placed mode hplaced) hstand hspans

end TemplateCompiler.Template
