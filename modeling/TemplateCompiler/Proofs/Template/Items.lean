/-
What a tree holds, item by item.

While the tree is built, texts, comments and tags in braces only move: from what
is still being read to a frame, and from an inner frame to an outer one.

* `Tag`, `Item` — what is counted;
* `itemsOf` — the items of statements, at any depth;
* `Builder.items` — the items of a tree while it is built;
* `Builder.Inside` — the builder is in a region, above frames that it leaves
  alone;
* `Builder.lostBy`, `Builder.gainedBy` — the items that an event loses and those
  that it completes;
* `observe_inside`, `observeAll_inside` — apart from these, events keep all items.

Design notes: items are counted, not listed, because the frames of a builder are
not in the order of the source.
-/
import Mathlib.Algebra.BigOperators.Group.Multiset.Basic
import Mathlib.Algebra.Order.Group.Multiset
import Mathlib.Tactic.Abel
import TemplateCompiler.Proofs.Markup.Nesting
import TemplateCompiler.Proofs.Template.Runs
import TemplateCompiler.Proofs.Template.Within

namespace TemplateCompiler.Template

open Markup (Event Region)

/-! ### Items -/

/-- A tag in braces, as far as every place in a tree keeps it. -/
inductive Tag where
  | mustache (call : Call Expr) (span : Span)
  | partialCall (tag : PartialTag)
  | block (tag : BlockTag)
  | comment (c : Comment)

/-- What is counted in a tree. -/
inductive Item where
  | text (node : TextNode)
  /-- A comment of the markup. -/
  | comment (c : Comment)
  | tag (t : Tag)

/-- The tag that an item is. -/
def Item.tag? : Item → Option Tag
  | .tag t => some t
  | _ => none

/-- The tags in a part of an attribute value. -/
def ConcatPart.tags : ConcatPart → Multiset Tag
  | .text _ => 0
  | .mustache m => {.mustache m.call m.span}

/-- The tags in parts of an attribute value. -/
def partsTags (parts : List ConcatPart) : Multiset Tag := (parts.map ConcatPart.tags).sum

/-- The tags in an attribute value. -/
def AttrValue.tags : AttrValue → Multiset Tag
  | .text _ => 0
  | .mustache m => {.mustache m.call m.span}
  | .concat parts _ => partsTags parts

/-- The tags in attributes. -/
def attrsTags (attrs : List Attr) : Multiset Tag := (attrs.map fun a => a.value.tags).sum

/-- The tags in a start tag: in its attributes, its modifiers and its comments. -/
def StartTag.tags (t : StartTag) : Multiset Tag :=
  attrsTags t.attributes + (t.modifiers.map fun m => Tag.mustache m.call m.span)
    + t.comments.map Tag.comment

/-- The items of a statement, less those of the statements in it. -/
def Statement.items : Statement → Multiset Item
  | .mustache m => {.tag (.mustache m.call m.span)}
  | .partialCall p => {.tag (.partialCall p)}
  | .block tag _ _ => {.tag (.block tag)}
  | .comment c => {.comment c}
  | .mustacheComment c => {.tag (.comment c)}
  | .text node => {.text node}
  | .element tag _ _ => tag.tags.map .tag

/-- The items of statements, at any depth. -/
def itemsOf (ss : List Statement) : Multiset Item :=
  ((statementsWithin ss).map Statement.items).sum

theorem itemsOf_append (a b : List Statement) : itemsOf (a ++ b) = itemsOf a + itemsOf b := by
  unfold itemsOf
  rw [statementsWithin_append, List.map_append, List.sum_append]

theorem mem_itemsOf {ss : List Statement} {x : Item} :
    x ∈ itemsOf ss ↔ ∃ s ∈ statementsWithin ss, x ∈ s.items := by
  rw [itemsOf]
  induction statementsWithin ss with
  | nil => simp
  | cons s rest ih => simp [ih]

theorem itemsOf_singleton {s : Statement} (hs : s.within = [s]) : itemsOf [s] = s.items := by
  rw [itemsOf, statementsWithin_singleton, hs]
  simp

theorem itemsOf_element (tag : StartTag) (children : List Statement) (span : Span) :
    itemsOf [.element tag children span] = tag.tags.map .tag + itemsOf children := by
  simp [itemsOf, statementsWithin, Statement.within, Statement.items]

theorem partsTags_append (a b : List ConcatPart) :
    partsTags (a ++ b) = partsTags a + partsTags b := by
  simp [partsTags]

theorem attrsTags_append (a b : List Attr) : attrsTags (a ++ b) = attrsTags a + attrsTags b := by
  simp [attrsTags]

/-! ### Frames -/

/-- The items of an open frame. -/
def Frame.items : Frame → Multiset Item
  | .block body => itemsOf body
  | .element tag children _ => tag.tags.map .tag + itemsOf children

/-- The items of open frames. -/
def framesItems (frames : List Frame) : Multiset Item := (frames.map Frame.items).sum

theorem framesItems_cons (f : Frame) (rest : List Frame) :
    framesItems (f :: rest) = f.items + framesItems rest := by
  simp [framesItems]

theorem Frame.push_items (s : Statement) (f : Frame) :
    (f.push s).items = f.items + itemsOf [s] := by
  cases f with
  | block body => simp only [Frame.push, Frame.items, itemsOf_append]
  | element tag children span =>
    simp only [Frame.push, Frame.items, itemsOf_append, add_assoc]

/-- Open elements in one block, above other frames. -/
inductive Over (base : List Frame) : List Frame → Prop
  | block {body : List Statement} : Over base (.block body :: base)
  | element {tag : StartTag} {children : List Statement} {span : Span} {rest : List Frame}
    (hrest : Over base rest) : Over base (.element tag children span :: rest)

theorem Over.push {base : List Frame} {f : Frame} {rest : List Frame} (h : Over base (f :: rest))
    (s : Statement) : Over base (f.push s :: rest) := by
  cases h with
  | block => exact .block
  | element hrest => exact .element hrest

/-! ### Builders -/

/-- The tags of a tag that is still being read. -/
def PendingTag.tags : PendingTag → Multiset Tag
  | .opening tag _ => tag.tags
  | .closing _ _ => 0

/-- The tags of a tag and an attribute that are still being read. -/
def pendingTags (tag : Option PendingTag) (attr : Option PendingAttr) : Multiset Tag :=
  (tag.map PendingTag.tags).getD 0 + (attr.map fun a => partsTags a.parts).getD 0

namespace Builder

/-- The items of a tree while it is built. -/
def items (b : Builder) : Multiset Item :=
  framesItems b.frames + (pendingTags b.tag b.attr).map .tag

/-- What a builder still reads in a region. -/
def Reads (b : Builder) : Region → Prop
  | .text => b.tag = none ∧ b.attr = none ∧ b.comment = none
  | .comment => b.tag = none ∧ b.attr = none ∧ b.comment.isSome
  | .tag => b.tag.isSome ∧ b.attr = none ∧ b.comment = none
  | .name => b.tag.isSome ∧ (∃ a, b.attr = some a ∧ a.dynamic = false ∧ a.parts = []) ∧
      b.comment = none
  | .value => b.tag.isSome ∧
      (∃ a, b.attr = some a ∧ (a.dynamic = false → partsTags a.parts = 0)) ∧ b.comment = none

/-- A builder in a region, above frames that it leaves alone. -/
structure Inside (base : List Frame) (r : Region) (b : Builder) : Prop where
  above : Over base b.frames
  reads : b.Reads r

/-- What is read does not depend on where the reader is. -/
theorem Inside.withMachine {base : List Frame} {r : Region} {b : Builder} (h : Inside base r b)
    (machine : Markup.Machine) : Inside base r { b with machine } := by
  refine ⟨h.above, ?_⟩
  have hreads := h.reads
  cases r <;> exact hreads

theorem append_over {base : List Frame} {b : Builder} (h : Over base b.frames) (s : Statement) :
    Over base (b.append s).frames ∧
      framesItems (b.append s).frames = framesItems b.frames + itemsOf [s] := by
  rw [append]
  cases hframes : b.frames with
  | nil =>
    rw [hframes] at h
    cases h
  | cons f rest =>
    rw [hframes] at h
    refine ⟨h.push s, ?_⟩
    simp only [framesItems_cons, Frame.push_items]
    abel

@[simp] theorem append_tag (b : Builder) (s : Statement) : (b.append s).tag = b.tag := by
  rw [append]
  split <;> rfl

@[simp] theorem append_attr (b : Builder) (s : Statement) : (b.append s).attr = b.attr := by
  rw [append]
  split <;> rfl

@[simp] theorem append_comment (b : Builder) (s : Statement) :
    (b.append s).comment = b.comment := by
  rw [append]
  split <;> rfl

@[simp] theorem append_text (b : Builder) (s : Statement) : (b.append s).text = b.text := by
  rw [append]
  split <;> rfl

@[simp] theorem append_machine (b : Builder) (s : Statement) :
    (b.append s).machine = b.machine := by
  rw [append]
  split <;> rfl

/-! ### What events lose and complete -/

end Builder

/-- The tags that are lost with a slash: without quotes only the first part of a
value is kept. -/
def PendingAttr.lost (a : PendingAttr) : Multiset Tag :=
  if a.dynamic && !a.quoted then partsTags a.parts.tail else 0

/-- The tags that are lost with block parameters: the attributes that spell them
are taken out of the start tag, whatever their values are. -/
def StartTag.lost (t : StartTag) : Multiset Tag :=
  match extractBlockParams t with
  | .ok kept => attrsTags (t.attributes.drop kept.attributes.length)
  | .error _ => 0

/-- The tags that are lost when a tag ends. -/
def PendingTag.lost : PendingTag → Multiset Tag
  | .opening tag _ => tag.lost
  | .closing _ _ => 0

theorem PendingAttr.finishText_tags (a : PendingAttr) (stop : Nat) :
    partsTags (a.finishText stop).parts = partsTags a.parts := by
  rw [PendingAttr.finishText]
  split
  · simp [partsTags, ConcatPart.tags]
  · rfl

theorem PendingAttr.finishText_lost (a : PendingAttr) (stop : Nat) :
    (a.finishText stop).lost = a.lost := by
  unfold PendingAttr.finishText PendingAttr.lost
  split
  · cases a.parts <;> simp [partsTags, ConcatPart.tags]
  · rfl

/-- The value of an attribute keeps all its tags but the lost ones. -/
theorem attrValue_tags {a : PendingAttr} {span : Span} {value : AttrValue}
    (hstatic : a.dynamic = false → partsTags a.parts = 0) (h : attrValue a span = .ok value) :
    value.tags + a.lost = partsTags a.parts := by
  rw [attrValue] at h
  rw [PendingAttr.lost]
  by_cases hdynamic : a.dynamic
  -- A dynamic value in quotes keeps all its parts, one without quotes only the first tag.
  · by_cases hquoted : a.quoted
    · simp only [hdynamic, hquoted, if_true] at h
      cases h
      simp [AttrValue.tags, hquoted]
    · simp only [hdynamic, hquoted, if_true, Bool.false_eq_true, if_false] at h
      split at h
      · next tag hparts =>
        cases h
        simp [hparts, AttrValue.tags, partsTags, ConcatPart.tags]
      · next tag node rest hparts =>
        split at h <;> cases h
        simp [hdynamic, hquoted, hparts, AttrValue.tags, partsTags, ConcatPart.tags]
      · cases h
  · replace hdynamic : a.dynamic = false := by simpa using hdynamic
    simp only [hdynamic, Bool.false_eq_true, if_false] at h
    have hparts := hstatic hdynamic
    split at h
    · cases h
      simpa [hdynamic, AttrValue.tags] using hparts.symm
    · next tag rest hshape =>
      cases h
      simp [hshape, partsTags, ConcatPart.tags] at hparts
    · cases h
      simpa [hdynamic, AttrValue.tags] using hparts.symm

/-- Block parameters take the last attributes out of a start tag, if anything. -/
theorem extractBlockParams_cases {t kept : StartTag} (h : extractBlockParams t = .ok kept) :
    kept = t ∨ ∃ count params, count ≤ t.attributes.length ∧
      kept = { t with attributes := t.attributes.take count, blockParams := params } := by
  rw [extractBlockParams] at h
  simp only at h
  split at h
  · simp only [ite_eq_ok, reduceCtorEq, and_false, false_or, Except.ok.injEq] at h
    exact .inl h.2.symm
  · simp only [ite_eq_ok, bind_eq_ok, pure_eq_ok, reduceCtorEq, and_false, false_or, or_false,
      Except.ok.injEq] at h
    rcases h with ⟨-, -, params, -, -, rfl⟩ | ⟨-, rfl⟩
    · refine .inr ⟨_, params, ?_, rfl⟩
      have hle := (List.takeWhile_prefix (· ≠ "as") (l := t.attributes.map (·.name))).length_le
      simpa using hle
    · exact .inl rfl

/-- A start tag keeps all its tags but the lost ones. -/
theorem extractBlockParams_tags {t kept : StartTag} (h : extractBlockParams t = .ok kept) :
    kept.tags + t.lost = t.tags := by
  rw [StartTag.lost]
  rw [h]
  obtain rfl | ⟨count, params, hcount, rfl⟩ := extractBlockParams_cases h
  · simp [attrsTags]
  · have hsplit : attrsTags (t.attributes.take count) + attrsTags (t.attributes.drop count)
        = attrsTags t.attributes := by
      rw [← attrsTags_append, List.take_append_drop]
    simp only [StartTag.tags, List.length_take, Nat.min_eq_left hcount, ← hsplit]
    abel

namespace Builder

/-- The tags that an event loses. -/
def lostBy (b : Builder) : Event → Multiset Tag
  | .finishAttributeValue _ => (b.attr.map PendingAttr.lost).getD 0
  | .finishTag _ => (b.tag.map PendingTag.lost).getD 0
  | _ => 0

/-- The text or comment that an event completes. -/
def gainedBy (b : Builder) : Event → Multiset Item
  | .finishData pos => (b.text.map fun t => {.text { t with span := ⟨t.span.start, pos⟩ }}).getD 0
  | .finishComment pos =>
    (b.comment.map fun t => {.comment { t with span := ⟨t.span.start, pos⟩ }}).getD 0
  | _ => 0

variable {source : Source} {base : List Frame} {b b' : Builder}

/-- An attribute joins its start tag. -/
theorem finishAttr_inside {pos : Nat} (hin : Inside base .value b)
    (h : b.finishAttr pos = .ok b') :
    Inside base .tag b' ∧
      b'.items + (b.lostBy (.finishAttributeValue pos)).map .tag = b.items := by
  obtain ⟨htag, ⟨a, hattr, hstatic⟩, hcomment⟩ := hin.reads
  cases finishAttr_runs h with
  | absent hnone => cases hnone.symm.trans hattr
  | dropped hnone => simp [hnone] at htag
  | joined hattr' hfinish htag' hvalue =>
    cases hattr.symm.trans hattr'
    refine ⟨⟨hin.above, rfl, rfl, hcomment⟩, ?_⟩
    subst hfinish
    have htags := attrValue_tags
      (by rw [PendingAttr.finishText_tags]; unfold PendingAttr.finishText; split <;> exact hstatic)
      hvalue
    rw [PendingAttr.finishText_tags, PendingAttr.finishText_lost] at htags
    simp only [items, lostBy, pendingTags, hattr, htag', Option.map_some, Option.getD_some,
      Option.map_none, Option.getD_none, PendingTag.tags, StartTag.tags, attrsTags_append, ← htags]
    simp only [attrsTags, List.map_cons, List.map_nil, List.sum_cons, List.sum_nil,
      Multiset.map_add, add_zero]
    abel

/-- What the end of a tag does to the frames, it does to the tree. -/
theorem Inside.ofFrames {pos : Nat} {tag : PendingTag} (hin : Inside base .tag b)
    (htag : b.tag = some tag) (hover : Over base b'.frames) (htag' : b'.tag = none)
    (hattr' : b'.attr = b.attr) (hcomment' : b'.comment = b.comment)
    (hitems : framesItems b'.frames + tag.lost.map .tag
      = framesItems b.frames + tag.tags.map .tag) :
    Inside base .text b' ∧ b'.items + (b.lostBy (.finishTag pos)).map .tag = b.items := by
  obtain ⟨-, hattr, hcomment⟩ := hin.reads
  refine ⟨⟨hover, htag', hattr'.trans hattr, hcomment'.trans hcomment⟩, ?_⟩
  simp only [items, lostBy, pendingTags, htag, htag', hattr', hattr, Option.map_some,
    Option.map_none, Option.getD_some, Option.getD_none, add_zero, Multiset.map_zero]
  exact hitems

/-- A tag opens an element, or closes the innermost one. -/
theorem finishTag_inside {pos : Nat} (hin : Inside base .tag b)
    (h : b.finishTag source pos = .ok b') :
    Inside base .text b' ∧ b'.items + (b.lostBy (.finishTag pos)).map .tag = b.items := by
  cases finishTag_runs h with
  | absent hnone =>
    have hsome := hin.reads.1
    simp [hnone] at hsome
  | @complete tag kept start htag _ hkept =>
    have htags := extractBlockParams_tags hkept
    obtain ⟨hover, hitems⟩ := append_over (b := { b with tag := none }) hin.above
      (.element kept [] ⟨start, pos⟩)
    refine hin.ofFrames htag hover (append_tag _ _) (append_attr _ _) (append_comment _ _) ?_
    rw [hitems, PendingTag.tags, PendingTag.lost, ← htags, itemsOf_element, Multiset.map_add]
    simp only [itemsOf, statementsWithin, List.map_nil, List.sum_nil]
    abel
  -- The tags of an open element are counted with its frame.
  | @opened tag kept start htag _ hkept =>
    have htags := extractBlockParams_tags hkept
    refine hin.ofFrames htag (.element hin.above) rfl rfl rfl ?_
    simp only [push, framesItems_cons, Frame.items, itemsOf, statementsWithin, List.map_nil,
      List.sum_nil, PendingTag.tags, PendingTag.lost, ← htags, Multiset.map_add]
    abel
  | @closed tag children span rest start htag _ hframes =>
    have hover := hin.above
    rw [hframes] at hover
    cases hover with
    | element hrest =>
      obtain ⟨hover', hitems⟩ := append_over (b := { b with tag := none, frames := rest }) hrest
        (.element tag children { span with stop := pos })
      refine hin.ofFrames htag hover' (append_tag _ _) (append_attr _ _) (append_comment _ _) ?_
      rw [hitems, itemsOf_element, hframes, framesItems_cons, Frame.items, PendingTag.tags,
        PendingTag.lost]
      simp only [Multiset.map_zero]
      abel

theorem append_inside {r : Region} (hin : Inside base r b) (s : Statement) :
    Inside base r (b.append s) ∧ (b.append s).items = b.items + itemsOf [s] := by
  obtain ⟨hover, hitems⟩ := append_over hin.above s
  have hreads := hin.reads
  refine ⟨⟨hover, ?_⟩, ?_⟩
  · cases r <;> simpa only [Reads, append_tag, append_attr, append_comment] using hreads
  · simp only [items, append_tag, append_attr, hitems]
    abel

/-- A change to the tag that is being read. -/
theorem onTag_inside {f : PendingTag → PendingTag} (hf : ∀ t, (f t).tags = t.tags)
    (hin : Inside base .tag b) :
    Inside base .tag { b with tag := b.tag.map f } ∧
      Builder.items { b with tag := b.tag.map f } = b.items := by
  obtain ⟨htag, hattr, hcomment⟩ := hin.reads
  refine ⟨⟨hin.above, by simpa using htag, hattr, hcomment⟩, ?_⟩
  have htags : ((b.tag.map f).map PendingTag.tags).getD 0 = (b.tag.map PendingTag.tags).getD 0 := by
    cases b.tag <;> simp [hf]
  simp only [items, pendingTags, htags]

theorem PendingTag.pushName_tags (c : Char) (t : PendingTag) : (t.pushName c).tags = t.tags := by
  cases t <;> rfl

theorem PendingTag.selfClosing_tags (t : PendingTag) :
    (t.onStartTag fun t => { t with selfClosing := true }).tags = t.tags := by
  cases t <;> rfl

/-- What an event does to a builder in its region. -/
theorem observe_inside {r r' : Region} {e : Event} (hin : Inside base r b)
    (hlead : Event.leadsTo? r e = some r') (h : b.observe source e = .ok b') :
    Inside base r' b' ∧ b'.items + (b.lostBy e).map .tag = b.items + b.gainedBy e := by
  cases e with
  | reset => cases r <;> cases hlead
  | tagOpen pos =>
    cases r <;> cases hlead
    cases h
    exact ⟨hin, rfl⟩
  | beginData pos =>
    cases r <;> cases hlead
    cases h
    exact ⟨⟨hin.above, hin.reads⟩, rfl⟩
  | data c =>
    cases r <;> cases hlead
    cases h
    exact ⟨⟨hin.above, hin.reads⟩, rfl⟩
  | finishData pos =>
    cases r <;> cases hlead
    rw [observe] at h
    cases htext : b.text with
    | none =>
      simp only [htext] at h
      cases h
      exact ⟨hin, by simp [lostBy, gainedBy, htext]⟩
    | some t =>
      simp only [htext] at h
      cases h
      have hin' : Inside base .text { b with text := none } := ⟨hin.above, hin.reads⟩
      obtain ⟨hinside, hitems⟩ := append_inside hin' (.text { t with span := ⟨t.span.start, pos⟩ })
      refine ⟨hinside, ?_⟩
      rw [hitems]
      simp [lostBy, gainedBy, htext, itemsOf, statementsWithin, Statement.within, Statement.items,
        items]
  | beginComment pos =>
    cases r <;> cases hlead
    cases h
    obtain ⟨htag, hattr, hcomment⟩ := hin.reads
    exact ⟨⟨hin.above, htag, hattr, rfl⟩, rfl⟩
  | commentData c =>
    cases r <;> cases hlead
    cases h
    obtain ⟨htag, hattr, hcomment⟩ := hin.reads
    exact ⟨⟨hin.above, htag, hattr, by simpa using hcomment⟩, rfl⟩
  | finishComment pos =>
    cases r <;> cases hlead
    obtain ⟨htag, hattr, hcomment⟩ := hin.reads
    obtain ⟨t, hcomment⟩ := Option.isSome_iff_exists.mp hcomment
    rw [observe] at h
    simp only [hcomment] at h
    cases h
    have hin' : Inside base .text { b with comment := none } := ⟨hin.above, htag, hattr, rfl⟩
    obtain ⟨hinside, hitems⟩ :=
      append_inside hin' (.comment { t with span := ⟨t.span.start, pos⟩ })
    refine ⟨hinside, ?_⟩
    rw [hitems]
    simp [lostBy, gainedBy, hcomment, itemsOf, statementsWithin, Statement.within, Statement.items,
      items]
  | beginStartTag pos =>
    cases r <;> cases hlead
    cases h
    obtain ⟨htag, hattr, hcomment⟩ := hin.reads
    refine ⟨⟨hin.above, rfl, hattr, hcomment⟩, ?_⟩
    simp [items, pendingTags, htag, hattr, PendingTag.tags, StartTag.tags, attrsTags, lostBy,
      gainedBy]
  | beginEndTag pos =>
    cases r <;> cases hlead
    cases h
    obtain ⟨htag, hattr, hcomment⟩ := hin.reads
    refine ⟨⟨hin.above, rfl, hattr, hcomment⟩, ?_⟩
    simp [items, pendingTags, htag, hattr, PendingTag.tags, lostBy, gainedBy]
  | tagName c =>
    cases r <;> cases hlead
    cases h
    obtain ⟨hinside, hitems⟩ := onTag_inside (PendingTag.pushName_tags c) hin
    exact ⟨hinside, by rw [hitems]; rfl⟩
  | selfClosing =>
    cases r <;> cases hlead
    cases h
    obtain ⟨hinside, hitems⟩ := onTag_inside PendingTag.selfClosing_tags hin
    exact ⟨hinside, by rw [hitems]; rfl⟩
  | finishTag pos =>
    cases r <;> cases hlead
    obtain ⟨hinside, hitems⟩ := finishTag_inside hin h
    exact ⟨hinside, by rw [hitems]; simp [gainedBy]⟩
  | beginAttribute pos =>
    cases r <;> cases hlead
    cases h
    obtain ⟨htag, hattr, hcomment⟩ := hin.reads
    refine ⟨⟨hin.above, htag, ⟨_, rfl, rfl, rfl⟩, hcomment⟩, ?_⟩
    simp [items, pendingTags, hattr, partsTags, lostBy, gainedBy]
  | attributeName c =>
    cases r <;> cases hlead
    cases h
    obtain ⟨htag, ⟨a, hattr, hdynamic, hparts⟩, hcomment⟩ := hin.reads
    refine ⟨⟨hin.above, htag, ⟨{ a with name := a.name.push c }, ?_, hdynamic, hparts⟩,
      hcomment⟩, ?_⟩
    · simp [hattr]
    · simp [items, pendingTags, hattr, lostBy, gainedBy]
  | beginAttributeValue quoted pos =>
    cases r <;> cases hlead
    cases h
    obtain ⟨htag, ⟨a, hattr, hdynamic, hparts⟩, hcomment⟩ := hin.reads
    refine ⟨⟨hin.above, htag, ⟨{ a with quoted, text := none, valueStart := pos }, ?_, ?_⟩,
      hcomment⟩, ?_⟩
    · simp [hattr]
    · simp [hparts, partsTags]
    · simp [items, pendingTags, hattr, lostBy, gainedBy]
  | attributeValue c pos =>
    cases r <;> cases hlead
    cases h
    obtain ⟨htag, ⟨a, hattr, hstatic⟩, hcomment⟩ := hin.reads
    have hpush : (a.pushValue c pos).parts = a.parts ∧ (a.pushValue c pos).dynamic = a.dynamic := by
      rw [PendingAttr.pushValue]
      split <;> exact ⟨rfl, rfl⟩
    refine ⟨⟨hin.above, htag, ⟨a.pushValue c pos, ?_, ?_⟩, hcomment⟩, ?_⟩
    · simp [hattr]
    · rw [hpush.1, hpush.2]
      exact hstatic
    · simp [items, pendingTags, hattr, hpush.1, lostBy, gainedBy]
  -- Only here and at the end of a tag can something be lost.
  | finishAttributeValue pos =>
    cases r <;> cases hlead
    obtain ⟨hinside, hitems⟩ := finishAttr_inside hin h
    exact ⟨hinside, by rw [hitems]; simp [gainedBy]⟩
  | problem p pos =>
    cases r <;> cases hlead <;> cases h
    · exact ⟨⟨hin.above, hin.reads⟩, rfl⟩
    · exact ⟨⟨hin.above, hin.reads⟩, rfl⟩

/-! ### Runs of events -/

theorem observeAll_cons {e : Event} {rest : List Event} :
    b.observeAll source (e :: rest) = .ok b' ↔
      ∃ b₁, b.observe source e = .ok b₁ ∧ b₁.observeAll source rest = .ok b' := by
  rw [observeAll, List.foldlM_cons, bind_eq_ok]
  rfl

theorem observeAll_append {events rest : List Event} :
    b.observeAll source (events ++ rest) = .ok b' ↔
      ∃ b₁, b.observeAll source events = .ok b₁ ∧ b₁.observeAll source rest = .ok b' := by
  rw [observeAll, List.foldlM_append, bind_eq_ok]
  rfl

/-- What each event keeps, wherever it may come, a run of events keeps. -/
theorem observeAll_induction {motive : Builder → Prop} {r r' : Region} {events : List Event}
    (hstep : ∀ {r r' : Region} {e : Event} {b b' : Builder}, e ∈ events → Inside base r b →
      Event.leadsTo? r e = some r' → b.observe source e = .ok b' → motive b → motive b')
    (hin : Inside base r b) (hlead : Markup.leadTo? r events = some r')
    (h : b.observeAll source events = .ok b') (hb : motive b) :
    Inside base r' b' ∧ motive b' := by
  induction events generalizing b r with
  | nil =>
    cases hlead
    cases h
    exact ⟨hin, hb⟩
  | cons e rest ih =>
    obtain ⟨r₁, hlead₁, hlead⟩ := Markup.leadTo?_cons.mp hlead
    obtain ⟨b₁, h₁, h⟩ := observeAll_cons.mp h
    have hin₁ := (observe_inside hin hlead₁ h₁).1
    have hb₁ := hstep List.mem_cons_self hin hlead₁ h₁ hb
    exact ih (fun hmem => hstep (List.mem_cons_of_mem _ hmem)) hin₁ hlead h hb₁

/-- The tags that events lose, one after the other. -/
def lostByAll (source : Source) (b : Builder) : List Event → Multiset Tag
  | [] => 0
  | e :: rest =>
    b.lostBy e + match b.observe source e with
      | .ok b' => lostByAll source b' rest
      | .error _ => 0

/-- What is completed is a text or a comment. -/
theorem gainedBy_tag? {e : Event} {x : Item} (hx : x ∈ b.gainedBy e) : x.tag? = none := by
  unfold gainedBy at hx
  split at hx
  · cases htext : b.text with
    | none => simp [htext] at hx
    | some t =>
      simp only [htext, Option.map_some, Option.getD_some, Multiset.mem_singleton] at hx
      rw [hx]
      rfl
  · cases hcomment : b.comment with
    | none => simp [hcomment] at hx
    | some t =>
      simp only [hcomment, Option.map_some, Option.getD_some, Multiset.mem_singleton] at hx
      rw [hx]
      rfl
  · simp at hx

/-- The tags of a tree while it is built. -/
def tags (b : Builder) : Multiset Tag := b.items.filterMap Item.tag?

theorem filterMap_tag (tags : Multiset Tag) : (tags.map Item.tag).filterMap Item.tag? = tags := by
  rw [Multiset.filterMap_map]
  exact Multiset.filterMap_some tags

/-- An event keeps all tags but the lost ones. -/
theorem observe_tags {r r' : Region} {e : Event} (hin : Inside base r b)
    (hlead : Event.leadsTo? r e = some r') (h : b.observe source e = .ok b') :
    b'.tags + b.lostBy e = b.tags := by
  have hitems := congrArg (Multiset.filterMap Item.tag?) (observe_inside hin hlead h).2
  have hgained : (b.gainedBy e).filterMap Item.tag? = 0 :=
    Multiset.eq_zero_of_forall_notMem fun t ht => by
      obtain ⟨x, hx, hxt⟩ := (Multiset.mem_filterMap _ _).mp ht
      rw [gainedBy_tag? hx] at hxt
      cases hxt
  rwa [Multiset.filterMap_add, Multiset.filterMap_add, filterMap_tag, hgained, add_zero] at hitems

/-- Events keep all tags but the lost ones. -/
theorem observeAll_inside {r r' : Region} {events : List Event} (hin : Inside base r b)
    (hlead : Markup.leadTo? r events = some r') (h : b.observeAll source events = .ok b') :
    Inside base r' b' ∧ b'.tags + b.lostByAll source events = b.tags := by
  -- The loss is counted from the front, so this is an induction of its own.
  induction events generalizing b r with
  | nil =>
    cases hlead
    cases h
    exact ⟨hin, by simp [lostByAll]⟩
  | cons e rest ih =>
    obtain ⟨r₁, hlead₁, hlead⟩ := Markup.leadTo?_cons.mp hlead
    obtain ⟨b₁, h₁, h⟩ := observeAll_cons.mp h
    have hin₁ := (observe_inside hin hlead₁ h₁).1
    obtain ⟨hin', htags⟩ := ih hin₁ hlead h
    refine ⟨hin', ?_⟩
    have htags₁ := observe_tags hin hlead₁ h₁
    simp only [lostByAll, h₁]
    rw [← htags₁, ← htags]
    abel

end Builder

end TemplateCompiler.Template
