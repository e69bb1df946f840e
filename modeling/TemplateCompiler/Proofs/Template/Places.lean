/-
Where the nodes of a template stand while it is built.

* `Settled` — the statements of an open frame nest and stand in order;
* `Stack` — so do those of all open frames, each in the element that is open
  around it;
* `Builder.Stands` — the tree so far, and what is still being read, up to a place
  of the markup reader;
* `Builder.observe_stands` — an event that fits keeps it so;
* `Builder.read_stands` — so does a whole piece of text.
-/
import TemplateCompiler.Proofs.Markup.Places
import TemplateCompiler.Proofs.Template.Spans
import TemplateCompiler.Proofs.Template.Tags

namespace TemplateCompiler.Template

open Markup (Event Region Place FitAll moveAll)

/-! ### Statements of one list -/

/-- The statements of a list nest and stand in order, from an offset on.  The last
of them may be a mustache behind the start of the tag or comment that is open. -/
structure Settled (lo opened reached : Nat) (body : List Statement) : Prop where
  lo_le : lo ≤ opened
  opened_le : opened ≤ reached
  fits : FitIn lo reached (statementSpans body)
  inner : ∀ list ∈ innerBodies body, list.IsChain Statement.Precedes
  chain : body.IsChain Statement.Precedes
  last : ∀ s, body.getLast? = some s →
    s.span.stop ≤ opened ∨ (s.IsMustache ∧ opened ≤ s.span.start)

namespace Settled

variable {lo opened reached opened' reached' : Nat} {body : List Statement} {s : Statement}

theorem nil (hlo : lo ≤ opened) (hle : opened ≤ reached) : Settled lo opened reached [] :=
  ⟨hlo, hle, .nil, fun list hlist => (by cases hlist), .nil, fun s hs => (by cases hs)⟩

theorem mono (h : Settled lo opened reached body) (hle : reached ≤ reached') :
    Settled lo opened reached' body :=
  ⟨h.lo_le, Nat.le_trans h.opened_le hle, h.fits.mono (Nat.le_refl _) hle, h.inner, h.chain, h.last⟩

theorem span_bounds (h : Settled lo opened reached body) (hs : s ∈ body) :
    s.span.start ≤ s.span.stop ∧ s.span.stop ≤ reached := by
  obtain ⟨hnested, -, hstop⟩ := h.fits _ (mem_statementSpans hs)
  have hle := hnested.start_le
  rw [Statement.spanTree_span] at hle hstop
  exact ⟨hle, hstop⟩

/-- Nothing is open any more. -/
theorem reset (h : Settled lo opened reached body) (hle : reached ≤ reached') :
    Settled lo reached' reached' body := by
  have hlo := Nat.le_trans h.lo_le (Nat.le_trans h.opened_le hle)
  refine ⟨hlo, Nat.le_refl _, h.fits.mono (Nat.le_refl _) hle, h.inner, h.chain,
    fun s hs => .inl ?_⟩
  exact Nat.le_trans (h.span_bounds (List.mem_of_getLast? hs)).2 hle

/-- A statement joins the list. -/
theorem snoc (h : Settled lo opened reached body) (hfit : FitIn lo reached' [s.spanTree])
    (hinner : ∀ list ∈ innerBodies [s], list.IsChain Statement.Precedes)
    (hnext : ∀ a, body.getLast? = some a → a.Precedes s)
    (hlast : s.span.stop ≤ opened' ∨ (s.IsMustache ∧ opened' ≤ s.span.start))
    (hlo : lo ≤ opened') (hopened : opened' ≤ reached') (hle : reached ≤ reached') :
    Settled lo opened' reached' (body ++ [s]) where
  lo_le := hlo
  opened_le := hopened
  fits := by
    rw [statementSpans_append]
    refine (h.fits.mono (Nat.le_refl _) hle).append ?_
    rw [statementSpans, statementSpans]
    exact hfit
  inner := by
    rw [innerBodies_append]
    exact List.forall_mem_append.mpr ⟨h.inner, hinner⟩
  chain := by
    refine List.isChain_append.mpr ⟨h.chain, .singleton s, fun a ha b hb => ?_⟩
    obtain rfl : s = b := Option.some.inj hb
    exact hnext a ha
  last := by
    intro a ha
    rw [List.getLast?_append, List.getLast?_singleton] at ha
    obtain rfl : s = a := Option.some.inj ha
    exact hlast

/-- A statement that starts behind all others. -/
theorem after (h : Settled lo opened reached body) (hs : s.spanTree.Nested)
    (hinner : ∀ list ∈ innerBodies [s], list.IsChain Statement.Precedes)
    (hstart : reached ≤ s.span.start) :
    Settled lo s.span.stop s.span.stop (body ++ [s]) := by
  have hspan := hs.start_le
  rw [Statement.spanTree_span] at hspan
  have hlo := Nat.le_trans h.lo_le h.opened_le
  refine h.snoc (.single hs ?_ ?_) hinner (fun a ha => .inl ?_) (.inl (Nat.le_refl _)) ?_
    (Nat.le_refl _) ?_
  · rw [Statement.spanTree_span]
    omega
  · rw [Statement.spanTree_span]
  · exact Nat.le_trans (h.span_bounds (List.mem_of_getLast? ha)).2 hstart
  · omega
  · omega

/-- An element or a comment that ends, and that may have a mustache in it. -/
theorem around (h : Settled lo opened reached body) (hs : s.spanTree.Nested) (hmarkup : s.IsMarkup)
    (hinner : ∀ list ∈ innerBodies [s], list.IsChain Statement.Precedes)
    (hstart : s.span.start = opened) (hstop : reached ≤ s.span.stop) :
    Settled lo s.span.stop s.span.stop (body ++ [s]) := by
  have hlo := h.lo_le
  have hle := h.opened_le
  refine h.snoc (.single hs ?_ ?_) hinner (fun a ha => ?_) (.inl (Nat.le_refl _)) ?_
    (Nat.le_refl _) hstop
  · rw [Statement.spanTree_span, hstart]
    exact hlo
  · rw [Statement.spanTree_span]
  · have hbounds := h.span_bounds (List.mem_of_getLast? ha)
    rcases h.last a ha with hbefore | ⟨hmustache, hinside⟩
    · exact .inl (by omega)
    · exact .inr ⟨hmustache, hmarkup, by omega, by omega⟩
  · omega

/-- A mustache inside of the tag or comment that is open. -/
theorem inside (h : Settled lo opened reached body) (hs : s.spanTree.Nested)
    (hmustache : s.IsMustache)
    (hinner : ∀ list ∈ innerBodies [s], list.IsChain Statement.Precedes)
    (hstart : reached ≤ s.span.start) : Settled lo opened s.span.stop (body ++ [s]) := by
  have hspan := hs.start_le
  rw [Statement.spanTree_span] at hspan
  have hlo := h.lo_le
  have hle := h.opened_le
  refine h.snoc (.single hs ?_ ?_) hinner (fun a ha => .inl ?_) (.inr ⟨hmustache, ?_⟩) hlo ?_ ?_
  · rw [Statement.spanTree_span]
    omega
  · rw [Statement.spanTree_span]
  · exact Nat.le_trans (h.span_bounds (List.mem_of_getLast? ha)).2 hstart
  · omega
  · omega
  · omega

end Settled

/-! ### Open frames -/

/-- Open frames above others: the statements of each are settled, up to the element
that is open in it. -/
inductive Stack (base : List Frame) (lo : Nat) : Nat → Nat → List Frame → Prop
  | block {opened reached : Nat} {body : List Statement} (hbody : Settled lo opened reached body) :
    Stack base lo opened reached (.block body :: base)
  | element {opened reached : Nat} {tag : StartTag} {children : List Statement} {span : Span}
    {rest : List Frame} (htag : FitIn span.start span.stop tag.spanTrees)
    (hspan : span.start ≤ span.stop) (hstop : span.stop ≤ reached)
    (hchildren : Settled span.start opened reached children)
    (hrest : Stack base lo span.start reached rest) :
    Stack base lo opened reached (.element tag children span :: rest)

namespace Stack

variable {base : List Frame} {lo opened reached opened' reached' : Nat} {frames : List Frame}

theorem le (h : Stack base lo opened reached frames) : opened ≤ reached := by
  cases h with
  | block hbody => exact hbody.opened_le
  | element htag hspan hstop hchildren hrest => exact hchildren.opened_le

theorem mono (h : Stack base lo opened reached frames) (hle : reached ≤ reached') :
    Stack base lo opened reached' frames := by
  induction h with
  | block hbody => exact .block (hbody.mono hle)
  | element htag hspan hstop hchildren hrest ih =>
    exact .element htag hspan (Nat.le_trans hstop hle) (hchildren.mono hle) (ih hle)

theorem reset (h : Stack base lo opened reached frames) (hle : reached ≤ reached') :
    Stack base lo reached' reached' frames := by
  cases h with
  | block hbody => exact .block (hbody.reset hle)
  | element htag hspan hstop hchildren hrest =>
    exact .element htag hspan (Nat.le_trans hstop hle) (hchildren.reset hle) (hrest.mono hle)

/-- A statement joins the innermost frame. -/
theorem push {f : Frame} {rest : List Frame} {s : Statement}
    (h : Stack base lo opened reached (f :: rest)) (hle : reached ≤ reached')
    (hjoin : ∀ {lo : Nat} {body : List Statement}, Settled lo opened reached body →
      Settled lo opened' reached' (body ++ [s])) :
    Stack base lo opened' reached' (f.push s :: rest) := by
  cases h with
  | block hbody => exact .block (hjoin hbody)
  | element htag hspan hstop hchildren hrest =>
    exact .element htag hspan (Nat.le_trans hstop hle) (hjoin hchildren) (hrest.mono hle)

end Stack

/-! ### What is still being read -/

/-- A tag that is being read: it starts where it was opened, and what it has so far
fits. -/
def PendingTag.Fits (opened reached : Nat) : PendingTag → Prop
  | .opening tag start => start = opened ∧ FitIn opened reached tag.spanTrees
  | .closing _ start => start = opened

/-- An attribute that is being read, in a tag that was opened before it. -/
structure PendingAttr.Fits (opened reached : Nat) (a : PendingAttr) : Prop where
  opened_le : opened ≤ a.start
  start_le : a.start ≤ a.valueStart
  value_le : a.valueStart ≤ reached
  parts : FitIn a.valueStart reached (a.parts.map ConcatPart.spanTree)
  text : ∀ t, a.text = some t → a.valueStart ≤ t.span.start ∧ t.span.start ≤ reached

theorem PendingTag.Fits.mono {opened reached reached' : Nat} {t : PendingTag}
    (h : t.Fits opened reached) (hle : reached ≤ reached') : t.Fits opened reached' := by
  cases t with
  | opening tag start => exact ⟨h.1, h.2.mono (Nat.le_refl _) hle⟩
  | closing name start => exact h

theorem PendingAttr.Fits.mono {opened reached reached' : Nat} {a : PendingAttr}
    (h : a.Fits opened reached) (hle : reached ≤ reached') : a.Fits opened reached' :=
  ⟨h.opened_le, h.start_le, Nat.le_trans h.value_le hle, h.parts.mono (Nat.le_refl _) hle,
    fun t ht => ⟨(h.text t ht).1, Nat.le_trans (h.text t ht).2 hle⟩⟩

/-- The text that is being read becomes a part of the value. -/
theorem PendingAttr.Fits.finishText {opened reached stop : Nat} {a : PendingAttr}
    (h : a.Fits opened reached) (hstop : stop ≤ reached) :
    (a.finishText stop).Fits opened reached := by
  rw [PendingAttr.finishText]
  split
  · next t ht =>
    obtain ⟨hstart, hreached⟩ := h.text t ht
    refine ⟨h.opened_le, h.start_le, h.value_le, ?_, fun t ht => by cases ht⟩
    rw [List.map_append]
    refine h.parts.append (.leaf ?_ hstart ?_)
    · exact Nat.le_max_right _ _
    · exact Nat.max_le.mpr ⟨hstop, hreached⟩
  · exact h

/-- A character of a value joins its text, which may begin with it. -/
theorem PendingAttr.Fits.pushValue {opened reached pos : Nat} {a : PendingAttr}
    (h : a.Fits opened reached) (hpos : reached ≤ pos) (c : Char) :
    (a.pushValue c pos).Fits opened pos := by
  have hmono := h.mono hpos
  rw [PendingAttr.pushValue]
  split
  · next t ht =>
    refine ⟨hmono.opened_le, hmono.start_le, hmono.value_le, hmono.parts, fun t' ht' => ?_⟩
    obtain rfl := Option.some.inj ht'
    exact hmono.text t ht
  · refine ⟨hmono.opened_le, hmono.start_le, hmono.value_le, hmono.parts, fun t' ht' => ?_⟩
    obtain rfl := Option.some.inj ht'
    exact ⟨hmono.value_le, Nat.le_refl _⟩

/-- The value of an attribute stands where its parts do. -/
theorem attrValue_fitIn {a : PendingAttr} {start stop : Nat} {value : AttrValue}
    (hle : start ≤ stop) (hparts : FitIn start stop (a.parts.map ConcatPart.spanTree))
    (h : attrValue a ⟨start, stop⟩ = .ok value) : FitIn start stop [value.spanTree] := by
  have hleaf : FitIn start stop [.node ⟨start, stop⟩ []] :=
    .leaf hle (Nat.le_refl _) (Nat.le_refl _)
  -- A mustache that is the whole value is the first of the parts.
  have hfirst : ∀ {tag : MustacheTag} {rest : List ConcatPart}, a.parts = .mustache tag :: rest →
      FitIn start stop [(AttrValue.mustache tag).spanTree] := by
    intro tag rest hcons
    rw [hcons] at hparts
    exact FitIn.cons_iff.mpr ⟨(FitIn.cons_iff.mp hparts).1, .nil⟩
  rw [attrValue] at h
  split at h
  · split at h
    · cases h
      exact .node hle (Nat.le_refl _) (Nat.le_refl _) hparts
    · simp only at h
      split at h
      · next tag hcons =>
        cases h
        exact hfirst hcons
      · next tag node rest hcons =>
        split at h <;> cases h
        exact hfirst hcons
      · cases h
  · split at h
    · cases h
      exact hleaf
    · next tag rest hcons =>
      cases h
      exact hfirst hcons
    · cases h
      exact hleaf

/-- Taking block parameters out of a start tag leaves the rest of it. -/
theorem extractBlockParams_fitIn {tag kept : StartTag} {start stop : Nat}
    (h : extractBlockParams tag = .ok kept) (hfit : FitIn start stop tag.spanTrees) :
    FitIn start stop kept.spanTrees := by
  rcases extractBlockParams_cases h with rfl | ⟨count, params, -, rfl⟩
  · exact hfit
  · obtain ⟨hattributes, hmore⟩ := StartTag.fitIn_iff.mp hfit
    refine StartTag.fitIn_iff.mpr ⟨fun t ht => hattributes t ?_, hmore⟩
    simp only [List.map_take] at ht
    exact List.mem_of_mem_take ht

namespace Builder

variable {source : Source} {base : List Frame} {lo : Nat} {b b' : Builder} {p : Place}

theorem append_stack {opened reached opened' reached' : Nat} {s : Statement}
    (h : Stack base lo opened reached b.frames) (hle : reached ≤ reached')
    (hjoin : ∀ {lo : Nat} {body : List Statement}, Settled lo opened reached body →
      Settled lo opened' reached' (body ++ [s])) :
    Stack base lo opened' reached' (b.append s).frames := by
  rw [append]
  cases hframes : b.frames with
  | nil =>
    rw [hframes] at h
    cases h
  | cons f rest =>
    rw [hframes] at h
    exact h.push hle hjoin

/-! ### Events -/

/-- The tree so far and what is still being read stand in order, up to a place of
the markup reader. -/
structure Stands (base : List Frame) (lo : Nat) (p : Place) (b : Builder) : Prop where
  frames : Stack base lo p.opened p.reached b.frames
  idle : p.running = false → b.text = none
  text : ∀ t, b.text = some t →
    t.span.start = p.opened ∧ Stack base lo p.opened p.opened b.frames
  comment : ∀ c, b.comment = some c → c.span.start = p.opened
  tag : ∀ t, b.tag = some t → t.Fits p.opened p.reached
  attr : ∀ a, b.attr = some a → a.Fits p.opened p.reached

theorem Stands.mono {reached : Nat} (h : Stands base lo p b) (hle : p.reached ≤ reached) :
    Stands base lo { p with reached } b :=
  ⟨h.frames.mono hle, h.idle, h.text, h.comment, fun t ht => (h.tag t ht).mono hle,
    fun a ha => (h.attr a ha).mono hle⟩

/-- Nothing is being read. -/
theorem Stands.of_idle {pos : Nat} (hin : Inside base .text b) (htext : b.text = none)
    (hframes : Stack base lo pos pos b.frames) : Stands base lo ⟨false, pos, pos⟩ b := by
  obtain ⟨htag, hattr, hcomment⟩ := hin.reads
  refine ⟨hframes, fun _ => htext, fun t ht => ?_, fun c hc => ?_, fun t ht => ?_, fun a ha => ?_⟩
  · rw [htext] at ht
    cases ht
  · rw [hcomment] at hc
    cases hc
  · rw [htag] at ht
    cases ht
  · rw [hattr] at ha
    cases ha

theorem innerBodies_leaf {s : Statement} (hs : s.within = [s]) (hbodies : s.bodies = []) :
    ∀ list ∈ innerBodies [s], list.IsChain Statement.Precedes := by
  rw [innerBodies, statementsWithin_singleton, hs, List.flatMap_singleton, hbodies]
  intro list hlist
  cases hlist

/-- A run of text ends. -/
theorem finishData_stack {pos : Nat} (h : Stands base lo p b) (hpos : p.reached ≤ pos)
    (hobs : b.observe source (.finishData pos) = .ok b') :
    Stack base lo pos pos b'.frames ∧ b'.text = none := by
  rw [observe] at hobs
  split at hobs
  · next t ht =>
    cases hobs
    obtain ⟨hstart, hframes⟩ := h.text t ht
    have hle := h.frames.le
    have hnested : (Statement.text { t with span := ⟨t.span.start, pos⟩ }).spanTree.Nested := by
      rw [Statement.spanTree]
      exact FitIn.nested (by show t.span.start ≤ pos; omega) .nil
    refine ⟨append_stack hframes (Nat.le_trans hle hpos) fun hbody => ?_, by simp⟩
    exact hbody.after hnested (innerBodies_leaf (by simp only [Statement.within]) rfl)
      (Nat.le_of_eq hstart.symm)
  · next ht =>
    cases hobs
    exact ⟨h.frames.reset hpos, ht⟩

/-- A comment ends. -/
theorem finishComment_stack {pos : Nat} (h : Stands base lo p b) (hpos : p.reached ≤ pos)
    (hobs : b.observe source (.finishComment pos) = .ok b') :
    Stack base lo pos pos b'.frames ∧ b'.text = b.text := by
  rw [observe] at hobs
  split at hobs
  · next c hc =>
    cases hobs
    have hstart := h.comment c hc
    have hle := h.frames.le
    have hnested : (Statement.comment { c with span := ⟨c.span.start, pos⟩ }).spanTree.Nested := by
      rw [Statement.spanTree]
      exact FitIn.nested (by show c.span.start ≤ pos; omega) .nil
    refine ⟨append_stack h.frames hpos fun hbody => ?_, by simp⟩
    exact hbody.around hnested trivial (innerBodies_leaf (by simp only [Statement.within]) rfl)
      hstart hpos
  · cases hobs
    exact ⟨h.frames.reset hpos, rfl⟩

theorem innerBodies_element {tag : StartTag} {children : List Statement} {span : Span}
    (hchain : children.IsChain Statement.Precedes)
    (hinner : ∀ list ∈ innerBodies children, list.IsChain Statement.Precedes) :
    ∀ list ∈ innerBodies [.element tag children span], list.IsChain Statement.Precedes := by
  rw [innerBodies, statementsWithin_singleton, Statement.within, List.flatMap_cons]
  refine List.forall_mem_append.mpr ⟨?_, hinner⟩
  rw [Statement.bodies]
  exact List.forall_mem_singleton.mpr hchain

/-- A tag of the markup ends: the element is complete, open from now on, or closed. -/
theorem finishTag_stack {pos : Nat} (h : Stands base lo p b) (hpos : p.reached ≤ pos)
    (hobs : b.finishTag source pos = .ok b') :
    Stack base lo pos pos b'.frames ∧ b'.text = b.text := by
  have hle : p.opened ≤ pos := Nat.le_trans h.frames.le hpos
  cases finishTag_runs hobs with
  | absent => exact ⟨h.frames.reset hpos, rfl⟩
  -- An element without children joins the statements around it.
  | @complete tag kept start htag _ hkept =>
    obtain ⟨rfl, hfit⟩ := h.tag _ htag
    have hkeptFit := (extractBlockParams_fitIn hkept hfit).mono (Nat.le_refl _) hpos
    have hnested : (Statement.element kept [] ⟨p.opened, pos⟩).spanTree.Nested := by
      rw [Statement.spanTree, statementSpans, List.append_nil]
      exact FitIn.nested hle hkeptFit
    refine ⟨append_stack (b := { b with tag := none }) h.frames hpos fun hbody => ?_,
      append_text _ _⟩
    exact hbody.around hnested trivial
      (innerBodies_element .nil fun list hlist => by cases hlist) rfl hpos
  | @opened tag kept start htag _ hkept =>
    obtain ⟨rfl, hfit⟩ := h.tag _ htag
    have hkeptFit := (extractBlockParams_fitIn hkept hfit).mono (Nat.le_refl _) hpos
    refine ⟨?_, rfl⟩
    exact .element hkeptFit hle (Nat.le_refl _) (.nil hle (Nat.le_refl _)) (h.frames.mono hpos)
  -- The element on top ends here, and joins those below it.
  | @closed tag children span rest start htag _ hcons =>
    obtain rfl := h.tag _ htag
    have hframes := h.frames
    rw [hcons] at hframes
    cases hframes with
    | element htag hspan hstop hchildren hrest =>
      have hstop' := Nat.le_trans hstop hpos
      have hnested :
          (Statement.element tag children { span with stop := pos }).spanTree.Nested := by
        rw [Statement.spanTree]
        exact FitIn.nested (Nat.le_trans hspan hstop')
          ((htag.mono (Nat.le_refl _) hstop').append (hchildren.fits.mono (Nat.le_refl _) hpos))
      refine ⟨append_stack (b := { b with tag := none, frames := rest }) hrest hpos
        fun hbody => ?_, append_text _ _⟩
      exact hbody.around hnested trivial (innerBodies_element hchildren.chain hchildren.inner)
        rfl hpos

/-- An attribute ends, and joins its start tag. -/
theorem finishAttr_stands {pos : Nat} (h : Stands base lo p b) (hpos : p.reached ≤ pos)
    (hobs : b.finishAttr pos = .ok b') : Stands base lo { p with reached := pos } b' := by
  have hmono := h.mono hpos
  cases finishAttr_runs hobs with
  | absent => exact hmono
  | dropped =>
    exact ⟨hmono.frames, hmono.idle, hmono.text, hmono.comment, hmono.tag,
      fun a ha => by cases ha⟩
  | @joined pending a tag start value hattr hfinish htag hvalue =>
    have hfits : a.Fits p.opened pos := by
      rw [← hfinish]
      refine (hmono.attr pending hattr).finishText ?_
      split
      · exact Nat.sub_le _ _
      · exact Nat.le_refl _
    obtain ⟨hstart, htags⟩ := hmono.tag _ htag
    refine ⟨hmono.frames, hmono.idle, hmono.text, hmono.comment, fun t ht => ?_,
      fun a ha => by cases ha⟩
    cases ht
    refine ⟨hstart, ?_⟩
    -- The attribute starts with its name and ends with its value.
    have hvalueFit := attrValue_fitIn hfits.value_le hfits.parts hvalue
    have hattrFit : FitIn p.opened pos [Attr.spanTree ⟨a.name, value, ⟨a.start, pos⟩⟩] :=
      .node (Nat.le_trans hfits.start_le hfits.value_le) hfits.opened_le (Nat.le_refl _)
        (hvalueFit.mono hfits.start_le (Nat.le_refl _))
    obtain ⟨hattributes, hmore⟩ := StartTag.fitIn_iff.mp htags
    refine StartTag.fitIn_iff.mpr ⟨?_, hmore⟩
    rw [List.map_append]
    exact hattributes.append hattrFit

/-- A change to the tag that is being read which keeps what it has. -/
theorem Stands.onTag {f : PendingTag → PendingTag} (h : Stands base lo p b)
    (hf : ∀ t : PendingTag, t.Fits p.opened p.reached → (f t).Fits p.opened p.reached) :
    Stands base lo p { b with tag := b.tag.map f } := by
  refine ⟨h.frames, h.idle, h.text, h.comment, fun t ht => ?_, h.attr⟩
  obtain ⟨old, hold, rfl⟩ := Option.map_eq_some_iff.mp ht
  exact hf old (h.tag old hold)

/-- A change to the attribute that is being read. -/
theorem Stands.onAttr {f : PendingAttr → PendingAttr} {reached : Nat} (h : Stands base lo p b)
    (hle : p.reached ≤ reached)
    (hf : ∀ a, b.attr = some a → a.Fits p.opened p.reached → (f a).Fits p.opened reached) :
    Stands base lo { p with reached } { b with attr := b.attr.map f } := by
  have hmono := h.mono hle
  refine ⟨hmono.frames, hmono.idle, hmono.text, hmono.comment, hmono.tag, fun a ha => ?_⟩
  obtain ⟨old, hold, rfl⟩ := Option.map_eq_some_iff.mp ha
  exact hf old hold (h.attr old hold)

/-- An event that fits leaves the tree in order. -/
theorem observe_stands {r r' : Region} {e : Event} (hin : Inside base r b)
    (hlead : Event.leadsTo? r e = some r') (h : Stands base lo p b) (hfits : e.Fits p)
    (hobs : b.observe source e = .ok b') : Stands base lo (e.move p) b' := by
  have hin' := (observe_inside hin hlead hobs).1
  cases e with
  | reset => exact hfits.elim
  | tagOpen pos =>
    cases r <;> cases hlead
    cases hobs
    exact .of_idle hin (h.idle hfits.1) (h.frames.reset hfits.2)
  | beginData pos =>
    cases r <;> cases hlead
    cases hobs
    have hframes := h.frames.reset hfits.2
    obtain ⟨-, -, -, hcomment, htag, hattr⟩ := Stands.of_idle hin (h.idle hfits.1) hframes
    refine ⟨hframes, fun hrunning => (by cases hrunning), fun t ht => ?_, hcomment, htag, hattr⟩
    obtain rfl := Option.some.inj ht
    exact ⟨rfl, hframes⟩
  | data c =>
    cases hobs
    refine ⟨h.frames, fun hrunning => ?_, fun t ht => ?_, h.comment, h.tag, h.attr⟩
    · show b.text.map _ = none
      rw [h.idle hrunning]
      rfl
    · obtain ⟨old, hold, rfl⟩ := Option.map_eq_some_iff.mp ht
      exact h.text old hold
  | finishData pos =>
    cases r <;> cases hlead
    obtain ⟨hframes, htext⟩ := finishData_stack h hfits.2 hobs
    exact .of_idle hin' htext hframes
  | beginComment pos =>
    cases hobs
    refine ⟨h.frames, h.idle, h.text, fun c hc => ?_, h.tag, h.attr⟩
    obtain rfl := Option.some.inj hc
    exact hfits.2
  | commentData c =>
    cases hobs
    refine ⟨h.frames, h.idle, h.text, fun t ht => ?_, h.tag, h.attr⟩
    obtain ⟨old, hold, rfl⟩ := Option.map_eq_some_iff.mp ht
    exact h.comment old hold
  | finishComment pos =>
    cases r <;> cases hlead
    obtain ⟨hframes, htext⟩ := finishComment_stack h hfits.2 hobs
    exact .of_idle hin' (htext.trans (h.idle hfits.1)) hframes
  | beginStartTag pos =>
    cases hobs
    refine ⟨h.frames, h.idle, h.text, h.comment, fun t ht => ?_, h.attr⟩
    obtain rfl := Option.some.inj ht
    exact ⟨hfits.2, .nil⟩
  | beginEndTag pos =>
    cases hobs
    refine ⟨h.frames, h.idle, h.text, h.comment, fun t ht => ?_, h.attr⟩
    obtain rfl := Option.some.inj ht
    exact hfits.2
  | tagName c =>
    cases hobs
    refine h.onTag fun t ht => ?_
    cases t <;> exact ht
  | selfClosing =>
    cases hobs
    refine h.onTag fun t ht => ?_
    cases t <;> exact ht
  | finishTag pos =>
    cases r <;> cases hlead
    obtain ⟨hframes, htext⟩ := finishTag_stack h hfits.2 hobs
    exact .of_idle hin' (htext.trans (h.idle hfits.1)) hframes
  | beginAttribute pos =>
    cases hobs
    have hmono := h.mono hfits
    refine ⟨hmono.frames, hmono.idle, hmono.text, hmono.comment, hmono.tag, fun a ha => ?_⟩
    obtain rfl := Option.some.inj ha
    exact ⟨Nat.le_trans h.frames.le hfits, Nat.le_refl _, Nat.le_refl _, .nil,
      fun t ht => by cases ht⟩
  | attributeName c =>
    cases hobs
    refine h.onAttr (Nat.le_refl _) fun a _ ha => ?_
    exact ⟨ha.opened_le, ha.start_le, ha.value_le, ha.parts, ha.text⟩
  | beginAttributeValue quoted pos =>
    cases r <;> cases hlead
    cases hobs
    obtain ⟨-, ⟨a, hattr, -, hparts⟩, -⟩ := hin.reads
    refine h.onAttr hfits fun a' ha' hfit => ?_
    obtain rfl := Option.some.inj (hattr.symm.trans ha')
    -- A value begins without parts.
    refine ⟨hfit.opened_le, ?_, Nat.le_refl _, ?_, fun t ht => by cases ht⟩
    · exact Nat.le_trans hfit.start_le (Nat.le_trans hfit.value_le hfits)
    · simp only [hparts]
      exact .nil
  | attributeValue c pos =>
    cases hobs
    exact h.onAttr hfits fun a _ ha => ha.pushValue hfits c
  | finishAttributeValue pos => exact finishAttr_stands h hfits hobs
  | problem problem pos =>
    cases hobs
    have hmono := h.mono hfits
    exact ⟨hmono.frames, hmono.idle, hmono.text, hmono.comment, hmono.tag, hmono.attr⟩

/-- Events that fit leave the tree in order, one after the other. -/
theorem observeAll_stands {r r' : Region} {events : List Event} {hi : Nat} (hin : Inside base r b)
    (hlead : Markup.leadTo? r events = some r') (h : Stands base lo p b) (hfit : FitAll p events hi)
    (hobs : b.observeAll source events = .ok b') :
    Stands base lo { moveAll p events with reached := hi } b' := by
  induction events generalizing b p r with
  | nil =>
    cases hobs
    exact h.mono hfit
  | cons e rest ih =>
    obtain ⟨r₁, hlead₁, hlead⟩ := Markup.leadTo?_cons.mp hlead
    obtain ⟨b₁, h₁, hobs⟩ := observeAll_cons.mp hobs
    have hin₁ := (observe_inside hin hlead₁ h₁).1
    exact ih hin₁ hlead (observe_stands hin hlead₁ h hfit.1 h₁) hfit.2 hobs

/-- A piece of text, read to its end. -/
theorem read_stands {m : Markup.Machine} {input : List Char} (hin : Inside base m.state.region b)
    (hat : m.At p) (h : Stands base lo p b)
    (hobs : b.observeAll source (m.read input).2 = .ok b') :
    ∃ q, (m.read input).1.At q ∧ Stands base lo q b' := by
  fun_induction Markup.Machine.read m input generalizing b p
  case case1 m =>
    cases hobs
    exact ⟨p, hat, h⟩
  case case2 m c rest next result ih =>
    obtain ⟨b₁, h₁, hobs⟩ := observeAll_append.mp hobs
    have hmoves := Markup.Machine.step_moves hat c rest
    have hin₁ := (observeAll_inside hin (m.step_leads c rest) h₁).1
    have hstands := observeAll_stands hin (m.step_leads c rest) h hmoves.fits h₁
    exact ih hin₁ hmoves.at_next hstands hobs

end Builder

end TemplateCompiler.Template
