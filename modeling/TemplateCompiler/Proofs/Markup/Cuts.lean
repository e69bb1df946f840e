/-
The positions of the events of the markup reader, character by character.

* `Event.Lies`, `Event.clock` — an event may come at an offset, and leads to another;
* `LieAll` — the same for events one after the other;
* `Machine.Opened` — the tag or comment that is open begins with a bracket before an
  offset;
* `Machine.step_ticks`, `Machine.flush_lieAll` — the events of a step come one after the
  other, between two characters of the source.
-/
import TemplateCompiler.Proofs.Markup.Reading
import TemplateCompiler.Proofs.Mustache.Text
import TemplateCompiler.Proofs.Source.Places

namespace TemplateCompiler

theorem Text.StandsAt.start_cut {text part : List Char} {start : Nat}
    (h : Text.StandsAt text part start) : Text.Cut text start := by
  obtain ⟨before, after, rfl, hstart⟩ := h
  exact ⟨before, part ++ after, List.append_assoc .., hstart⟩

namespace Markup

/-! ### Events -/

/-- Whether an event may come at an offset of a text. -/
def Event.Lies (text : List Char) (n : Nat) : Event → Prop
  | .tagOpen pos | .beginData pos | .finishData pos | .finishComment pos | .finishTag pos
  | .beginAttribute pos | .beginAttributeValue _ pos | .attributeValue _ pos
  | .finishAttributeValue pos | .problem _ pos => n ≤ pos ∧ Text.Cut text pos
  | .beginComment pos | .beginStartTag pos | .beginEndTag pos => pos + 1 ≤ n ∧ Text.Cut text pos
  | .reset | .data _ | .commentData _ | .tagName _ | .selfClosing | .attributeName _ => True

/-- The offset that an event leads to.  A character of a name counts with its bytes. -/
def Event.clock (n : Nat) : Event → Nat
  | .tagOpen pos | .beginData pos | .finishData pos | .finishComment pos | .finishTag pos
  | .beginAttribute pos | .beginAttributeValue _ pos | .attributeValue _ pos
  | .finishAttributeValue pos | .problem _ pos => pos
  | .tagName c | .attributeName c => n + c.utf8Size
  | _ => n

/-- Events may come one after the other, and come no further than an offset. -/
def LieAll (text : List Char) (n : Nat) : List Event → Nat → Prop
  | [], hi => n ≤ hi
  | e :: rest, hi => e.Lies text n ∧ LieAll text (e.clock n) rest hi

/-- Events that tell characters at one position. -/
theorem lieAll_map {text : List Char} {tell : Char → Event} {chars : List Char} {n hi : Nat}
    (htell : ∀ c, (tell c).Lies text n ∧ (tell c).clock n = n) (hle : n ≤ hi) :
    LieAll text n (chars.map tell) hi := by
  induction chars with
  | nil => exact hle
  | cons c rest ih =>
    refine ⟨(htell c).1, ?_⟩
    rw [(htell c).2]
    exact ih

namespace Machine

/-! ### Steps -/

/-- The tag or comment that is open begins with a bracket before an offset. -/
def Opened (text : List Char) (n : Nat) (m : Machine) : Prop :=
  m.state.isData = false → m.tagStart + 1 ≤ n ∧ Text.Cut text m.tagStart

theorem Opened.mono {text : List Char} {n n' : Nat} {m : Machine} (h : m.Opened text n)
    (hle : n ≤ n') : m.Opened text n' := fun hstate =>
  ⟨Nat.le_trans (h hstate).1 hle, (h hstate).2⟩

theorem Reading.utf8Size_le (c : Char) (rest : List Char) :
    (Reading.of c rest).char.utf8Size ≤ (Reading.of c rest).width := by
  unfold Reading.of
  split
  · split <;> simp <;> decide
  · exact Nat.le_refl _

/-- What a step does to the offsets: its events come one after the other, up to where
the reader stands next. -/
structure Ticks (text : List Char) (m : Machine) (next : Step) : Prop where
  lies : LieAll text m.pos next.events next.machine.pos
  opened : next.machine.Opened text next.machine.pos

/-- The reader stands before a piece of a text, which a reading of it covers. -/
structure Before (text : List Char) (m : Machine) (r : Reading) : Prop where
  cut : Text.Cut text m.pos
  after : Text.Cut text (m.posAfter r)
  width : m.pos + r.width = m.posAfter r

theorem before_of_reads {text input piece : List Char} {m : Machine} {r : Reading}
    (hlength : Text.byteLength text ≤ maxOffset) (h : Text.StandsAt text input m.offset)
    (hpiece : input = piece ++ r.rest) (hwidth : Text.byteLength piece = r.width) :
    m.Before text r := by
  have hcut : Text.Cut text (m.offset + r.width) := by
    obtain ⟨before, after, htext, hstart⟩ := h
    exact ⟨before ++ piece, r.rest ++ after, by simp [htext, hpiece],
      by rw [Text.byteLength_append, hstart, hwidth]⟩
  have hle := Nat.le_trans hcut.le hlength
  have hpos : m.pos = m.offset := Nat.min_eq_left (by omega)
  have hposAfter : m.posAfter r = m.offset + r.width := Nat.min_eq_left hle
  exact ⟨hpos ▸ h.start_cut, hposAfter ▸ hcut, by rw [hpos, hposAfter]⟩

variable {text : List Char} {m : Machine} {r : Reading}

/-- A reading that leads to a state, in the tag or comment that is open. -/
theorem take_ticks {m' : Machine} {state : State} {events : List Event}
    (hoffset : m'.offset = m.offset)
    (hopened : state.isData = false → m'.tagStart + 1 ≤ m.posAfter r ∧ Text.Cut text m'.tagStart)
    (hevents : LieAll text m.pos events (m.posAfter r)) :
    m.Ticks text (m'.take r state events) := by
  have hnext : (m'.take r state events).machine.pos = m.posAfter r := by
    rw [posAfter, ← hoffset]
    rfl
  exact ⟨hnext ▸ hevents, hnext ▸ hopened⟩

/-- An angle bracket opens a tag where the reader stands. -/
theorem Before.openTag {events : List Event} (h : m.Before text r) (hwidth : 0 < r.width)
    (hevents : LieAll text m.pos (events ++ [.tagOpen m.pos]) (m.posAfter r)) :
    m.Ticks text (m.openTag r events) := by
  have hle : m.pos + 1 ≤ m.posAfter r := by
    have := h.width
    omega
  rw [Machine.openTag]
  exact take_ticks rfl (fun _ => ⟨hle, h.cut⟩) hevents

/-- An ampersand and the reference that it may begin are told where the reader stands. -/
theorem takeReference_ticks {c : Char} {rest : List Char} {tell : Char → Event}
    (hlength : Text.byteLength text ≤ maxOffset)
    (hstands : Text.StandsAt text (c :: rest) m.offset) (hopened : m.Opened text m.pos)
    (hc : (Reading.of c rest).char = '&')
    (htell : ∀ c, (tell c).Lies text m.pos ∧ (tell c).clock m.pos = m.pos) :
    m.Ticks text (m.takeReference (Reading.of c rest) tell) := by
  have hnext : ∀ {r : Reading} (chars : List Char), m.Before text r →
      m.Ticks text (m.take r m.state (chars.map tell)) := by
    intro r chars hbefore
    have hle : m.pos ≤ m.posAfter r := by
      have := hbefore.width
      omega
    exact take_ticks rfl (fun hstate => (hopened.mono hle) hstate) (lieAll_map htell hle)
  rw [takeReference]
  split
  · next chars whole hsome =>
    obtain ⟨body, hbody, hbytes⟩ := reference?_reads hc hsome
    exact hnext chars (before_of_reads hlength hstands hbody hbytes.symm)
  · obtain ⟨piece, hpiece, hwidth⟩ := Reading.of_reads c rest
    exact hnext ['&'] (before_of_reads hlength hstands hpiece hwidth)

theorem stepMarkupDeclaration_ticks {c : Char} {rest : List Char}
    (hlength : Text.byteLength text ≤ maxOffset)
    (hstands : Text.StandsAt text (c :: rest) m.offset)
    (hopen : m.tagStart + 1 ≤ m.pos ∧ Text.Cut text m.tagStart) :
    m.Ticks text (m.stepMarkupDeclaration (Reading.of c rest)) := by
  have hnext : ∀ {r : Reading} {state : State} {events : List Event}, m.Before text r →
      LieAll text m.pos events (m.posAfter r) → m.Ticks text (m.take r state events) := by
    intro r state events hbefore hevents
    have hle := hbefore.width
    exact take_ticks rfl (fun _ => ⟨by omega, hopen.2⟩) hevents
  have hle : ∀ {r : Reading}, m.Before text r → m.pos ≤ m.posAfter r := fun hbefore =>
    hbefore.width ▸ Nat.le_add_right _ _
  rw [stepMarkupDeclaration]
  split
  -- Two dashes open a comment, and are read at once.
  · next after hc hrest =>
    have hplain : Reading.of c rest = ⟨c, c.utf8Size, rest⟩ :=
      Reading.of_eq (by rw [hc]; decide)
    rw [hplain] at hc hrest ⊢
    obtain rfl : c = '-' := hc
    obtain rfl : rest = '-' :: after := hrest
    have hpiece : '-' :: '-' :: after = ['-', '-'] ++ after := rfl
    have hbefore : m.Before text ⟨'-', '-'.utf8Size + 1, after⟩ :=
      before_of_reads hlength hstands hpiece rfl
    exact hnext hbefore ⟨hopen, hle hbefore⟩
  · obtain ⟨piece, hpiece, hwidth⟩ := Reading.of_reads c rest
    have hbefore := before_of_reads hlength hstands hpiece hwidth
    exact hnext hbefore (hle hbefore)

/-- The events of a step come one after the other, between characters of the text. -/
theorem step_ticks {c : Char} {rest : List Char} (hlength : Text.byteLength text ≤ maxOffset)
    (hstands : Text.StandsAt text (c :: rest) m.offset) (hopened : m.Opened text m.pos) :
    m.Ticks text (m.step c rest) := by
  obtain ⟨piece, hpiece, hwidth⟩ := Reading.of_reads c rest
  have hbefore := before_of_reads hlength hstands hpiece hwidth
  have hcut := hbefore.cut
  have hafter := hbefore.after
  have hreads := hbefore.width
  have hsize := Reading.utf8Size_le c rest
  have hpositive := (Reading.of c rest).char.utf8Size_pos
  have hle : m.pos ≤ m.posAfter (Reading.of c rest) := by omega
  have hname : m.pos + (Reading.of c rest).char.utf8Size ≤ m.posAfter (Reading.of c rest) := by
    omega
  rw [step]
  cases hs : m.state
  case beforeData =>
    simp only [stepBeforeData]
    split
    · exact hbefore.openTag (by omega) ⟨⟨Nat.le_refl _, hcut⟩, hle⟩
    split
    · exact take_ticks rfl (fun hstate => by cases hstate) ⟨⟨hle, hafter⟩, Nat.le_refl _⟩
    · exact ⟨⟨⟨Nat.le_refl _, hcut⟩, Nat.le_refl _⟩, fun hstate => by cases hstate⟩
  case data =>
    simp only [stepData]
    split
    · exact hbefore.openTag (by omega) ⟨⟨Nat.le_refl _, hcut⟩, ⟨Nat.le_refl _, hcut⟩, hle⟩
    split
    · next hc =>
      exact takeReference_ticks hlength hstands hopened hc.1 fun c => ⟨trivial, rfl⟩
    · exact take_ticks rfl (fun hstate => by cases hstate) ⟨trivial, hle⟩
  -- In all other states a tag or comment is open, and stays so until it ends.
  all_goals obtain ⟨hopen, hopenCut⟩ := hopened (by rw [hs]; rfl)
  case markupDeclarationOpen => exact stepMarkupDeclaration_ticks hlength hstands ⟨hopen, hopenCut⟩
  all_goals
    simp only [stepTagOpen, stepEndTagOpen, stepCommentStart, stepCommentStartDash, stepComment,
      stepCommentEndDash, stepCommentEnd, stepTagName, stepEndTagName, stepBeforeAttributeName,
      stepAttributeName, stepAfterAttributeName, stepBeforeAttributeValue, stepQuotedValue,
      stepUnquotedValue, stepAfterQuotedValue, stepSelfClosing, closeTag, closeComment, startName,
      takeNameChar, emptyValue]
    repeat' split
  -- What is read at once, what is a reference, and what is handed on.
  all_goals first
    | refine take_ticks rfl (fun _ => ⟨Nat.le_trans hopen hle, hopenCut⟩) ?_
      simp only [List.cons_append, List.nil_append, LieAll, Event.Lies, Event.clock, Nat.le_refl,
        hcut, hafter, hle, hname, hopen, hopenCut, and_self]
      done
    | exact take_ticks rfl (fun _ => ⟨Nat.le_trans hopen hle, hopenCut⟩)
        ⟨⟨hle, hafter⟩, Nat.le_refl _⟩
    | exact takeReference_ticks hlength hstands hopened ‹_› fun c => ⟨⟨Nat.le_refl _, hcut⟩, rfl⟩
    | exact ⟨Nat.le_refl _, fun _ => ⟨hopen, hopenCut⟩⟩
    | exact ⟨⟨⟨Nat.le_refl _, hcut⟩, Nat.le_refl _⟩, fun _ => ⟨hopen, hopenCut⟩⟩

/-- The end of a piece of text closes a run of text. -/
theorem flush_lieAll (hcut : Text.Cut text m.pos) : LieAll text m.pos m.flush.2 m.pos := by
  rw [flush]
  split
  · exact ⟨⟨Nat.le_refl _, hcut⟩, Nat.le_refl _⟩
  · exact Nat.le_refl _

theorem flush_opened {n : Nat} (h : m.Opened text n) : m.flush.1.Opened text n := by
  rw [flush]
  split
  · exact fun hstate => by cases hstate
  · exact h

end Machine

end Markup

end TemplateCompiler
