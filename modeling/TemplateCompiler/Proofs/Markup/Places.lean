/-
The positions of the events of the markup reader.

* `Place` — how far events have come, and where the tag, comment or text that is
  open was opened;
* `Event.Fits`, `Event.move` — an event may come at a place, and leads to another;
* `FitAll`, `moveAll` — the same for events one after the other;
* `Event.Tells` — the events that leave open what is open;
* `Machine.At`, `Machine.InTag` — the reader stands at a place, or at one inside of
  a tag or comment;
* `Machine.step_moves`, `Machine.flush_moves` — the events of a step fit, and lead
  to the place where the reader stands next;
* `Machine.read_offset` — how far a piece of text leads.

Positions never go back, with one exception: what begins a tag or a comment is told
once its first letters are known, and names the angle bracket that was passed
before.  A place keeps that position apart.
-/
import TemplateCompiler.Proofs.Markup.Reading

namespace TemplateCompiler.Markup

open List (forall_mem_nil forall_mem_cons forall_mem_singleton forall_mem_append)

/-- A place between two events. -/
structure Place where
  /-- Whether a run of text is open. -/
  running : Bool
  /-- Where the run of text starts, or the tag or comment that is open. -/
  opened : Nat
  /-- How far the events have come. -/
  reached : Nat

/-- Whether an event may come at a place. -/
def Event.Fits (p : Place) : Event → Prop
  | .reset => False
  | .finishData pos => p.running = true ∧ p.reached ≤ pos
  | .tagOpen pos | .beginData pos | .finishComment pos | .finishTag pos =>
    p.running = false ∧ p.reached ≤ pos
  | .beginComment pos | .beginStartTag pos | .beginEndTag pos =>
    p.running = false ∧ pos = p.opened
  | .beginAttribute pos | .beginAttributeValue _ pos | .attributeValue _ pos
  | .finishAttributeValue pos | .problem _ pos => p.reached ≤ pos
  | .data _ | .commentData _ | .tagName _ | .selfClosing | .attributeName _ => True

/-- The place after an event. -/
def Event.move (p : Place) : Event → Place
  | .beginData pos => ⟨true, pos, pos⟩
  | .finishData pos | .tagOpen pos | .finishComment pos | .finishTag pos => ⟨false, pos, pos⟩
  | .beginAttribute pos | .beginAttributeValue _ pos | .attributeValue _ pos
  | .finishAttributeValue pos | .problem _ pos => { p with reached := pos }
  | _ => p

/-- The place after events, one after the other. -/
def moveAll (p : Place) (events : List Event) : Place := events.foldl Event.move p

/-- Events may come one after the other, and come no further than a position. -/
def FitAll (p : Place) : List Event → Nat → Prop
  | [], hi => p.reached ≤ hi
  | e :: rest, hi => e.Fits p ∧ FitAll (e.move p) rest hi

/-- An event that is told at a position, and leaves open what is open. -/
def Event.Tells (running : Bool) (opened pos : Nat) : Event → Prop
  | .data _ | .commentData _ | .tagName _ | .selfClosing | .attributeName _ => True
  | .beginComment q | .beginStartTag q | .beginEndTag q => running = false ∧ q = opened
  | .beginAttribute q | .beginAttributeValue _ q | .attributeValue _ q
  | .finishAttributeValue q | .problem _ q => q = pos
  | _ => False

theorem Event.Tells.fits {e : Event} {p : Place} {pos : Nat}
    (h : e.Tells p.running p.opened pos) (hpos : p.reached ≤ pos) :
    e.Fits p ∧ (e.move p).running = p.running ∧ (e.move p).opened = p.opened ∧
      (e.move p).reached ≤ pos := by
  cases e with
  | data c => exact ⟨trivial, rfl, rfl, hpos⟩
  | commentData c => exact ⟨trivial, rfl, rfl, hpos⟩
  | tagName c => exact ⟨trivial, rfl, rfl, hpos⟩
  | selfClosing => exact ⟨trivial, rfl, rfl, hpos⟩
  | attributeName c => exact ⟨trivial, rfl, rfl, hpos⟩
  | beginComment q => exact ⟨h, rfl, rfl, hpos⟩
  | beginStartTag q => exact ⟨h, rfl, rfl, hpos⟩
  | beginEndTag q => exact ⟨h, rfl, rfl, hpos⟩
  | beginAttribute q =>
    obtain rfl : q = pos := h
    exact ⟨hpos, rfl, rfl, Nat.le_refl _⟩
  | beginAttributeValue quoted q =>
    obtain rfl : q = pos := h
    exact ⟨hpos, rfl, rfl, Nat.le_refl _⟩
  | attributeValue c q =>
    obtain rfl : q = pos := h
    exact ⟨hpos, rfl, rfl, Nat.le_refl _⟩
  | finishAttributeValue q =>
    obtain rfl : q = pos := h
    exact ⟨hpos, rfl, rfl, Nat.le_refl _⟩
  | problem problem q =>
    obtain rfl : q = pos := h
    exact ⟨hpos, rfl, rfl, Nat.le_refl _⟩
  | reset | tagOpen pos | beginData pos | finishData pos | finishComment pos | finishTag pos =>
    exact h.elim

/-- Events that are told at one position, and what may follow them. -/
theorem fitAll_append {p : Place} {events rest : List Event} {pos hi : Nat}
    (hpos : p.reached ≤ pos) (hevents : ∀ e ∈ events, e.Tells p.running p.opened pos)
    (hrest : ∀ q : Place, q.running = p.running → q.opened = p.opened → q.reached ≤ pos →
      FitAll q rest hi) : FitAll p (events ++ rest) hi := by
  induction events generalizing p with
  | nil => exact hrest p rfl rfl hpos
  | cons e events ih =>
    obtain ⟨he, hevents⟩ := forall_mem_cons.mp hevents
    obtain ⟨hfits, hrunning, hopened, hreached⟩ := he.fits hpos
    refine ⟨hfits, ih hreached ?_ fun q hq hq' => hrest q (hq.trans hrunning) (hq'.trans hopened)⟩
    rw [hrunning, hopened]
    exact hevents

theorem moveAll_tells {p : Place} {events : List Event} {pos : Nat} (hpos : p.reached ≤ pos)
    (hevents : ∀ e ∈ events, e.Tells p.running p.opened pos) :
    (moveAll p events).running = p.running ∧ (moveAll p events).opened = p.opened := by
  induction events generalizing p with
  | nil => exact ⟨rfl, rfl⟩
  | cons e events ih =>
    obtain ⟨he, hevents⟩ := forall_mem_cons.mp hevents
    obtain ⟨-, hrunning, hopened, hreached⟩ := he.fits hpos
    rw [← hrunning, ← hopened] at hevents ⊢
    exact ih hreached hevents

namespace Machine

/-- The reader stands at a place. -/
structure At (m : Machine) (p : Place) : Prop where
  running : p.running = decide (m.state = .data)
  opened : m.state.isData = false → p.opened = m.tagStart
  reached : p.reached ≤ m.pos

/-- The events of a step fit, and lead to the place where the reader stands next. -/
structure Moves (p : Place) (next : Step) : Prop where
  fits : FitAll p next.events next.machine.pos
  at_next : next.machine.At { moveAll p next.events with reached := next.machine.pos }

theorem pos_le_posAfter (m : Machine) (r : Reading) : m.pos ≤ m.posAfter r := by
  rw [pos, posAfter]
  omega

/-- A step that tells what it reads at one position, and leaves open what is open. -/
theorem moves_of_tells {p : Place} {next : Step} {pos : Nat} (hreached : p.reached ≤ pos)
    (hpos : pos ≤ next.machine.pos) (hevents : ∀ e ∈ next.events, e.Tells p.running p.opened pos)
    (hrunning : p.running = decide (next.machine.state = .data))
    (hopened : next.machine.state.isData = false → p.opened = next.machine.tagStart) :
    Moves p next := by
  have hfit : FitAll p (next.events ++ []) next.machine.pos :=
    fitAll_append hreached hevents fun q _ _ hq => Nat.le_trans hq hpos
  rw [List.append_nil] at hfit
  obtain ⟨hrunning', hopened'⟩ := moveAll_tells hreached hevents
  exact ⟨hfit, hrunning'.trans hrunning, fun hstate => hopened'.trans (hopened hstate),
    Nat.le_refl _⟩

/-- A reference is told at the position of its ampersand. -/
theorem takeReference_moves {m : Machine} {p : Place} {tell : Char → Event} (h : m.At p)
    (htell : ∀ c, (tell c).Tells p.running p.opened m.pos) (r : Reading) :
    Moves p (m.takeReference r tell) := by
  rw [takeReference]
  split
  · refine moves_of_tells h.reached (m.pos_le_posAfter _) (fun e he => ?_) h.running h.opened
    obtain ⟨c, -, rfl⟩ := List.mem_map.mp he
    exact htell c
  · exact moves_of_tells h.reached (m.pos_le_posAfter _)
      (forall_mem_singleton.mpr (htell '&')) h.running h.opened

/-! ### Inside of tags and comments -/

/-- The reader stands at a place inside of a tag or comment. -/
structure InTag (m : Machine) (p : Place) : Prop where
  running : p.running = false
  opened : p.opened = m.tagStart
  reached : p.reached ≤ m.pos

namespace InTag

variable {m : Machine} {p : Place} {r : Reading} {state : State} {events : List Event}

theorem tells (h : m.InTag p) (hevents : ∀ e ∈ events, e.Tells false m.tagStart m.pos) :
    ∀ e ∈ events, e.Tells p.running p.opened m.pos := by
  rw [h.running, h.opened]
  exact hevents

theorem running_eq (h : m.InTag p) (hstate : state.isData = false) :
    p.running = decide (state = .data) := by
  rw [h.running]
  refine (decide_eq_false ?_).symm
  rintro rfl
  cases hstate

theorem take (h : m.InTag p) (hstate : state.isData = false)
    (hevents : ∀ e ∈ events, e.Tells false m.tagStart m.pos) : Moves p (m.take r state events) :=
  moves_of_tells h.reached (m.pos_le_posAfter r) (h.tells hevents) (h.running_eq hstate)
    fun _ => h.opened

theorem skip (h : m.InTag p) (hstate : state.isData = false) : Moves p (m.take r state []) :=
  h.take hstate (forall_mem_nil _)

theorem hand {input : List Char} (h : m.InTag p) (hstate : state.isData = false)
    (hevents : ∀ e ∈ events, e.Tells false m.tagStart m.pos) :
    Moves p (m.hand input state events) :=
  moves_of_tells h.reached (Nat.le_refl _) (h.tells hevents) (h.running_eq hstate)
    fun _ => h.opened

theorem takeNameChar (h : m.InTag p) (hstate : state.isData = false)
    (hevents : ∀ e ∈ events, e.Tells false m.tagStart m.pos) :
    Moves p (m.takeNameChar r state events) := by
  have hin : Machine.InTag { m with tagName := m.tagName.push r.char } p :=
    ⟨h.running, h.opened, h.reached⟩
  exact hin.take hstate (forall_mem_append.mpr
    ⟨hevents, forall_mem_singleton.mpr trivial⟩)

theorem startName {event : Event} (h : m.InTag p) (hstate : state.isData = false)
    (hevent : event.Tells false m.tagStart m.pos) : Moves p (m.startName r state event) := by
  have hin : Machine.InTag { m with tagName := "" } p := ⟨h.running, h.opened, h.reached⟩
  exact hin.takeNameChar hstate (forall_mem_singleton.mpr hevent)

/-- The bracket that ends a tag. -/
theorem closeTag (h : m.InTag p) (hevents : ∀ e ∈ events, e.Tells false m.tagStart m.pos) :
    Moves p (m.closeTag r events) := by
  have hfit : FitAll p (events ++ [.finishTag (m.posAfter r)]) (m.posAfter r) :=
    fitAll_append h.reached (h.tells hevents) fun q hq _ hreached =>
      ⟨⟨hq.trans h.running, Nat.le_trans hreached (m.pos_le_posAfter r)⟩, Nat.le_refl _⟩
  refine ⟨hfit, ?_, fun hstate => (by cases hstate), Nat.le_refl _⟩
  show (moveAll p (events ++ [.finishTag (m.posAfter r)])).running = false
  rw [moveAll, List.foldl_append]
  rfl

/-- The bracket that ends a comment. -/
theorem closeComment (h : m.InTag p) : Moves p (m.closeComment r) :=
  ⟨⟨⟨h.running, Nat.le_trans h.reached (m.pos_le_posAfter r)⟩, Nat.le_refl _⟩, rfl,
    fun hstate => (by cases hstate), Nat.le_refl _⟩

/-- The quote that ends a value. -/
theorem closeQuote (h : m.InTag p) :
    Moves p (m.take r .afterAttributeValueQuoted [.finishAttributeValue (m.posAfter r)]) :=
  moves_of_tells (Nat.le_trans h.reached (m.pos_le_posAfter r)) (Nat.le_refl _)
    (forall_mem_singleton.mpr rfl) (h.running_eq rfl) fun _ => h.opened

theorem at_place (h : m.InTag p) (hdata : m.state.isData = false) : m.At p :=
  ⟨h.running_eq hdata, fun _ => h.opened, h.reached⟩

theorem emptyValue_tells : ∀ e ∈ m.emptyValue, e.Tells false m.tagStart m.pos := by
  exact forall_mem_cons.mpr ⟨rfl, forall_mem_singleton.mpr rfl⟩

end InTag

section

variable {m : Machine} {p : Place}

theorem stepTagOpen_moves (h : m.InTag p) (r : Reading) : Moves p (m.stepTagOpen r) := by
  rw [stepTagOpen]
  split
  · exact h.skip rfl
  split
  · exact h.skip rfl
  split
  · exact h.startName rfl ⟨rfl, rfl⟩
  · exact h.skip rfl

theorem stepEndTagOpen_moves (h : m.InTag p) (r : Reading) : Moves p (m.stepEndTagOpen r) := by
  rw [stepEndTagOpen]
  split
  · exact h.startName rfl ⟨rfl, rfl⟩
  · exact h.skip rfl

theorem stepMarkupDeclaration_moves (h : m.InTag p) (r : Reading) :
    Moves p (m.stepMarkupDeclaration r) := by
  rw [stepMarkupDeclaration]
  split
  · exact h.take rfl (forall_mem_singleton.mpr ⟨rfl, rfl⟩)
  · exact h.skip rfl

theorem stepCommentStart_moves (h : m.InTag p) (r : Reading) :
    Moves p (m.stepCommentStart r) := by
  rw [stepCommentStart]
  split
  · exact h.skip rfl
  split
  · exact h.closeComment
  · exact h.take rfl (forall_mem_singleton.mpr trivial)

theorem stepCommentStartDash_moves (h : m.InTag p) (r : Reading) :
    Moves p (m.stepCommentStartDash r) := by
  rw [stepCommentStartDash]
  split
  · exact h.skip rfl
  split
  · exact h.closeComment
  · exact h.take rfl (forall_mem_singleton.mpr trivial)

theorem stepComment_moves (h : m.InTag p) (r : Reading) : Moves p (m.stepComment r) := by
  rw [stepComment]
  split
  · exact h.skip rfl
  · exact h.take rfl (forall_mem_singleton.mpr trivial)

theorem stepCommentEndDash_moves (h : m.InTag p) (r : Reading) :
    Moves p (m.stepCommentEndDash r) := by
  rw [stepCommentEndDash]
  split
  · exact h.skip rfl
  · exact h.take rfl (forall_mem_cons.mpr ⟨trivial, forall_mem_singleton.mpr trivial⟩)

theorem stepCommentEnd_moves (h : m.InTag p) (r : Reading) : Moves p (m.stepCommentEnd r) := by
  rw [stepCommentEnd]
  split
  · exact h.closeComment
  · refine h.take rfl (forall_mem_cons.mpr ⟨trivial, forall_mem_cons.mpr ⟨trivial, ?_⟩⟩)
    exact forall_mem_singleton.mpr trivial

theorem stepTagName_moves (h : m.InTag p) (r : Reading) : Moves p (m.stepTagName r) := by
  rw [stepTagName]
  split
  · exact h.skip rfl
  split
  · exact h.skip rfl
  split
  · exact h.closeTag (forall_mem_nil _)
  · exact h.takeNameChar rfl (forall_mem_nil _)

theorem stepEndTagName_moves (h : m.InTag p) (r : Reading) : Moves p (m.stepEndTagName r) := by
  have hforgets : Machine.InTag { m with tagName := "" } p := ⟨h.running, h.opened, h.reached⟩
  rw [stepEndTagName]
  split
  · exact hforgets.skip rfl
  split
  · exact hforgets.skip rfl
  split
  · exact hforgets.closeTag (forall_mem_nil _)
  · exact h.takeNameChar rfl (forall_mem_nil _)

theorem stepBeforeAttributeName_moves (h : m.InTag p) (input : List Char) (r : Reading) :
    Moves p (m.stepBeforeAttributeName input r) := by
  rw [stepBeforeAttributeName]
  split
  · exact h.skip rfl
  split
  · exact h.skip rfl
  split
  · exact h.closeTag (forall_mem_nil _)
  split
  · refine h.take rfl (forall_mem_cons.mpr ⟨rfl, forall_mem_cons.mpr ⟨rfl, ?_⟩⟩)
    exact forall_mem_singleton.mpr trivial
  · exact h.hand rfl (forall_mem_singleton.mpr rfl)

theorem stepAttributeName_moves (h : m.InTag p) (r : Reading) :
    Moves p (m.stepAttributeName r) := by
  rw [stepAttributeName]
  split
  · exact h.skip rfl
  split
  · exact h.take rfl InTag.emptyValue_tells
  split
  · exact h.skip rfl
  split
  · exact h.closeTag InTag.emptyValue_tells
  split
  · exact h.take rfl (forall_mem_cons.mpr ⟨rfl, forall_mem_singleton.mpr trivial⟩)
  · exact h.take rfl (forall_mem_singleton.mpr trivial)

theorem stepAfterAttributeName_moves (h : m.InTag p) (r : Reading) :
    Moves p (m.stepAfterAttributeName r) := by
  rw [stepAfterAttributeName]
  split
  · exact h.skip rfl
  split
  · exact h.take rfl InTag.emptyValue_tells
  split
  · exact h.skip rfl
  split
  · exact h.closeTag InTag.emptyValue_tells
  · refine h.take rfl (forall_mem_append.mpr ⟨InTag.emptyValue_tells, ?_⟩)
    exact forall_mem_cons.mpr ⟨rfl, forall_mem_singleton.mpr trivial⟩

theorem stepBeforeAttributeValue_moves (h : m.InTag p) (r : Reading) :
    Moves p (m.stepBeforeAttributeValue r) := by
  rw [stepBeforeAttributeValue]
  split
  · exact h.skip rfl
  split
  · exact h.take rfl (forall_mem_singleton.mpr rfl)
  split
  · exact h.take rfl (forall_mem_singleton.mpr rfl)
  split
  · exact h.closeTag InTag.emptyValue_tells
  · exact h.take rfl (forall_mem_cons.mpr ⟨rfl, forall_mem_singleton.mpr rfl⟩)

theorem stepQuotedValue_moves (h : m.InTag p) (hdata : m.state.isData = false) (quote : Char)
    (r : Reading) : Moves p (m.stepQuotedValue quote r) := by
  rw [stepQuotedValue]
  split
  · exact h.closeQuote
  split
  · refine takeReference_moves (h.at_place hdata) (fun c => ?_) r
    exact rfl
  · exact h.take hdata (forall_mem_singleton.mpr rfl)

theorem stepUnquotedValue_moves (h : m.InTag p) (hdata : m.state.isData = false) (r : Reading) :
    Moves p (m.stepUnquotedValue r) := by
  rw [stepUnquotedValue]
  split
  · exact h.take rfl (forall_mem_singleton.mpr rfl)
  split
  · exact h.take rfl (forall_mem_singleton.mpr rfl)
  split
  · refine takeReference_moves (h.at_place hdata) (fun c => ?_) r
    exact rfl
  split
  · exact h.closeTag (forall_mem_singleton.mpr rfl)
  · exact h.take rfl (forall_mem_singleton.mpr rfl)

theorem stepAfterQuotedValue_moves (h : m.InTag p) (input : List Char) (r : Reading) :
    Moves p (m.stepAfterQuotedValue input r) := by
  rw [stepAfterQuotedValue]
  split
  · exact h.skip rfl
  split
  · exact h.skip rfl
  split
  · exact h.closeTag (forall_mem_nil _)
  · exact h.hand rfl (forall_mem_nil _)

theorem stepSelfClosing_moves (h : m.InTag p) (input : List Char) (r : Reading) :
    Moves p (m.stepSelfClosing input r) := by
  rw [stepSelfClosing]
  split
  · exact h.closeTag (forall_mem_singleton.mpr trivial)
  · exact h.hand rfl (forall_mem_nil _)

/-! ### Between tags -/

theorem stepBeforeData_moves (h : m.At p) (hrunning : p.running = false) (input : List Char)
    (r : Reading) : Moves p (m.stepBeforeData input r) := by
  have hpos := Nat.le_trans h.reached (m.pos_le_posAfter r)
  rw [stepBeforeData]
  split
  · exact ⟨⟨⟨hrunning, h.reached⟩, m.pos_le_posAfter r⟩, rfl, fun _ => rfl, Nat.le_refl _⟩
  split
  · exact ⟨⟨⟨hrunning, hpos⟩, Nat.le_refl _⟩, rfl, fun hstate => (by cases hstate), Nat.le_refl _⟩
  · exact ⟨⟨⟨hrunning, h.reached⟩, Nat.le_refl _⟩, rfl, fun hstate => (by cases hstate),
      Nat.le_refl _⟩

theorem stepData_moves (h : m.At p) (hrunning : p.running = true) (input : List Char)
    (r : Reading) : Moves p (m.stepData input r) := by
  rw [stepData]
  split
  · exact ⟨⟨⟨hrunning, h.reached⟩, ⟨rfl, Nat.le_refl _⟩, m.pos_le_posAfter r⟩, rfl, fun _ => rfl,
      Nat.le_refl _⟩
  split
  · refine takeReference_moves h (fun c => ?_) r
    exact trivial
  · exact moves_of_tells h.reached (m.pos_le_posAfter r) (forall_mem_singleton.mpr trivial)
      hrunning fun hstate => (by cases hstate)

/-- A step of the reader moves on in place. -/
theorem step_moves (h : m.At p) (c : Char) (rest : List Char) : Moves p (m.step c rest) := by
  -- Everywhere but in text no run is open, and the machine is in what it opened.
  have hin : ∀ {state : State}, m.state = state → state.isData = false → m.InTag p := by
    rintro state rfl hdata
    refine ⟨h.running.trans (decide_eq_false ?_), h.opened hdata, h.reached⟩
    intro hs
    rw [hs] at hdata
    cases hdata
  rw [step]
  cases hs : m.state with
  | beforeData => exact stepBeforeData_moves h (h.running.trans (by rw [hs]; rfl)) _ _
  | data => exact stepData_moves h (h.running.trans (by rw [hs]; rfl)) _ _
  | tagOpen => exact stepTagOpen_moves (hin hs rfl) _
  | markupDeclarationOpen => exact stepMarkupDeclaration_moves (hin hs rfl) _
  | commentStart => exact stepCommentStart_moves (hin hs rfl) _
  | commentStartDash => exact stepCommentStartDash_moves (hin hs rfl) _
  | comment => exact stepComment_moves (hin hs rfl) _
  | commentEndDash => exact stepCommentEndDash_moves (hin hs rfl) _
  | commentEnd => exact stepCommentEnd_moves (hin hs rfl) _
  | tagName => exact stepTagName_moves (hin hs rfl) _
  | endTagName => exact stepEndTagName_moves (hin hs rfl) _
  | beforeAttributeName => exact stepBeforeAttributeName_moves (hin hs rfl) _ _
  | attributeName => exact stepAttributeName_moves (hin hs rfl) _
  | afterAttributeName => exact stepAfterAttributeName_moves (hin hs rfl) _
  | beforeAttributeValue => exact stepBeforeAttributeValue_moves (hin hs rfl) _
  | attributeValueDoubleQuoted => exact stepQuotedValue_moves (hin hs rfl) (hs ▸ rfl) _ _
  | attributeValueSingleQuoted => exact stepQuotedValue_moves (hin hs rfl) (hs ▸ rfl) _ _
  | attributeValueUnquoted => exact stepUnquotedValue_moves (hin hs rfl) (hs ▸ rfl) _
  | afterAttributeValueQuoted => exact stepAfterQuotedValue_moves (hin hs rfl) _ _
  | selfClosingStartTag => exact stepSelfClosing_moves (hin hs rfl) _ _
  | endTagOpen => exact stepEndTagOpen_moves (hin hs rfl) _

end

/-- A run of text is closed where the reader stands. -/
theorem flush_moves {m : Machine} {p : Place} (h : m.At p) :
    FitAll p m.flush.2 m.pos ∧ m.flush.1.At { moveAll p m.flush.2 with reached := m.pos } := by
  rw [flush]
  split
  · next hdata =>
    have hrunning : p.running = true := by rw [h.running, hdata]; rfl
    exact ⟨⟨⟨hrunning, h.reached⟩, Nat.le_refl _⟩, rfl, fun hstate => (by cases hstate),
      Nat.le_refl _⟩
  · exact ⟨h.reached, h.running, h.opened, Nat.le_refl _⟩

theorem flush_state_ne_data (m : Machine) : m.flush.1.state ≠ .data := by
  rw [flush]
  split
  · simp
  · next hdata => exact hdata

/-- A piece of text is read to its end. -/
theorem read_offset (m : Machine) (input : List Char) :
    (m.read input).1.offset = m.offset + Text.byteLength input := by
  fun_induction read m input with
  -- The piece is used up.
  | case1 m => rfl
  -- One step, and then the rest.
  | case2 m c rest next result ih =>
    obtain ⟨piece, hpiece, hoffset⟩ := (m.step_reads c rest).piece
    show result.1.offset = _
    rw [ih, hpiece, Text.byteLength_append, hoffset, Nat.add_assoc]

end Machine

end TemplateCompiler.Markup
