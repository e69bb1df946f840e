/-
A text is read to its end, whatever state the reader is in.

A reader is handed the text that is left, and counts offsets in the source.  Here it is followed
with all the text that it was given since it was reset, and with the byte of this text that it
reads next.  The byte moves by what the reader counts.

* `Buffered` — a reader with its text;
* `Buffered.step?`, `Buffered.after` — one step, and a number of steps one after the other;
* `Buffered.next_progress` — a step moves the byte to another character, or lowers the rank of the
  state;
* `Buffered.after_reads` — the steps end at the end of the text, where `Machine.read` ends;
* `Buffered.Reached` — what any calls lead to; there the offset of the reader is that of the byte
  (`Reached.sound`);
* `reads_all` — the three together.
-/
import TemplateCompiler.Proofs.Markup.Reading
import TemplateCompiler.Proofs.Source.Places

namespace TemplateCompiler.Markup

/-- A reader with the text that it was given. -/
structure Buffered where
  machine : Machine
  /-- Every piece of text since the last reset. -/
  text : List Char := []
  /-- The byte of the text that is read next. -/
  index : Nat := 0
  /-- The byte of the text from which on offsets in the source are known. -/
  pieceStart : Nat := 0
  /-- The offset of this byte in the source. -/
  pieceOffset : Nat := 0
  told : List Event := []

namespace Buffered

/-! ### Steps -/

/-- The text that is left; none if the byte is inside a character or past the end. -/
def left? (b : Buffered) : Option (List Char) := (Text.splitAtByte? b.text b.index).map Prod.snd

/-- After a step on the text `c :: rest`. -/
def next (b : Buffered) (c : Char) (rest : List Char) : Buffered :=
  let step := b.machine.step c rest
  { b with
    machine := step.machine
    index := b.index + (step.machine.offset - b.machine.offset)
    told := b.told ++ step.events }

/-- One step, if some text is left. -/
def step? (b : Buffered) : Option Buffered :=
  match b.left? with
  | some (c :: rest) => some (b.next c rest)
  | _ => none

/-- After a number of steps, or as many as can be made. -/
def after (b : Buffered) : Nat → Buffered
  | 0 => b
  | n + 1 =>
    match b.step? with
    | some next => next.after n
    | none => b

section

variable {b : Buffered} {c : Char} {rest : List Char}

theorem left?_eq_some : b.left? = some rest ↔
    ∃ before, b.text = before ++ rest ∧ Text.byteLength before = b.index := by
  rw [left?, Option.map_eq_some_iff]
  constructor
  · rintro ⟨⟨before, rest⟩, hsplit, rfl⟩
    exact ⟨before, Text.splitAtByte?_eq_some hsplit⟩
  · rintro ⟨before, htext, hindex⟩
    exact ⟨(before, rest), by rw [htext, ← hindex, Text.splitAtByte?_append], rfl⟩

theorem cut_of_left? (h : b.left? = some rest) : Text.Cut b.text b.index := by
  obtain ⟨before, htext, hindex⟩ := left?_eq_some.mp h
  exact ⟨before, rest, htext, hindex⟩

theorem step?_eq (h : b.left? = some (c :: rest)) : b.step? = some (b.next c rest) := by
  rw [step?, h]

theorem step?_eq_none (h : b.left? = some []) : b.step? = none := by
  rw [step?, h]

theorem after_succ {n : Nat} (h : b.left? = some (c :: rest)) :
    b.after (n + 1) = (b.next c rest).after n := by
  simp only [after, step?_eq h]

/-- The byte moves by the piece that the reader reads. -/
theorem next_piece (b : Buffered) (c : Char) (rest : List Char) :
    ∃ piece, c :: rest = piece ++ (b.machine.step c rest).rest ∧
      (b.next c rest).index = b.index + Text.byteLength piece ∧
      (b.next c rest).machine.offset = b.machine.offset + Text.byteLength piece := by
  obtain ⟨piece, hpiece, hoffset⟩ := (b.machine.step_reads c rest).piece
  refine ⟨piece, hpiece, ?_, hoffset⟩
  show b.index + ((b.machine.step c rest).machine.offset - b.machine.offset) = _
  rw [hoffset, Nat.add_sub_cancel_left]

/-- What is left of the text after a step is what the reader has left. -/
theorem next_left (h : b.left? = some (c :: rest)) :
    (b.next c rest).left? = some (b.machine.step c rest).rest := by
  obtain ⟨before, htext, hindex⟩ := left?_eq_some.mp h
  obtain ⟨piece, hpiece, hnext, -⟩ := b.next_piece c rest
  refine left?_eq_some.mpr ⟨before ++ piece, ?_, ?_⟩
  · show b.text = _
    rw [htext, hpiece, List.append_assoc]
  · rw [Text.byteLength_append, hindex, hnext]

/-- A step moves the byte to another character, or lowers the rank of the state. -/
theorem next_progress (h : b.left? = some (c :: rest)) :
    (b.index < (b.next c rest).index ∧ Text.Cut b.text (b.next c rest).index) ∨
      ((b.next c rest).index = b.index ∧
        (b.next c rest).machine.state.rank < b.machine.state.rank) := by
  obtain ⟨piece, hpiece, hnext, -⟩ := b.next_piece c rest
  rcases b.machine.step_progress c rest with hshorter | ⟨hsame, hrank⟩
  · refine .inl ⟨?_, cut_of_left? (next_left h)⟩
    cases piece with
    | nil =>
      rw [hpiece, List.nil_append] at hshorter
      exact absurd hshorter (Nat.lt_irrefl _)
    | cons d piece =>
      rw [hnext, Text.byteLength_cons]
      have hsize := d.utf8Size_pos
      omega
  · obtain rfl : piece = [] := by
      rw [hsame] at hpiece
      exact List.self_eq_append_left.mp hpiece
    exact .inr ⟨hnext, hrank⟩

end

/-! ### All steps on a text -/

/-- A reader that has read all of its text. -/
def readOut (b : Buffered) (rest : List Char) : Buffered :=
  { b with
    machine := (b.machine.read rest).1
    index := Text.byteLength b.text
    told := b.told ++ (b.machine.read rest).2 }

/-- The steps end at the end of the text; no character takes more than three of them. -/
theorem after_reads {b : Buffered} {rest : List Char} (h : b.left? = some rest) :
    ∃ n ≤ 3 * rest.length, b.after n = b.readOut rest := by
  -- Where the rank is low fewer steps are left for the first character.
  suffices hall : ∀ (m : Machine) (input : List Char) (b : Buffered), b.machine = m →
      b.left? = some input → ∃ n ≤ 3 * input.length + m.state.rank - 2,
        b.after n = b.readOut input by
    obtain ⟨n, hn, hafter⟩ := hall b.machine rest b rfl h
    have hrank := b.machine.state.rank_le
    exact ⟨n, by omega, hafter⟩
  clear h
  intro m input
  fun_induction Machine.read m input with
  -- The piece is used up.
  | case1 m =>
    rintro b rfl hleft
    obtain ⟨before, htext, hindex⟩ := left?_eq_some.mp hleft
    rw [List.append_nil] at htext
    refine ⟨0, Nat.zero_le _, ?_⟩
    rw [after, readOut, Machine.read, List.append_nil, htext, hindex, ← htext]
  -- One step, and then the rest.
  | case2 m c rest next result ih =>
    rintro b rfl hleft
    obtain ⟨n, hn, hafter⟩ := ih (b.next c rest) rfl (next_left hleft)
    refine ⟨n + 1, ?_, ?_⟩
    · have hlow := next.machine.state.rank_le
      rcases b.machine.step_progress c rest with hshorter | ⟨hsame, hrank⟩
      · have hshorter' : next.rest.length < (c :: rest).length := hshorter
        omega
      · have hsame' : next.rest.length = (c :: rest).length := congrArg List.length hsame
        have hrank' : next.machine.state.rank < b.machine.state.rank := hrank
        rw [List.length_cons] at hsame'
        rw [List.length_cons]
        omega
    · rw [after_succ hleft, hafter, readOut, readOut, Machine.read, ← List.append_assoc]
      rfl

/-! ### Calls -/

/-- What can be asked of a reader between two steps over its text. -/
inductive Call where
  | moveTo (offset : Nat)
  | reset
  | force (state : State)
  | resolveBy (resolver : Resolver)
  | flush
  | feed (text : List Char)

/-- After a call. -/
def call (b : Buffered) : Call → Buffered
  | .moveTo offset =>
    { b with
      machine := b.machine.moveTo offset
      pieceStart := Text.byteLength b.text
      pieceOffset := offset }
  | .reset => { machine := b.machine.reset.1, told := b.told ++ b.machine.reset.2 }
  | .force state => { b with machine := { b.machine with state } }
  | .resolveBy resolver => { b with machine := { b.machine with resolver } }
  | .flush =>
    { b with machine := b.machine.flush.1, told := b.told ++ b.machine.flush.2 }
  | .feed text => { b with text := b.text ++ text }

/-- What calls lead to, one after the other.  A text that was fed is read to its end before the
next call. -/
inductive Reached : Buffered → Prop
  | new (mode : Mode) : Reached { machine := { mode } }
  | call {b : Buffered} (h : Reached b) (hread : Text.byteLength b.text ≤ b.index) (c : Call) :
    Reached (b.call c)
  | step {b next : Buffered} (h : Reached b) (hstep : b.step? = some next) : Reached next

theorem Reached.after {b : Buffered} (h : Reached b) (n : Nat) : Reached (b.after n) := by
  induction n generalizing b with
  | zero => exact h
  | succ n ih =>
    rw [Buffered.after]
    cases hstep : b.step? with
    | none => exact h
    | some next => exact ih (h.step hstep)

/-- The byte is between two characters and not in front of the last piece, and the offset of the
reader is that of the byte. -/
structure Sound (b : Buffered) : Prop where
  cut : Text.Cut b.text b.index
  start : b.pieceStart ≤ b.index
  offset : b.machine.offset = b.pieceOffset + (b.index - b.pieceStart)

theorem Sound.call {b : Buffered} (h : b.Sound) (hread : Text.byteLength b.text ≤ b.index)
    (c : Call) : (b.call c).Sound := by
  have hend : b.index = Text.byteLength b.text := Nat.le_antisymm h.cut.le hread
  cases c with
  | moveTo offset =>
    refine ⟨h.cut, hread, ?_⟩
    show offset = offset + (b.index - Text.byteLength b.text)
    rw [hend, Nat.sub_self, Nat.add_zero]
  | reset => exact ⟨Text.Cut.zero [], Nat.le_refl 0, rfl⟩
  | force state => exact ⟨h.cut, h.start, h.offset⟩
  | resolveBy resolver => exact ⟨h.cut, h.start, h.offset⟩
  | flush =>
    refine ⟨h.cut, h.start, ?_⟩
    show b.machine.flush.1.offset = _
    rw [Machine.flush]
    split <;> exact h.offset
  | feed text =>
    exact ⟨⟨b.text, text, rfl, hend.symm⟩, h.start, h.offset⟩

theorem Sound.step {b next : Buffered} (h : b.Sound) (hstep : b.step? = some next) :
    next.Sound := by
  rw [step?] at hstep
  split at hstep
  · next c rest hleft =>
    obtain rfl := Option.some.inj hstep
    obtain ⟨piece, -, hindex, hoffset⟩ := b.next_piece c rest
    refine ⟨cut_of_left? (next_left hleft), ?_, ?_⟩
    · rw [hindex]
      exact Nat.le_add_right_of_le h.start
    · show (b.next c rest).machine.offset
        = b.pieceOffset + ((b.next c rest).index - b.pieceStart)
      rw [hoffset, h.offset, hindex, Nat.sub_add_comm h.start, Nat.add_assoc]
  · cases hstep

/-- All calls keep the byte where it can be. -/
theorem Reached.sound {b : Buffered} (h : Reached b) : b.Sound := by
  induction h with
  | new mode => exact ⟨Text.Cut.zero [], Nat.le_refl 0, rfl⟩
  | call h hread c ih => exact ih.call hread c
  | step h hstep ih => exact ih.step hstep

/-- The steps of a reader end, and read all of its text.  In any state, with any name of a tag, any
mode and any resolver, a step on a text that is not empty moves to a later character, or moves to a
state of lower rank; so the steps end, at the end of the text.  After any calls the byte that is
read next is not in front of the last piece. -/
theorem reads_all :
    (∀ s : State, s.rank ≤ 2) ∧
    (∀ (b : Buffered) (c : Char) (rest : List Char), b.left? = some (c :: rest) →
      ∃ next, b.step? = some next ∧ next.text = b.text ∧
        ((b.index < next.index ∧ Text.Cut b.text next.index) ∨
          (next.index = b.index ∧ next.machine.state.rank < b.machine.state.rank))) ∧
    (∀ (b : Buffered) (rest : List Char), b.left? = some rest →
      ∃ n ≤ 3 * rest.length, b.after n = b.readOut rest ∧ (b.after n).step? = none ∧
        (b.after n).index = Text.byteLength b.text) ∧
    ∀ b : Buffered, Reached b → Text.Cut b.text b.index ∧ b.pieceStart ≤ b.index ∧
      b.machine.offset = b.pieceOffset + (b.index - b.pieceStart) := by
  refine ⟨State.rank_le, fun b c rest hleft => ?_, fun b rest hleft => ?_, fun b hb => ?_⟩
  · exact ⟨b.next c rest, step?_eq hleft, rfl, next_progress hleft⟩
  · obtain ⟨n, hn, hafter⟩ := after_reads hleft
    refine ⟨n, hn, hafter, ?_, ?_⟩
    · rw [hafter]
      refine step?_eq_none (left?_eq_some.mpr ⟨b.text, ?_, rfl⟩)
      exact (List.append_nil b.text).symm
    · rw [hafter]
      rfl
  · exact ⟨hb.sound.cut, hb.sound.start, hb.sound.offset⟩

/-- A reader that was put after a quoted value, in front of a character of two bytes. -/
def forced : Buffered :=
  { machine := { mode := .precompile, state := .afterAttributeValueQuoted }, text := ['é'] }

/-- A reader that has read a character of two bytes and goes on at another place. -/
def moved : Buffered :=
  ((Buffered.call { machine := { mode := .codemod } } (.feed ['é'])).after 2).call (.moveTo 7)

theorem reads_all_forced :
    (∃ next, forced.step? = some next ∧ next.text = forced.text ∧
      ((forced.index < next.index ∧ Text.Cut forced.text next.index) ∨
        (next.index = forced.index ∧
          next.machine.state.rank < forced.machine.state.rank))) ∧
    (∃ n ≤ 3, forced.after n = forced.readOut ['é'] ∧ (forced.after n).step? = none ∧
      (forced.after n).index = 2) ∧
    moved.index = 2 ∧ moved.pieceStart = 2 ∧ moved.machine.offset = 7 + (2 - 2) := by
  obtain ⟨-, hstep, hafter, hreached⟩ := reads_all
  have hmoved : Reached moved :=
    (((Reached.new .codemod).call (Nat.le_refl 0) (.feed ['é'])).after 2).call (by decide) _
  obtain ⟨-, -, hoffset⟩ := hreached moved hmoved
  exact ⟨hstep forced 'é' [] rfl, hafter forced ['é'] rfl, rfl, rfl, hoffset⟩

end Buffered

end TemplateCompiler.Markup
