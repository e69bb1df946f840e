/-
Slices of a text that stands in another.

* `Text.slice?_inside` — a slice between two offsets of a part of a text is a slice
  of the part;
* `Source.slice_moved` — so a part that stands in two sources has the same slices
  in both.
-/
import Mathlib.Tactic.Common
import TemplateCompiler.Source.Index

namespace TemplateCompiler

namespace Text

/-- A text is cut behind another as it is cut alone. -/
theorem splitAtByte?_behind (pre cs : List Char) (n : Nat) :
    splitAtByte? (pre ++ cs) (byteLength pre + n)
      = (splitAtByte? cs n).map fun halves => (pre ++ halves.1, halves.2) := by
  induction pre with
  | nil => simp
  | cons c pre ih =>
    obtain ⟨m, hm⟩ : ∃ m, byteLength (c :: pre) + n = m + 1 :=
      ⟨byteLength (c :: pre) + n - 1, by have := c.utf8Size_pos; rw [byteLength_cons]; omega⟩
    have hrest : m + 1 - c.utf8Size = byteLength pre + n := by
      rw [byteLength_cons] at hm
      omega
    rw [List.cons_append, hm, splitAtByte?, if_pos (by rw [byteLength_cons] at hm; omega), hrest, ih,
      Option.map_map]
    rfl

/-- A text is cut in front of another as it is cut alone. -/
theorem splitAtByte?_before {cs : List Char} (post : List Char) {n : Nat} (h : n ≤ byteLength cs) :
    splitAtByte? (cs ++ post) n
      = (splitAtByte? cs n).map fun halves => (halves.1, halves.2 ++ post) := by
  induction cs generalizing n with
  | nil =>
    obtain rfl : n = 0 := Nat.le_zero.mp h
    cases post <;> rfl
  | cons c cs ih =>
    cases n with
    | zero => rfl
    | succ n =>
      rw [List.cons_append, splitAtByte?, splitAtByte?]
      split
      · rw [ih (by rw [byteLength_cons] at h; omega), Option.map_map, Option.map_map]
        rfl
      · rfl

/-- A slice between two offsets of a part of a text is a slice of the part. -/
theorem slice?_inside (pre post : List Char) {part : List Char} {start stop : Nat}
    (hstart : start ≤ byteLength part) (hstop : stop ≤ byteLength part) :
    slice? (pre ++ (part ++ post)) (byteLength pre + start) (byteLength pre + stop)
      = slice? part start stop := by
  rw [slice?, slice?, splitAtByte?_behind, splitAtByte?_before post hstart,
    Nat.add_sub_add_left]
  by_cases hle : start ≤ stop
  · rw [if_pos hle, if_pos (Nat.add_le_add_left hle _)]
    cases hcut : splitAtByte? part start with
    | none => rfl
    | some halves =>
      obtain ⟨before, after⟩ := halves
      obtain ⟨rfl, rfl⟩ := splitAtByte?_eq_some hcut
      have hrest : stop - byteLength before ≤ byteLength after := by
        rw [byteLength_append] at hstop
        omega
      simp only [Option.map_some, Option.bind_eq_bind, Option.bind_some,
        splitAtByte?_before post hrest]
      cases splitAtByte? after (stop - byteLength before) <;> rfl
  · rw [if_neg hle, if_neg (by omega)]

end Text

namespace Source

/-- A slice is what the text has between two offsets, or empty. -/
theorem slice_eq (source : Source) (span : Span) :
    source.slice span
      = String.ofList ((Text.slice? source.text.toList span.start span.stop).getD []) := by
  obtain ⟨start, stop⟩ := span
  rw [slice]
  split
  · next h =>
    obtain ⟨rfl, rfl⟩ : start = 0 ∧ stop = 0 := by simpa [Span.isDummy] using h
    simp [Text.slice?, Text.splitAtByte?]
  · cases Text.slice? source.text.toList start stop <;> rfl

/-- A part that stands in two sources has the same slices in both. -/
theorem slice_moved (source source' : Source) {pre pre' part post post' : List Char}
    (h : source.text.toList = pre ++ (part ++ post))
    (h' : source'.text.toList = pre' ++ (part ++ post')) {start stop : Nat}
    (hstart : start ≤ Text.byteLength part) (hstop : stop ≤ Text.byteLength part) :
    source.slice ⟨Text.byteLength pre + start, Text.byteLength pre + stop⟩
      = source'.slice ⟨Text.byteLength pre' + start, Text.byteLength pre' + stop⟩ := by
  rw [slice_eq, slice_eq, h, h', Text.slice?_inside _ _ hstart hstop,
    Text.slice?_inside _ _ hstart hstop]

end Source

end TemplateCompiler
