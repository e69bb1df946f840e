/-
Texts as lists of characters, measured in UTF-8 bytes.

Every offset of this library is a byte offset, while every text is read one
character at a time.  This file relates the two:

* `byteLength` — the number of bytes that a text takes;
* `splitAtByte?` — the two halves of a text at a byte offset, when that offset
  lies on a character boundary;
* `slice?` — the part of a text between two byte offsets.

Design notes: texts are `List Char`, so that reading is recursion on the list
and an offset is the sum of the sizes of the characters already read.  A cut
inside a character, or past the end, has no answer.
-/
namespace TemplateCompiler.Text

/-- The number of bytes that a text takes in UTF-8. -/
def byteLength : List Char → Nat
  | [] => 0
  | c :: rest => c.utf8Size + byteLength rest

@[simp] theorem byteLength_nil : byteLength [] = 0 := rfl

@[simp] theorem byteLength_cons (c : Char) (rest : List Char) :
    byteLength (c :: rest) = c.utf8Size + byteLength rest := rfl

@[simp] theorem byteLength_append (a b : List Char) :
    byteLength (a ++ b) = byteLength a + byteLength b := by
  induction a with
  | nil => simp
  | cons c rest ih => simp [ih, Nat.add_assoc]

/-- The two halves of a text at a byte offset; `none` inside a character and
past the end. -/
def splitAtByte? : List Char → Nat → Option (List Char × List Char)
  | cs, 0 => some ([], cs)
  | [], _ + 1 => none
  | c :: rest, n + 1 =>
    if c.utf8Size ≤ n + 1 then
      (splitAtByte? rest (n + 1 - c.utf8Size)).map fun halves => (c :: halves.1, halves.2)
    else none

/-- Splitting loses nothing, and the first half has the asked number of bytes. -/
theorem splitAtByte?_eq_some {cs before after : List Char} {n : Nat}
    (h : splitAtByte? cs n = some (before, after)) :
    cs = before ++ after ∧ byteLength before = n := by
  induction cs generalizing n before after with
  | nil =>
    cases n with
    | zero =>
      simp only [splitAtByte?, Option.some.injEq, Prod.mk.injEq] at h
      obtain ⟨rfl, rfl⟩ := h
      simp
    | succ n => simp [splitAtByte?] at h
  | cons c rest ih =>
    cases n with
    | zero =>
      simp only [splitAtByte?, Option.some.injEq, Prod.mk.injEq] at h
      obtain ⟨rfl, rfl⟩ := h
      simp
    | succ n =>
      simp only [splitAtByte?] at h
      split at h
      · rename_i hle
        obtain ⟨halves, hh, heq⟩ := Option.map_eq_some_iff.1 h
        obtain ⟨h1, h2⟩ := ih hh
        simp only [Prod.mk.injEq] at heq
        obtain ⟨rfl, rfl⟩ := heq
        refine ⟨by simpa using h1, ?_⟩
        simp only [byteLength_cons]
        omega
      · exact absurd h (by simp)

/-- A text splits at the end of each of its heads. -/
theorem splitAtByte?_append (before after : List Char) :
    splitAtByte? (before ++ after) (byteLength before) = some (before, after) := by
  induction before with
  | nil => cases after <;> rfl
  | cons c rest ih =>
    have hpos : 0 < c.utf8Size := c.utf8Size_pos
    obtain ⟨n, hn⟩ : ∃ n, c.utf8Size + byteLength rest = n + 1 :=
      ⟨c.utf8Size + byteLength rest - 1, by omega⟩
    simp only [List.cons_append, byteLength_cons, hn, splitAtByte?]
    rw [if_pos (by omega), show n + 1 - c.utf8Size = byteLength rest by omega, ih]
    rfl

/-- The part of a text from byte `start` up to byte `stop`; `none` when the
bounds are reversed, past the end or inside a character. -/
def slice? (cs : List Char) (start stop : Nat) : Option (List Char) :=
  if start ≤ stop then do
    let (_, after) ← splitAtByte? cs start
    let (part, _) ← splitAtByte? after (stop - start)
    some part
  else none

/-- A part of a text is what the text has between its two offsets. -/
theorem slice?_between (before part after : List Char) :
    slice? (before ++ (part ++ after)) (byteLength before) (byteLength before + byteLength part)
      = some part := by
  rw [slice?, if_pos (Nat.le_add_right _ _), splitAtByte?_append, Nat.add_sub_cancel_left]
  simp only [Option.bind_eq_bind, Option.bind_some, splitAtByte?_append]

/-- The text without its last characters for which `p` holds. -/
def dropEndWhile (p : Char → Bool) (cs : List Char) : List Char :=
  (cs.reverse.dropWhile p).reverse

/-- Whether `part` stands somewhere in a text. -/
def occursIn (part : List Char) : List Char → Bool
  | [] => part.isEmpty
  | c :: rest => part.isPrefixOf (c :: rest) || occursIn part rest

end TemplateCompiler.Text
