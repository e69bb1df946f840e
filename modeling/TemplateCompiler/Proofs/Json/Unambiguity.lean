/-
JSON texts without fractions are unambiguous.

A value is written in front of what follows it.  From the text alone both can be
told: the first character says what kind of value it is, a string ends at the
first quote that is not escaped, and an integer ends at the comma or bracket that
follows.

* `Json.unescape`, `Json.readInteger` — read back a character that `escapedChar` wrote, and
  an integer;
* `Json.isIntegral` — a value holds no doubles;
* `Json.write_inj` — equal texts are written from equal values, in front of equal
  rests;
* `Json.compact_inj` — the same for whole texts.

A double may be written as an integer is, so values with doubles are left out.
-/
import TemplateCompiler.Json.Text

namespace TemplateCompiler.Json

/-! ### Strings -/

/-- The value of a hexadecimal digit. -/
def hexValue (c : Char) : Nat := if c.isDigit then c.toNat - 48 else c.toNat - 87

/-- The character that a letter after a backslash stands for. -/
def escapeOf (c : Char) : Char :=
  if c == 'n' then '\n'
  else if c == 'r' then '\r'
  else if c == 't' then '\t'
  else if c == 'b' then '\x08'
  else if c == 'f' then '\x0c'
  else c

/-- Reads a character inside of a JSON string; there is none at the closing
quote. -/
def unescape : List Char → Option (Char × List Char)
  | [] | '"' :: _ => none
  | '\\' :: 'u' :: _ :: _ :: hi :: lo :: rest =>
    some (Char.ofNat (16 * hexValue hi + hexValue lo), rest)
  | '\\' :: c :: rest => some (escapeOf c, rest)
  | c :: rest => some (c, rest)

theorem hexValue_hexPair : ∀ n < 32,
    16 * hexValue (Nat.digitChar (n / 16 % 16)) + hexValue (Nat.digitChar (n % 16)) = n := by
  decide

theorem unescape_escapedChar (c : Char) (rest : List Char) :
    unescape (escapedChar c ++ rest) = some (c, rest) := by
  unfold escapedChar
  split
  · next h => rw [beq_iff_eq.mp h]; rfl
  split
  · next h => rw [beq_iff_eq.mp h]; rfl
  split
  · next h => rw [beq_iff_eq.mp h]; rfl
  split
  · next h => rw [beq_iff_eq.mp h]; rfl
  split
  · next h => rw [beq_iff_eq.mp h]; rfl
  split
  · next h => rw [beq_iff_eq.mp h]; rfl
  split
  · next h => rw [beq_iff_eq.mp h]; rfl
  split
  · next h =>
    have hvalue := hexValue_hexPair c.toNat h
    simp only [hexPair, List.cons_append, List.nil_append, unescape, hvalue, Char.ofNat_toNat]
  · next hquote hslash _ _ _ _ _ _ =>
    rw [beq_iff_eq] at hquote hslash
    simp [unescape, hslash]

theorem writeEscaped_inj {cs cs' r r' : List Char} (h : writeEscaped r cs = writeEscaped r' cs') :
    cs = cs' ∧ r = r' := by
  induction cs generalizing cs' with
  | nil =>
    cases cs' with
    | nil => exact ⟨rfl, (List.cons.inj h).2⟩
    | cons c' cs' =>
      have hread := congrArg unescape h
      rw [writeEscaped, writeEscaped, unescape_escapedChar] at hread
      cases hread
  | cons c cs ih =>
    have hread := congrArg unescape h
    cases cs' with
    | nil =>
      rw [writeEscaped, writeEscaped, unescape_escapedChar] at hread
      cases hread
    | cons c' cs' =>
      rw [writeEscaped, writeEscaped, unescape_escapedChar, unescape_escapedChar] at hread
      obtain ⟨rfl, hrest⟩ := Prod.mk.inj (Option.some.inj hread)
      obtain ⟨rfl, hr⟩ := ih hrest
      exact ⟨rfl, hr⟩

theorem writeString_inj {s s' : String} {r r' : List Char}
    (h : writeString s r = writeString s' r') : s = s' ∧ r = r' := by
  obtain ⟨hchars, hr⟩ := writeEscaped_inj (List.cons.inj h).2
  exact ⟨String.toList_inj.mp hchars, hr⟩

/-! ### Integers -/

/-- Whether a character may stand in an integer. -/
def isIntegerChar (c : Char) : Bool := c.isDigit || c == '-'

/-- What follows a value: nothing, or a character that ends it. -/
def Ended (rest : List Char) : Prop :=
  rest.head?.all (fun c => c == ',' || c == ']' || c == '}') = true

theorem integer_chars (n : Int) :
    (toString n).toList ≠ [] ∧ ∀ c ∈ (toString n).toList, isIntegerChar c = true := by
  have hnat : ∀ m : Nat, m.repr.toList ≠ [] ∧ ∀ c ∈ m.repr.toList, isIntegerChar c = true := by
    intro m
    rw [Nat.repr_eq_ofList_toDigits, String.toList_ofList]
    refine ⟨Nat.toDigits_ne_nil, fun c hc => ?_⟩
    rw [isIntegerChar, Nat.isDigit_of_mem_toDigits (by decide) (by decide) hc, Bool.true_or]
  rw [show toString n = n.repr from rfl, Int.repr_eq_if]
  split
  · exact hnat _
  · rw [String.toList_append]
    refine ⟨by simp, fun c hc => ?_⟩
    rcases List.mem_append.mp hc with hc | hc
    · rw [List.mem_singleton.mp hc, isIntegerChar]
      rfl
    · exact (hnat _).2 c hc

theorem takeWhile_integer (n : Int) {r : List Char} (hr : Ended r) :
    ((toString n).toList ++ r).takeWhile isIntegerChar = (toString n).toList := by
  have hstop : r.takeWhile isIntegerChar = [] := by
    cases r with
    | nil => rfl
    | cons c rest =>
      have hc : isIntegerChar c = false := by
        simp only [Ended, List.head?_cons, Option.all_some, Bool.or_eq_true, beq_iff_eq] at hr
        rcases hr with (rfl | rfl) | rfl <;> decide
      rw [List.takeWhile_cons_of_neg (by simp [hc])]
  rw [List.takeWhile_append_of_pos (integer_chars n).2, hstop, List.append_nil]

/-- Reads an integer back. -/
def readInteger : List Char → Int
  | '-' :: digits => -(Nat.ofDigitChars 10 digits 0)
  | digits => Nat.ofDigitChars 10 digits 0

theorem readInteger_toString (n : Int) : readInteger (toString n).toList = n := by
  have hnat (m : Nat) : Nat.ofDigitChars 10 m.repr.toList 0 = m := by
    rw [Nat.toList_repr, Nat.ofDigitChars_ten_toDigits]
  have hsign (m : Nat) : m.repr.toList.head? ≠ some '-' := by
    intro h
    have hmem : '-' ∈ Nat.toDigits 10 m := Nat.toList_repr (n := m) ▸ List.mem_of_head? h
    exact absurd (Nat.isDigit_of_mem_toDigits (by decide) (by decide) hmem) (by decide)
  rw [show toString n = n.repr from rfl, Int.repr_eq_if]
  split
  · -- Digits begin with no sign.
    rw [readInteger.eq_2 _ (fun digits h => hsign _ (by rw [h]; rfl)), hnat]
    omega
  · rw [String.toList_append, show "-".toList = ['-'] from rfl, List.singleton_append, readInteger,
      hnat]
    omega

theorem integer_inj {n n' : Int} {r r' : List Char} (hr : Ended r) (hr' : Ended r')
    (h : (toString n).toList ++ r = (toString n').toList ++ r') : n = n' ∧ r = r' := by
  have htext : (toString n).toList = (toString n').toList := by
    rw [← takeWhile_integer n hr, h, takeWhile_integer n' hr']
  rw [htext] at h
  refine ⟨?_, List.append_cancel_left h⟩
  rw [← readInteger_toString n, htext, readInteger_toString]

/-! ### Kinds of values -/

mutual

/-- Whether a value holds no doubles. -/
def isIntegral : Json → Bool
  | .null | .bool _ | .int _ | .str _ => true
  | .float _ => false
  | .arr items => allIntegral items
  | .obj fields => fieldsIntegral fields

/-- Whether values hold no doubles. -/
def allIntegral : List Json → Bool
  | [] => true
  | item :: items => item.isIntegral && allIntegral items

/-- Whether the values of fields hold no doubles. -/
def fieldsIntegral : List (String × Json) → Bool
  | [] => true
  | (_, value) :: fields => value.isIntegral && fieldsIntegral fields

end

/-- What a value is. -/
inductive Kind where
  | null | bool | number | string | array | object
deriving DecidableEq

/-- The kind of a value. -/
def kind : Json → Kind
  | .null => .null
  | .bool _ => .bool
  | .int _ | .float _ => .number
  | .str _ => .string
  | .arr _ => .array
  | .obj _ => .object

/-- The kind of the values whose text starts with a character. -/
def Kind.ofFirst (c : Char) : Kind :=
  if c == 'n' then .null
  else if c == 't' || c == 'f' then .bool
  else if c == '"' then .string
  else if c == '[' then .array
  else if c == '{' then .object
  else .number

theorem Kind.ofFirst_integer {c : Char} (h : isIntegerChar c = true) :
    Kind.ofFirst c = .number := by
  have hne : c ≠ 'n' ∧ c ≠ 't' ∧ c ≠ 'f' ∧ c ≠ '"' ∧ c ≠ '[' ∧ c ≠ '{' := by
    refine ⟨?_, ?_, ?_, ?_, ?_, ?_⟩ <;> (rintro rfl; revert h; decide)
  obtain ⟨h₁, h₂, h₃, h₄, h₅, h₆⟩ := hne
  simp [Kind.ofFirst, h₁, h₂, h₃, h₄, h₅, h₆]

/-- A text starts with a character that tells the kind of its value, and that does
not close an array. -/
theorem write_first {j : Json} (hj : j.isIntegral = true) (r : List Char) :
    ∃ c rest, j.write r = c :: rest ∧ Kind.ofFirst c = j.kind ∧ c ≠ ']' := by
  cases j with
  | null => exact ⟨'n', _, rfl, rfl, by decide⟩
  | bool value =>
    cases value with
    | true => exact ⟨'t', _, rfl, rfl, by decide⟩
    | false => exact ⟨'f', _, rfl, rfl, by decide⟩
  | float value => cases hj
  | int n =>
    obtain ⟨hne, hall⟩ := integer_chars n
    obtain ⟨c, rest, htext⟩ := List.exists_cons_of_ne_nil hne
    have hc := hall c (by rw [htext]; exact List.mem_cons_self)
    refine ⟨c, rest ++ r, ?_, Kind.ofFirst_integer hc, ?_⟩
    · rw [write, leafText, htext, List.cons_append]
      all_goals simp
    · rintro rfl
      cases hc
  | str value => exact ⟨'"', _, by rw [write, writeString], rfl, by decide⟩
  | arr items => exact ⟨'[', _, by rw [write], rfl, by decide⟩
  | obj fields => exact ⟨'{', _, by rw [write], rfl, by decide⟩

theorem kind_eq_of_write_eq {j j' : Json} (hj : j.isIntegral = true) (hj' : j'.isIntegral = true)
    {r r' : List Char} (h : j.write r = j'.write r') : j.kind = j'.kind := by
  obtain ⟨c, rest, htext, hkind, -⟩ := write_first hj r
  obtain ⟨c', rest', htext', hkind', -⟩ := write_first hj' r'
  rw [htext, htext'] at h
  rw [← hkind, ← hkind', (List.cons.inj h).1]

theorem write_ne_closing {j : Json} (hj : j.isIntegral = true) (r rest : List Char) :
    j.write r ≠ ']' :: rest := by
  obtain ⟨c, rest', htext, -, hne⟩ := write_first hj r
  rw [htext]
  exact fun h => hne (List.cons.inj h).1

/-! ### Values -/

/-- What follows an item of an array. -/
def afterItem : List Json → List Char → List Char
  | [], rest => rest
  | item :: items, rest => ',' :: writeItems (item :: items) rest

theorem writeItems_cons (item : Json) (items : List Json) (rest : List Char) :
    writeItems (item :: items) rest = item.write (afterItem items rest) := by
  cases items <;> rw [writeItems, afterItem]

/-- What follows a field of an object. -/
def afterField : List (String × Json) → List Char → List Char
  | [], rest => rest
  | field :: fields, rest => ',' :: writeFields (field :: fields) rest

theorem writeFields_cons (key : String) (value : Json) (fields : List (String × Json))
    (rest : List Char) : writeFields ((key, value) :: fields) rest =
      writeString key (':' :: value.write (afterField fields rest)) := by
  cases fields <;> rw [writeFields, afterField]

theorem ended_nil : Ended [] := rfl

theorem ended_afterItem (items : List Json) (r : List Char) :
    Ended (afterItem items (']' :: r)) := by
  cases items <;> rfl

theorem ended_afterField (fields : List (String × Json)) (r : List Char) :
    Ended (afterField fields ('}' :: r)) := by
  cases fields <;> rfl

mutual

/-- Equal texts are written from equal values in front of equal rests. -/
theorem write_inj (j j' : Json) (hj : j.isIntegral = true) (hj' : j'.isIntegral = true)
    {r r' : List Char} (hr : Ended r) (hr' : Ended r') (h : j.write r = j'.write r') :
    j = j' ∧ r = r' := by
  -- The first character tells the kind of value, so the two are of one kind.
  have hkind := kind_eq_of_write_eq hj hj' h
  match j with
  | .null =>
    cases j' with
    | null =>
      replace h : "null".toList ++ r = "null".toList ++ r' := h
      exact ⟨rfl, List.append_cancel_left h⟩
    | _ => cases hkind
  | .bool value =>
    cases j' with
    | bool value' =>
      cases value with
      | true =>
        cases value' with
        | true =>
          replace h : "true".toList ++ r = "true".toList ++ r' := h
          exact ⟨rfl, List.append_cancel_left h⟩
        | false => cases (List.cons.inj h).1
      | false =>
        cases value' with
        | true => cases (List.cons.inj h).1
        | false =>
          replace h : "false".toList ++ r = "false".toList ++ r' := h
          exact ⟨rfl, List.append_cancel_left h⟩
    | _ => cases hkind
  | .float value => cases hj
  | .int n =>
    cases j' with
    | int n' =>
      obtain ⟨rfl, hrest⟩ := integer_inj hr hr' h
      exact ⟨rfl, hrest⟩
    | float => cases hj'
    | _ => cases hkind
  | .str value =>
    cases j' with
    | str value' =>
      rw [write, write] at h
      obtain ⟨rfl, hrest⟩ := writeString_inj h
      exact ⟨rfl, hrest⟩
    | _ => cases hkind
  | .arr items =>
    cases j' with
    | arr items' =>
      rw [write, write] at h
      rw [isIntegral] at hj hj'
      obtain ⟨rfl, hrest⟩ := writeItems_inj items items' hj hj' (List.cons.inj h).2
      exact ⟨rfl, hrest⟩
    | _ => cases hkind
  | .obj fields =>
    cases j' with
    | obj fields' =>
      rw [write, write] at h
      rw [isIntegral] at hj hj'
      obtain ⟨rfl, hrest⟩ := writeFields_inj fields fields' hj hj' (List.cons.inj h).2
      exact ⟨rfl, hrest⟩
    | _ => cases hkind

theorem writeItems_inj (items items' : List Json) (hj : allIntegral items = true)
    (hj' : allIntegral items' = true) {r r' : List Char}
    (h : writeItems items (']' :: r) = writeItems items' (']' :: r')) :
    items = items' ∧ r = r' := by
  match items with
  | [] =>
    cases items' with
    | nil =>
      rw [writeItems, writeItems] at h
      exact ⟨rfl, (List.cons.inj h).2⟩
    | cons item' items' =>
      rw [allIntegral, Bool.and_eq_true] at hj'
      rw [writeItems, writeItems_cons] at h
      exact absurd h.symm (write_ne_closing hj'.1 _ _)
  | item :: items =>
    rw [allIntegral, Bool.and_eq_true] at hj
    cases items' with
    | nil =>
      rw [writeItems_cons, writeItems] at h
      exact absurd h (write_ne_closing hj.1 _ _)
    | cons item' items' =>
      rw [allIntegral, Bool.and_eq_true] at hj'
      rw [writeItems_cons, writeItems_cons] at h
      obtain ⟨rfl, hrest⟩ := write_inj item item' hj.1 hj'.1 (ended_afterItem items r)
        (ended_afterItem items' r') h
      -- Either both arrays end here, or both go on after a comma.
      match items with
      | [] =>
        cases items' with
        | nil => exact ⟨rfl, (List.cons.inj hrest).2⟩
        | cons => cases (List.cons.inj hrest).1
      | next :: items =>
        cases items' with
        | nil => cases (List.cons.inj hrest).1
        | cons next' items' =>
          obtain ⟨heq, hr⟩ := writeItems_inj (next :: items) (next' :: items') hj.2 hj'.2
            (List.cons.inj hrest).2
          exact ⟨congrArg _ heq, hr⟩

theorem writeFields_inj (fields fields' : List (String × Json)) (hj : fieldsIntegral fields = true)
    (hj' : fieldsIntegral fields' = true) {r r' : List Char}
    (h : writeFields fields ('}' :: r) = writeFields fields' ('}' :: r')) :
    fields = fields' ∧ r = r' := by
  match fields with
  | [] =>
    cases fields' with
    | nil =>
      rw [writeFields, writeFields] at h
      exact ⟨rfl, (List.cons.inj h).2⟩
    | cons field' fields' =>
      rw [writeFields, writeFields_cons, writeString] at h
      cases (List.cons.inj h).1
  | (key, value) :: fields =>
    rw [fieldsIntegral, Bool.and_eq_true] at hj
    cases fields' with
    | nil =>
      rw [writeFields, writeFields_cons, writeString] at h
      cases (List.cons.inj h).1
    | cons field' fields' =>
      obtain ⟨key', value'⟩ := field'
      rw [fieldsIntegral, Bool.and_eq_true] at hj'
      rw [writeFields_cons, writeFields_cons] at h
      obtain ⟨rfl, hvalue⟩ := writeString_inj h
      obtain ⟨rfl, hrest⟩ := write_inj value value' hj.1 hj'.1 (ended_afterField fields r)
        (ended_afterField fields' r') (List.cons.inj hvalue).2
      -- What follows a field is a comma or the closing brace, and these differ.
      match fields with
      | [] =>
        cases fields' with
        | nil => exact ⟨rfl, (List.cons.inj hrest).2⟩
        | cons => cases (List.cons.inj hrest).1
      | next :: fields =>
        cases fields' with
        | nil => cases (List.cons.inj hrest).1
        | cons next' fields' =>
          obtain ⟨heq, hr⟩ := writeFields_inj (next :: fields) (next' :: fields') hj.2 hj'.2
            (List.cons.inj hrest).2
          exact ⟨congrArg _ heq, hr⟩

end

/-- Values without doubles that have the same text are equal. -/
theorem compact_inj {j j' : Json} (hj : j.isIntegral = true) (hj' : j'.isIntegral = true)
    (h : j.compact = j'.compact) : j = j' :=
  (write_inj j j' hj hj' ended_nil ended_nil (String.ofList_inj.mp h)).1

end TemplateCompiler.Json
