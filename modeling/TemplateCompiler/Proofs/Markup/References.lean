/-
Texts written with numeric references.

Every character but the null character can be written as a reference to its code, in
decimal or hexadecimal digits.

* `NumericReference` — the ways to write a character as a reference;
* `Referenced` — a text with each of its characters written so;
* `Reference.spelled?_toDigits` — the digits of a number spell it;
* `NumericReference.resolves` — a reference is resolved to its character;
* `Referenced.reads` — where references are decoded, the reader tells the characters, each
  in one step, and stays in its state.
-/
import TemplateCompiler.Proofs.Template.BareAttributes

namespace TemplateCompiler.Markup

open Text (byteLength)

/-- A reference to the code of a character.  Hexadecimal digits may be in either case. -/
inductive NumericReference (c : Char) : List Char → Prop
  | decimal : NumericReference c ('&' :: '#' :: (Nat.toDigits 10 c.toNat ++ [';']))
  | hexadecimal {digits : List Char} (h : digits.map Char.toLower = Nat.toDigits 16 c.toNat) :
    NumericReference c ('&' :: '#' :: 'x' :: (digits ++ [';']))

/-- A text with a reference in place of each character. -/
inductive Referenced : List Char → List Char → Prop
  | nil : Referenced [] []
  | cons {c : Char} {reference text rest : List Char} (hc : NumericReference c reference)
    (h : Referenced text rest) : Referenced (c :: text) (reference ++ rest)

namespace Reference

variable {base : Nat} {digit? : Char → Option Nat}

/-! ### Numbers -/

theorem spelled?_append (value : Nat) (front back : List Char) :
    spelled? base digit? value (front ++ back)
      = (spelled? base digit? value front).bind (spelled? base digit? · back) := by
  induction front generalizing value with
  | nil => rfl
  | cons c front ih =>
    rw [List.cons_append, spelled?, spelled?]
    cases digit? c with
    | none => rfl
    | some d => exact ih _

/-- The digits of a number spell it. -/
theorem spelled?_toDigits (hbase : 1 < base)
    (hdigit : ∀ d < base, digit? (Nat.digitChar d) = some d) (n : Nat) :
    spelled? base digit? 0 (Nat.toDigits base n) = some n := by
  induction n using Nat.strong_induction_on with
  | _ n ih =>
    rcases Nat.lt_or_ge n base with hlt | hle
    · rw [Nat.toDigits_of_lt_base hlt, spelled?, hdigit n hlt]
      simp [spelled?]
    · have hpos : 0 < base := Nat.zero_lt_of_lt hbase
      have hfront := ih (n / base) (Nat.div_lt_self (Nat.lt_of_lt_of_le hpos hle) hbase)
      have hlast : spelled? base digit? (n / base) [Nat.digitChar (n % base)] = some n := by
        rw [spelled?, hdigit _ (Nat.mod_lt n hpos)]
        exact congrArg some (Nat.div_add_mod n base)
      rw [Nat.toDigits_of_base_le hbase hle, spelled?_append, hfront]
      exact hlast

/-- What spells a number are digits. -/
theorem digits_of_spelled? {value n : Nat} {digits : List Char}
    (h : spelled? base digit? value digits = some n) : ∀ c ∈ digits, digit? c ≠ none := by
  induction digits generalizing value with
  | nil => exact List.forall_mem_nil _
  | cons c rest ih =>
    rw [spelled?] at h
    obtain ⟨d, hd, hrest⟩ := Option.bind_eq_some_iff.mp h
    refine List.forall_mem_cons.mpr ⟨?_, ih hrest⟩
    rw [hd]
    exact Option.some_ne_none d

theorem spelled?_map {f : Char → Char} (hf : ∀ c, digit? (f c) = digit? c) (value : Nat)
    (digits : List Char) :
    spelled? base digit? value (digits.map f) = spelled? base digit? value digits := by
  induction digits generalizing value with
  | nil => rfl
  | cons c rest ih =>
    rw [List.map_cons, spelled?, spelled?, hf]
    cases digit? c with
    | none => rfl
    | some d => exact ih _

/-- A hexadecimal digit in either case has the same value. -/
theorem hexValue?_toLower (c : Char) : hexValue? c.toLower = hexValue? c := by
  have hascii : ∀ code < 128,
      hexValue? (Char.ofNat code).toLower = hexValue? (Char.ofNat code) := by decide
  by_cases hupper : c.val ≥ 'A'.val ∧ c.val ≤ 'Z'.val
  · have hcode : c.toNat < 128 :=
      Nat.lt_of_le_of_lt (UInt32.le_iff_toNat_le.mp hupper.2) (by decide)
    have hc := hascii c.toNat hcode
    rwa [Char.ofNat_toNat] at hc
  · have hsame : c.toLower = c := dif_neg hupper
    rw [hsame]

theorem number?_of_spelled? {n : Nat} (hn : n ≤ 0xffffffff) {digits : List Char} (hne : digits ≠ [])
    (hdigits : spelled? base digit? 0 digits = some n) : number? base digit? digits = some n := by
  rw [number?, if_neg (by simpa using hne), hdigits]
  simp [hn]

/-- The code of a character gives it back. -/
theorem charOfCode_toNat {c : Char} (hc : c ≠ '\x00') : charOfCode c.toNat = c := by
  have hzero : c.toNat ≠ 0 := fun h => hc (Char.toNat_inj.mp h)
  rw [charOfCode, if_pos ⟨hzero, c.valid⟩, Char.ofNat_toNat]

theorem code?_decimal {digits : List Char} (hdigits : ∀ c ∈ digits, decimalValue? c ≠ none) :
    code? digits = number? 10 decimalValue? digits := by
  rw [code?]
  · rintro more rfl
    exact hdigits 'x' (by simp) (by decide)
  · rintro more rfl
    exact hdigits 'X' (by simp) (by decide)

end Reference

open Reference

theorem toNat_le_word (c : Char) : c.toNat ≤ 0xffffffff := Nat.le_of_lt_succ c.val.toNat_lt

/-- A reference has a body without semicolons and braces, which is resolved to the character. -/
theorem NumericReference.resolves {c : Char} {reference : List Char}
    (h : NumericReference c reference) (hc : c ≠ '\x00') :
    ∃ body, reference = '&' :: (body ++ [';']) ∧ ';' ∉ body ∧ '\x7b' ∉ body ∧
      Reference.resolve? body = some [c] := by
  -- A body is made of digits, and neither mark is one.
  have hbody : ∀ {digit? : Char → Option Nat} {digits : List Char} {base value : Nat},
      spelled? base digit? 0 digits = some value → ∀ d, digit? d = none → d ∉ digits :=
    fun hdigits d hd hmem => digits_of_spelled? hdigits d hmem hd
  cases h with
  | decimal =>
    have hdigits : spelled? 10 decimalValue? 0 (Nat.toDigits 10 c.toNat) = some c.toNat :=
      spelled?_toDigits (by decide) (by decide) c.toNat
    refine ⟨'#' :: Nat.toDigits 10 c.toNat, rfl, ?_, ?_, ?_⟩
    · simpa using hbody hdigits ';' (by decide)
    · simpa using hbody hdigits '\x7b' (by decide)
    · rw [Reference.resolve?, code?_decimal (digits_of_spelled? hdigits),
        number?_of_spelled? (toNat_le_word c) Nat.toDigits_ne_nil hdigits]
      exact congrArg (fun c => some [c]) (charOfCode_toNat hc)
  | @hexadecimal digits hlower =>
    have hdigits : spelled? 16 hexValue? 0 digits = some c.toNat := by
      rw [← spelled?_map hexValue?_toLower, hlower]
      exact spelled?_toDigits (by decide) (by decide) c.toNat
    have hne : digits ≠ [] := by
      rintro rfl
      exact Nat.toDigits_ne_nil hlower.symm
    refine ⟨'#' :: 'x' :: digits, rfl, ?_, ?_, ?_⟩
    · simpa using hbody hdigits ';' (by decide)
    · simpa using hbody hdigits '\x7b' (by decide)
    · rw [Reference.resolve?, code?,
        number?_of_spelled? (toNat_le_word c) hne hdigits]
      exact congrArg (fun c => some [c]) (charOfCode_toNat hc)

namespace Machine

/-- A body in front of a semicolon that is resolved is read with it. -/
theorem reference?_eq {m : Machine} {after : Reading} {body decoded rest : List Char}
    (hbody : ';' ∉ body) (hrest : after.rest = body ++ ';' :: rest)
    (hresolve : m.resolver body = some decoded) :
    m.reference? after
      = some (decoded, ⟨after.char, after.width + byteLength body + 1, rest⟩) := by
  have hall : ∀ d ∈ body, decide (d ≠ ';') = true := by
    intro d hd
    rw [decide_eq_true_eq]
    rintro rfl
    exact hbody hd
  have htake : after.rest.takeWhile (· ≠ ';') = body := by
    rw [hrest, List.takeWhile_append_of_pos hall, List.takeWhile_cons_of_neg (by decide),
      List.append_nil]
  have hdrop : after.rest.dropWhile (· ≠ ';') = ';' :: rest := by
    rw [hrest, List.dropWhile_append_of_pos hall, List.dropWhile_cons_of_neg (by decide)]
  rw [reference?, hdrop, htake]
  simp only [hresolve, Option.map_some]

/-- A reference is read in one step, which tells its character. -/
theorem takeReference_eq {m : Machine} {c : Char} {reference : List Char}
    (h : NumericReference c reference) (hc : c ≠ '\x00') (hresolver : m.resolver = .html)
    (tell : Char → Event) (rest : List Char) :
    ∃ body, reference = '&' :: body ∧
      m.takeReference (Reading.of '&' (body ++ rest)) tell
        = ⟨{ m with offset := m.offset + byteLength reference }, rest, [tell c]⟩ := by
  obtain ⟨body, rfl, hsemicolon, -, hresolve⟩ := h.resolves hc
  have hreference : m.reference? ⟨'&', 1, body ++ [';'] ++ rest⟩
      = some ([c], ⟨'&', 1 + byteLength body + 1, rest⟩) :=
    reference?_eq hsemicolon (by simp) (by rw [hresolver]; exact hresolve)
  refine ⟨body ++ [';'], rfl, ?_⟩
  have hreading : Reading.of '&' (body ++ [';'] ++ rest) = ⟨'&', 1, body ++ [';'] ++ rest⟩ := rfl
  have hlength : byteLength ('&' :: (body ++ [';'])) = 1 + byteLength body + 1 := by
    simp only [Text.byteLength_cons, Text.byteLength_append, Text.byteLength_nil]
    rw [← Nat.add_assoc]
    rfl
  rw [takeReference, hreading, hreference, hlength]
  rfl

end Machine

/-- Where the reader decodes references, it tells the characters of a text that is written with
them, and comes to its end. -/
theorem Referenced.reads {text written : List Char} (h : Referenced text written)
    (hnull : '\x00' ∉ text) {m : Machine} (hresolver : m.resolver = .html)
    (tell : Char → Nat → Event)
    (hstep : ∀ offset rest, Machine.step { m with offset } '&' rest
      = Machine.takeReference { m with offset } (Reading.of '&' rest)
        fun c => tell c (Machine.pos { m with offset }))
    (rest : List Char) :
    ∃ values : List (Char × Nat), values.map Prod.fst = text ∧
      m.ReadsTo (written ++ rest) (values.map fun value => tell value.1 value.2)
        { m with offset := m.offset + byteLength written } rest := by
  induction h generalizing m with
  | nil => exact ⟨[], rfl, .refl⟩
  | @cons c reference text written hc h ih =>
    rw [List.mem_cons, not_or] at hnull
    obtain ⟨body, hbody, htake⟩ := Machine.takeReference_eq (m := m) hc (Ne.symm hnull.1) hresolver
      (fun c => tell c m.pos) (written ++ rest)
    obtain ⟨values, hvalues, hreads⟩ := ih hnull.2
      (m := { m with offset := m.offset + byteLength reference }) hresolver hstep
    have hone := Machine.ReadsTo.step m '&' (body ++ (written ++ rest))
    rw [show m.step '&' (body ++ (written ++ rest)) = _ from hstep m.offset _, htake] at hone
    refine ⟨(c, m.pos) :: values, by rw [List.map_cons, hvalues], ?_⟩
    have hall := hone.trans hreads
    rw [Text.byteLength_append, ← Nat.add_assoc]
    rwa [← List.cons_append, ← hbody, ← List.append_assoc] at hall

end TemplateCompiler.Markup
