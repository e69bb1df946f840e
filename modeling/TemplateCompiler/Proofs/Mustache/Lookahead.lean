/-
How far the lexer looks ahead.

The token at the start of a text depends on what follows it.  It does not depend
on much: two opening braces end whatever the lexer looks for.

* `Steady` — a rule that sees nothing behind two opening braces;
* `Local` — a rule whose tokens, when they end before two opening braces, do not
  depend on what comes after these;
* `tagLexeme_local` — so are all tokens inside a tag;
* `splitAtBraces_braces`, `escapedText_braces` — text is cut the same.
-/
import Mathlib.Tactic.ByContra
import TemplateCompiler.Proofs.Mustache.Kinds

namespace TemplateCompiler.Mustache

/-! ### Two opening braces -/

/-- A scan ends at a character that it does not take. -/
theorem takeWhile_stop {p : Char → Bool} {c : Char} (hc : p c = false) (x r : List Char) :
    (x ++ c :: r).takeWhile p = x.takeWhile p := by
  induction x with
  | nil => simp [hc]
  | cons d x ih => simp [List.takeWhile_cons, ih]

theorem dropWhile_stop {p : Char → Bool} {c : Char} (hc : p c = false) (x r : List Char) :
    (x ++ c :: r).dropWhile p = x.dropWhile p ++ c :: r := by
  induction x with
  | nil => simp [hc]
  | cons d x ih =>
    simp only [List.cons_append, List.dropWhile_cons, ih]
    split <;> rfl

theorem headIs_stop {p : Char → Bool} {c : Char} (hc : p c = false) (x r : List Char) :
    headIs p (x ++ c :: r) = headIs p x := by
  cases x with
  | nil => simp [headIs, hc]
  | cons d x => rfl

theorem after?_stop {word : List Char} {c : Char} (hc : c ∉ word) (x r : List Char) :
    after? word (x ++ c :: r) = (after? word x).map (· ++ c :: r) := by
  induction word generalizing x with
  | nil => simp [after?]
  | cons w word ih =>
    rw [List.mem_cons, not_or] at hc
    cases x with
    | nil => simp [after?, Ne.symm hc.1]
    | cons d x =>
      simp only [List.cons_append, after?, ih hc.2]
      split <;> rfl

/-- Text is cut at two braces, whatever comes after them. -/
theorem splitAtBraces_braces (x r : List Char) :
    splitAtBraces (x ++ '{' :: '{' :: r)
      = ((splitAtBraces (x ++ ['{', '{'])).1, (splitAtBraces (x ++ ['{', '{'])).2 ++ r) := by
  induction x with
  | nil => rfl
  | cons c x ih =>
    by_cases hbraces : ∃ rest, c :: (x ++ ['{', '{']) = '{' :: '{' :: rest
    -- The text is cut right here, by a brace of `x` or by those behind it.
    · obtain ⟨rest, hrest⟩ := hbraces
      obtain ⟨rfl, htail⟩ := List.cons.inj hrest
      cases x with
      | nil => rfl
      | cons d x =>
        obtain ⟨rfl, rfl⟩ := List.cons.inj htail
        simp [splitAtBraces]
    -- It is not cut here, so it is not with other text behind it.
    · have hno : ∀ rest, c :: (x ++ '{' :: '{' :: r) = '{' :: '{' :: rest → False := by
        intro rest hrest
        apply hbraces
        obtain ⟨rfl, htail⟩ := List.cons.inj hrest
        cases x with
        | nil => exact ⟨_, rfl⟩
        | cons d x =>
          obtain ⟨rfl, -⟩ := List.cons.inj htail
          exact ⟨_, rfl⟩
      rw [List.cons_append, List.cons_append, splitAtBraces.eq_3 _ _ (by simpa using hno),
        splitAtBraces.eq_3 _ _ fun rest hc hx => hbraces ⟨rest, by rw [hc, hx]⟩, ih]

theorem splitAtBraces_braces_ne (x r : List Char) :
    (splitAtBraces (x ++ '{' :: '{' :: r)).2 ≠ [] := by
  induction x with
  | nil => simp [splitAtBraces]
  | cons c x ih =>
    rw [List.cons_append, splitAtBraces.eq_def]
    split
    · simp at *
    · simp
    · next c' rest _ heq =>
      obtain ⟨-, rfl⟩ := List.cons.inj heq
      exact ih

theorem escapedText_braces {x : List Char} (hx : 2 ≤ x.length) (r r' : List Char) :
    escapedText (x ++ '{' :: '{' :: r) = escapedText (x ++ '{' :: '{' :: r') := by
  have hdrop : ∀ r, (x ++ '{' :: '{' :: r).drop 2 = x.drop 2 ++ '{' :: '{' :: r :=
    fun r => List.drop_append_of_le_length hx
  have htake : ∀ r, (x ++ '{' :: '{' :: r).take 2 = x.take 2 :=
    fun r => List.take_append_of_le_length hx
  simp only [escapedText, hdrop, htake]
  rw [splitAtBraces_braces _ r, splitAtBraces_braces _ r']
  have hne := splitAtBraces_braces_ne (x.drop 2) []
  simp [hne]

/-- A word without the brace stands before it or not at all. -/
theorem word_before_brace (word : List Char) {x r tail : List Char} (hword : '{' ∉ word)
    (h : x ++ '{' :: r = word ++ tail) : ∃ rest, x = word ++ rest := by
  rcases List.append_eq_append_iff.mp h with ⟨more, rfl, hmore⟩ | ⟨more, hx, -⟩
  · cases more with
    | nil => exact ⟨[], by simp⟩
    | cons c more =>
      obtain ⟨rfl, -⟩ := List.cons.inj hmore
      exact absurd (by simp) hword
  · exact ⟨more, hx⟩

/-! ### Rules that look no further -/

/-- A rule that sees nothing behind two opening braces. -/
def Steady (rule : Rule) : Prop :=
  ∀ x r, x ≠ [] → rule (x ++ '{' :: '{' :: r) = rule (x ++ ['{', '{'])

theorem punctuationRule_steady : Steady punctuationRule := by
  intro x r hx
  obtain ⟨c, x, rfl⟩ := List.exists_cons_of_ne_nil hx
  simp only [List.cons_append, punctuationRule]
  split <;> split <;> simp_all

theorem dataRule_steady : Steady dataRule := by
  intro x r hx
  obtain ⟨c, x, rfl⟩ := List.exists_cons_of_ne_nil hx
  simp only [List.cons_append, dataRule]
  split <;> split <;> simp_all

theorem barRule_steady : Steady barRule := by
  intro x r hx
  obtain ⟨c, x, rfl⟩ := List.exists_cons_of_ne_nil hx
  simp only [List.cons_append, barRule]
  split <;> split <;> simp_all

theorem dotRule_cons (a b : Char) (rest : List Char) :
    dotRule (a :: b :: rest) = dotRule [a, b] := by
  by_cases ha : a = '.'
  · subst ha
    by_cases hb : b = '.'
    · simp [dotRule, hb]
    · rw [dotRule.eq_2 _ (by simpa using hb), dotRule.eq_2 _ (by simpa using hb)]
      rfl
  · by_cases hslash : a = '/' <;> simp [dotRule, ha, hslash]

theorem dotRule_steady : Steady dotRule := by
  intro x r hx
  match x, hx with
  | [a], _ => exact (dotRule_cons a '{' _).trans (dotRule_cons a '{' _).symm
  | a :: b :: x, _ => exact (dotRule_cons a b _).trans (dotRule_cons a b _).symm

theorem closeRule_cons (a b c d : Char) (rest : List Char) :
    closeRule (a :: b :: c :: d :: rest) = closeRule [a, b, c, d] := by
  by_cases ha : a = '}'
  · subst ha
    by_cases hb : b = '}' <;> by_cases hc : c = '}' <;> by_cases ht : b = '~' <;>
      by_cases hd : d = '}' <;> simp [closeRule, *]
  · by_cases ht : a = '~'
    · subst ht
      by_cases hb : b = '}' <;> by_cases hc : c = '}' <;> simp [closeRule, *]
    · simp [closeRule, ha, ht]

theorem closeRule_steady : Steady closeRule := by
  intro x r hx
  match x, hx with
  | [a], _  => simp [closeRule]
  | [a, b], _ => exact (closeRule_cons a b '{' '{' _).trans (closeRule_cons a b '{' '{' _).symm
  | [a, b, c], _  => exact (closeRule_cons a b c '{' _).trans (closeRule_cons a b c '{' _).symm
  | a :: b :: c :: d :: x, _ =>
    exact (closeRule_cons a b c d _).trans (closeRule_cons a b c d _).symm

/-- The words for values end at a brace. -/
theorem wordRule_stop (x r : List Char) : wordRule (x ++ '{' :: r) = wordRule x := by
  have hwords : ∀ p ∈ valueWords, '{' ∉ p.1.toList := by decide
  rw [wordRule, wordRule]
  generalize valueWords = words at hwords ⊢
  induction words with
  | nil => rfl
  | cons p words ih =>
    obtain ⟨word, kind⟩ := p
    rw [List.findSome?_cons, List.findSome?_cons,
      ih fun q hq => hwords q (List.mem_cons_of_mem _ hq)]
    simp only [after?_stop (hwords (word, kind) List.mem_cons_self)]
    cases after? word.toList x with
    | none => rfl
    | some rest => simp only [Option.map_some, headIs_stop (show endsLiteral '{' = false by decide)]

theorem wordRule_steady : Steady wordRule := fun x _ _ =>
  (wordRule_stop x _).trans (wordRule_stop x _).symm

/-- The digits after a dot, if there are any. -/
def fractionOf : List Char → List Char
  | '.' :: digits => digits.takeWhile Char.isDigit
  | _ => []

theorem fractionOf_stop (x r : List Char) : fractionOf (x ++ '{' :: r) = fractionOf x := by
  cases x with
  | nil => rfl
  | cons c x =>
    by_cases hc : c = '.'
    · subst hc
      exact takeWhile_stop (by decide) x r
    · simp [fractionOf, hc]

theorem fractionOf_length {x : List Char} (h : (fractionOf x).isEmpty = false) :
    (fractionOf x).length + 1 ≤ x.length := by
  unfold fractionOf at h ⊢
  split at h
  · next digits => simpa using (List.takeWhile_sublist Char.isDigit).length_le
  · simp at h

/-- A number ends at a brace. -/
theorem numberRule_stop (x r : List Char) : numberRule (x ++ '{' :: r) = numberRule x := by
  have hdigit : Char.isDigit '{' = false := by decide
  have hminus : headIs (· == '-') (x ++ '{' :: r) = headIs (· == '-') x :=
    headIs_stop (by decide) x r
  have hends : ∀ y, headIs endsLiteral (y ++ '{' :: r) = headIs endsLiteral y :=
    fun y => headIs_stop (by decide) y r
  have hunsigned : (if headIs (· == '-') x then (x ++ '{' :: r).drop 1 else x ++ '{' :: r)
      = (if headIs (· == '-') x then x.drop 1 else x) ++ '{' :: r := by
    cases x with
    | nil => rfl
    | cons c x => by_cases hc : c = '-' <;> simp [headIs, hc]
  have hrest : ∀ y : List Char,
      (if (fractionOf y).isEmpty then y ++ '{' :: r
        else (y ++ '{' :: r).drop ((fractionOf y).length + 1))
        = (if (fractionOf y).isEmpty then y else y.drop ((fractionOf y).length + 1))
          ++ '{' :: r := by
    intro y
    split
    · rfl
    · next hsome => rw [List.drop_append_of_le_length (fractionOf_length (by simpa using hsome))]
  -- The length is counted from what is left, which grows by the same on both sides.
  have hlength : ∀ y : List Char,
      (x ++ '{' :: r).length - (y ++ '{' :: r).length - 1 = x.length - y.length - 1 := by
    intro y
    simp only [List.length_append]
    omega
  -- The rule with its steps named, to rewrite each.
  have hrule : ∀ x, numberRule x =
    let unsigned := if headIs (· == '-') x then x.drop 1 else x
    let whole := unsigned.takeWhile Char.isDigit
    let rest := unsigned.dropWhile Char.isDigit
    let after :=
      if (fractionOf rest).isEmpty then rest else rest.drop ((fractionOf rest).length + 1)
    if !whole.isEmpty && headIs endsLiteral after then
      some ⟨.number (Binary64.ofRatio (headIs (· == '-') x) (digitsValue (whole ++ fractionOf rest))
        (Nat.pow 10 (fractionOf rest).length)), x.length - after.length - 1, false⟩
    else none := fun x => rfl
  rw [hrule, hrule]
  simp only [hminus, hunsigned, takeWhile_stop hdigit, dropWhile_stop hdigit, fractionOf_stop, hrest,
    hends, hlength]

theorem numberRule_steady : Steady numberRule := fun x _ _ =>
  (numberRule_stop x _).trans (numberRule_stop x _).symm

/-- Block parameters begin before a brace or not at all. -/
theorem openBlockParamsRule_stop (x r : List Char) :
    openBlockParamsRule (x ++ '{' :: r) = openBlockParamsRule x := by
  have hblank : Text.isBlank '{' = false := by decide
  match x with
  | [] => rfl
  | [a] => 
    by_cases ha : a = 'a' <;> simp [openBlockParamsRule, ha]
  | a :: b :: x =>
    by_cases ha : a = 'a' ∧ b = 's'
    · obtain ⟨rfl, rfl⟩ := ha
      simp only [openBlockParamsRule, List.cons_append, takeWhile_stop hblank,
        dropWhile_stop hblank]
      cases x.dropWhile Text.isBlank with
      | nil => rfl
      | cons c rest =>
        simp only [List.cons_append]
        split <;> split <;> simp_all
    · have h : ∀ rest, openBlockParamsRule (a :: b :: rest) = none := by
        intro rest
        rw [openBlockParamsRule]
        simpa using ha
      rw [List.cons_append, List.cons_append, h, h]

theorem openBlockParamsRule_steady : Steady openBlockParamsRule := fun x _ _ =>
  (openBlockParamsRule_stop x _).trans (openBlockParamsRule_stop x _).symm

theorem idRule_steady : Steady idRule := by
  intro x r hx
  have hid : isIdChar '{' = false := by decide
  simp only [idRule, takeWhile_stop hid, dropWhile_stop hid,
    headIs_stop (show endsId '{' = false by decide)]
  simp

/-! ### Rules that look for an end -/

theorem segmentLength?_pos {x : List Char} {length : Nat} (h : segmentLength? x = some length) :
    0 < length := by
  fun_induction segmentLength? x generalizing length with
  -- The text has ended.
  | case1 => cases h
  -- A bracket behind a backslash.
  | case2 rest ih =>
    obtain ⟨n, -, rfl⟩ := Option.map_eq_some_iff.mp h
    omega
  -- The closing bracket.
  | case3 rest =>
    cases h
    omega
  -- Any other character.
  | case4 c rest _ _ ih =>
    obtain ⟨n, -, rfl⟩ := Option.map_eq_some_iff.mp h
    omega

/-- A segment that is closed before two braces does not depend on what comes after these. -/
theorem segmentLength?_local {x r : List Char} (r' : List Char) {length : Nat}
    (h : segmentLength? (x ++ '{' :: r) = some length) (hlength : length ≤ x.length) :
    segmentLength? (x ++ '{' :: r') = some length := by
  fun_induction segmentLength? x generalizing length with
  -- The text has ended.
  | case1 => exact absurd (segmentLength?_pos h) (Nat.not_lt.mpr hlength)
  -- A bracket behind a backslash.
  | case2 rest ih =>
    simp only [List.cons_append, segmentLength?] at h ⊢
    obtain ⟨n, hn, rfl⟩ := Option.map_eq_some_iff.mp h
    rw [ih hn (by simpa using hlength)]
    rfl
  -- The closing bracket.
  | case3 rest =>
    simp only [List.cons_append, segmentLength?] at h ⊢
    exact h
  -- Any other character.
  | case4 c rest hpair hclose ih =>
    have hno : ∀ r tail, c = '\\' → rest ++ '{' :: r = [']'] ++ tail → False := by
      intro r tail hc hrest
      obtain ⟨more, hmore⟩ := word_before_brace _ (by decide) hrest
      exact hpair more hc hmore
    rw [List.cons_append, segmentLength?.eq_4 _ _ (hno _) hclose] at h ⊢
    obtain ⟨n, hn, rfl⟩ := Option.map_eq_some_iff.mp h
    rw [ih hn (by simpa using hlength)]
    rfl

theorem stringBody?_pos {quote : Char} {x value : List Char} {length : Nat}
    (h : stringBody? quote x = some (value, length)) : 0 < length := by
  fun_induction stringBody? quote x generalizing value length with
  -- The text has ended.
  | case1 => cases h
  -- A quote behind a backslash.
  | case2 c rest hquote ih =>
    obtain ⟨n, -, heq⟩ := Option.map_eq_some_iff.mp h
    cases heq
    omega
  -- A backslash before anything else.
  | case3 c rest hquote ih =>
    obtain ⟨n, -, heq⟩ := Option.map_eq_some_iff.mp h
    cases heq
    omega
  -- The closing quote.
  | case4 c rest hno hquote =>
    cases h
    omega
  -- Any other character.
  | case5 c rest hno hquote ih =>
    obtain ⟨n, -, heq⟩ := Option.map_eq_some_iff.mp h
    cases heq
    omega

/-- A backslash right before a brace does not escape it, and nothing is closed there. -/
theorem stringBody?_slash_brace {quote : Char} (hquote : quote ≠ '{') {r value : List Char}
    {length : Nat} (h : stringBody? quote ('\\' :: '{' :: r) = some (value, length)) :
    1 < length := by
  rw [stringBody?, if_neg (by simpa using Ne.symm hquote)] at h
  obtain ⟨⟨v, n⟩, hn, heq⟩ := Option.map_eq_some_iff.mp h
  cases heq
  have := stringBody?_pos hn
  omega

/-- A string that is closed before a brace does not depend on what comes after it. -/
theorem stringBody?_local {quote : Char} (hquote : quote ≠ '{') {x r value : List Char}
    (r' : List Char) {length : Nat} (h : stringBody? quote (x ++ '{' :: r) = some (value, length))
    (hlength : length ≤ x.length) : stringBody? quote (x ++ '{' :: r') = some (value, length) := by
  fun_induction stringBody? quote x generalizing value length with
  -- The text has ended.
  | case1 => exact absurd (stringBody?_pos h) (Nat.not_lt.mpr hlength)
  -- A quote behind a backslash.
  | case2 c rest hc ih =>
    simp only [List.cons_append, stringBody?, hc, if_true] at h ⊢
    obtain ⟨⟨v, n⟩, hn, heq⟩ := Option.map_eq_some_iff.mp h
    cases heq
    rw [ih hn (by simpa using hlength)]
    rfl
  -- A backslash before anything else.
  | case3 c rest hc ih =>
    simp only [List.cons_append, stringBody?, hc] at h ⊢
    obtain ⟨⟨v, n⟩, hn, heq⟩ := Option.map_eq_some_iff.mp h
    cases heq
    rw [← List.cons_append, ih hn (by simpa using hlength)]
    rfl
  -- The closing quote.
  | case4 c rest hno hc =>
    by_cases hslash : c = '\\'
    · obtain rfl : rest = [] := by
        cases rest with
        | nil => rfl
        | cons d rest => exact (hno d rest hslash rfl).elim
      subst hslash
      exact absurd (stringBody?_slash_brace hquote h) (Nat.not_lt.mpr hlength)
    · rw [List.cons_append, stringBody?.eq_3 _ _ _ fun _ _ h => (hslash h).elim] at h ⊢
      rw [if_pos hc] at h ⊢
      exact h
  -- Any other character.
  | case5 c rest hno hc ih =>
    by_cases hslash : c = '\\'
    · obtain rfl : rest = [] := by
        cases rest with
        | nil => rfl
        | cons d rest => exact (hno d rest hslash rfl).elim
      subst hslash
      exact absurd (stringBody?_slash_brace hquote h) (Nat.not_lt.mpr hlength)
    · rw [List.cons_append, stringBody?.eq_3 _ _ _ fun _ _ h => (hslash h).elim] at h ⊢
      rw [if_neg hc] at h ⊢
      obtain ⟨⟨v, n⟩, hn, heq⟩ := Option.map_eq_some_iff.mp h
      cases heq
      rw [ih hn (by simpa using hlength)]
      rfl

theorem shortCommentLength?_ge {x : List Char} {length : Nat}
    (h : shortCommentLength? x = some length) : 0 < length := by
  fun_induction shortCommentLength? x generalizing length with
  -- Two closing braces.
  | case1 rest =>
    cases h
    omega
  -- Any other character.
  | case2 c rest _ ih =>
    obtain ⟨n, -, rfl⟩ := Option.map_eq_some_iff.mp h
    omega
  -- The text has ended.
  | case3 => cases h

theorem shortCommentLength?_local {x r : List Char} (r' : List Char) {length : Nat}
    (h : shortCommentLength? (x ++ '{' :: r) = some length) (hlength : length ≤ x.length) :
    shortCommentLength? (x ++ '{' :: r') = some length := by
  fun_induction shortCommentLength? x generalizing length with
  -- Two closing braces.
  | case1 rest =>
    simp only [List.cons_append, shortCommentLength?] at h ⊢
    exact h
  -- Any other character.
  | case2 c rest hno ih =>
    have hbraces : ∀ r tail, c = '}' → rest ++ '{' :: r = ['}'] ++ tail → False := by
      intro r tail hc hrest
      obtain ⟨more, hmore⟩ := word_before_brace _ (by decide) hrest
      exact hno more hc hmore
    rw [List.cons_append, shortCommentLength?.eq_2 _ _ (hbraces _)] at h ⊢
    obtain ⟨n, hn, rfl⟩ := Option.map_eq_some_iff.mp h
    rw [ih hn (by simpa using hlength)]
    rfl
  -- The text has ended.
  | case3 => exact absurd (shortCommentLength?_ge h) (Nat.not_lt.mpr hlength)

theorem longCommentLength?_ge {x : List Char} {length : Nat}
    (h : longCommentLength? x = some length) : 0 < length := by
  fun_induction longCommentLength? x generalizing length with
  -- Two dashes and closing braces.
  | case1 rest =>
    cases h
    omega
  -- The same with a tilde.
  | case2 rest =>
    cases h
    omega
  -- Any other character.
  | case3 c rest _ _ ih =>
    obtain ⟨n, -, rfl⟩ := Option.map_eq_some_iff.mp h
    omega
  -- The text has ended.
  | case4 => cases h

theorem longCommentLength?_local {x r : List Char} (r' : List Char) {length : Nat}
    (h : longCommentLength? (x ++ '{' :: r) = some length) (hlength : length ≤ x.length) :
    longCommentLength? (x ++ '{' :: r') = some length := by
  fun_induction longCommentLength? x generalizing length with
  -- Two dashes and closing braces.
  | case1 rest =>
    simp only [List.cons_append, longCommentLength?] at h ⊢
    exact h
  -- The same with a tilde.
  | case2 rest =>
    simp only [List.cons_append, longCommentLength?] at h ⊢
    exact h
  -- Any other character.
  | case3 c rest hno hno' ih =>
    have hend : ∀ r tail, c = '-' → rest ++ '{' :: r = ['-', '}', '}'] ++ tail → False := by
      intro r tail hc hrest
      obtain ⟨more, hmore⟩ := word_before_brace _ (by decide) hrest
      exact hno more hc hmore
    have hend' : ∀ r tail, c = '-' → rest ++ '{' :: r = ['-', '~', '}', '}'] ++ tail → False := by
      intro r tail hc hrest
      obtain ⟨more, hmore⟩ := word_before_brace _ (by decide) hrest
      exact hno' more hc hmore
    rw [List.cons_append, longCommentLength?.eq_3 _ _ (hend _) (hend' _)] at h ⊢
    obtain ⟨n, hn, rfl⟩ := Option.map_eq_some_iff.mp h
    rw [ih hn (by simpa using hlength)]
    rfl
  -- The text has ended.
  | case4 => exact absurd (longCommentLength?_ge h) (Nat.not_lt.mpr hlength)

/-- An `else` tag that is closed before a brace. -/
theorem inverseClose?_stop (x r : List Char) : inverseClose? (x ++ '{' :: r) = inverseClose? x := by
  have hblank : Text.isBlank '{' = false := by decide
  simp only [inverseClose?, takeWhile_stop hblank, dropWhile_stop hblank]
  generalize x.dropWhile Text.isBlank = y
  by_cases htilde : ∃ rest, y = ['~', '}', '}'] ++ rest
  · obtain ⟨rest, rfl⟩ := htilde
    rfl
  by_cases hplain : ∃ rest, y = ['}', '}'] ++ rest
  · obtain ⟨rest, rfl⟩ := hplain
    rfl
  split
  · next rest hy => exact absurd (word_before_brace ['~', '}', '}'] (by decide) hy) htilde
  · next rest hy => exact absurd (word_before_brace ['}', '}'] (by decide) hy) hplain
  · split
    · exact absurd ⟨_, rfl⟩ htilde
    · exact absurd ⟨_, rfl⟩ hplain
    · rfl

theorem elseLength?_stop (x r : List Char) : elseLength? (x ++ '{' :: r) = elseLength? x := by
  have hblank : Text.isBlank '{' = false := by decide
  simp only [elseLength?, takeWhile_stop hblank, dropWhile_stop hblank]
  generalize x.dropWhile Text.isBlank = y
  by_cases hword : ∃ rest, y = ['e', 'l', 's', 'e'] ++ rest
  · obtain ⟨rest, rfl⟩ := hword
    simp only [List.cons_append, List.nil_append, headIs_stop (show isIdChar '{' = false by decide)]
  · split
    · next rest hy =>
      exact absurd (word_before_brace ['e', 'l', 's', 'e'] (by decide) hy) hword
    · split
      · exact absurd ⟨_, rfl⟩ hword
      · rfl

theorem elseLength?_le {x : List Char} {length : Nat} (h : elseLength? x = some length) :
    length ≤ x.length := by
  have hlength := congrArg List.length
    (List.takeWhile_append_dropWhile (p := Text.isBlank) (l := x))
  simp only [elseLength?] at h
  split at h
  · next rest hrest =>
    rw [hrest] at hlength
    split at h
    · cases h
    · cases h
      simp at hlength
      omega
  · cases h

theorem commentLexeme_local {x r : List Char} (r' : List Char) (long : Bool)
    (hvalid : (commentLexeme (x ++ '{' :: r) long).kind.isInvalid = false)
    (hmore : (commentLexeme (x ++ '{' :: r) long).more < x.length) :
    commentLexeme (x ++ '{' :: r') long = commentLexeme (x ++ '{' :: r) long := by
  unfold commentLexeme at hvalid hmore ⊢
  cases long with
  | true =>
    simp only [if_true] at hvalid hmore ⊢
    cases hlength : longCommentLength? (x ++ '{' :: r) with
    | none => simp [hlength, TokenKind.isInvalid] at hvalid
    | some length =>
      simp only [hlength] at hmore ⊢
      have hle : length ≤ x.length := by omega
      rw [longCommentLength?_local r' hlength hle]
      simp only [List.take_append_of_le_length hle]
  | false =>
    simp only [Bool.false_eq_true, if_false] at hvalid hmore ⊢
    cases hlength : shortCommentLength? (x ++ '{' :: r) with
    | none => simp [hlength, TokenKind.isInvalid] at hvalid
    | some length =>
      simp only [hlength] at hmore ⊢
      have hle : length ≤ x.length := by omega
      rw [shortCommentLength?_local r' hlength hle]
      simp only [List.take_append_of_le_length hle]


/-- What opens a tag that is no `else`, by the first characters after the braces. -/
def plainLexeme (input : List Char) (strip : Bool) (base : Nat) : List Char → Lexeme
  | '{' :: _ => { kind := .openUnescaped strip, more := base + 1 }
  | '&' :: _ => { kind := .open strip true, more := base + 1 }
  | '!' :: '-' :: '-' :: _ => commentLexeme input true
  | '!' :: _ => commentLexeme input false
  | '*' :: _ => { kind := .openDecorator, more := base + 1 }
  | _ => { kind := .open strip false, more := base }

/-- What opens a tag when no mark of a block or partial follows the braces. -/
theorem openLexeme_unmarked (input : List Char) (strip : Bool) (base : Nat) {c : Char}
    (rest : List Char) (hpartial : c ≠ '>') (hblock : c ≠ '#') (hend : c ≠ '/') (hcaret : c ≠ '^') :
    openLexeme input strip base (c :: rest) =
      match elseLength? (c :: rest) with
      | some word =>
        match inverseClose? ((c :: rest).drop word) with
        | some (length, close) => ⟨.inverse ⟨strip, close⟩, base + word + length, true⟩
        | none => ⟨.openInverseChain strip, base + word, false⟩
      | none => plainLexeme input strip base (c :: rest) := by
  unfold openLexeme
  split
  · next h => exact absurd (List.cons.inj h).1 hpartial
  · next h => exact absurd (List.cons.inj h).1 hblock
  · next h => exact absurd (List.cons.inj h).1 hblock
  · next h => exact absurd (List.cons.inj h).1 hblock
  · next h => exact absurd (List.cons.inj h).1 hend
  · next h => exact absurd (List.cons.inj h).1 hcaret
  · rfl

theorem plainLexeme_local {x y r : List Char} (r' : List Char) (strip : Bool) (base : Nat)
    (hvalid : (plainLexeme (x ++ '{' :: r) strip base (y ++ '{' :: r)).kind.isInvalid = false)
    (hmore : (plainLexeme (x ++ '{' :: r) strip base (y ++ '{' :: r)).more < x.length) :
    plainLexeme (x ++ '{' :: r') strip base (y ++ '{' :: r')
      = plainLexeme (x ++ '{' :: r) strip base (y ++ '{' :: r) := by
  by_cases hcomment : ∃ rest, y = '!' :: rest
  -- A comment is read to its end, which has to be within the text.
  · obtain ⟨y, rfl⟩ := hcomment
    by_cases hlong : ∃ rest, y = ['-', '-'] ++ rest
    · obtain ⟨y, rfl⟩ := hlong
      exact commentLexeme_local r' true hvalid hmore
    · have hshort : ∀ r input, plainLexeme input strip base ('!' :: y ++ '{' :: r)
          = commentLexeme input false := by
        intro r input
        rw [List.cons_append, plainLexeme]
        intro tail htail
        exact hlong (word_before_brace ['-', '-'] (by decide) htail)
      rw [hshort] at hvalid hmore
      rw [hshort, hshort]
      exact commentLexeme_local r' false hvalid hmore
  -- What else it is depends on the next character only.
  cases y with
  | nil => rfl
  | cons c y =>
    have hmark : c ≠ '!' := fun hc => hcomment ⟨y, by rw [hc]⟩
    by_cases hbrace : c = '{'
    · subst hbrace
      rfl
    by_cases hand : c = '&'
    · subst hand
      rfl
    by_cases hstar : c = '*'
    · subst hstar
      rfl
    simp [plainLexeme, hmark, hbrace, hand, hstar]

theorem openLexeme_local {x y r : List Char} (r' : List Char) (strip : Bool) (base : Nat)
    (hvalid : (openLexeme (x ++ '{' :: r) strip base (y ++ '{' :: r)).kind.isInvalid = false)
    (hmore : (openLexeme (x ++ '{' :: r) strip base (y ++ '{' :: r)).more < x.length) :
    openLexeme (x ++ '{' :: r') strip base (y ++ '{' :: r')
      = openLexeme (x ++ '{' :: r) strip base (y ++ '{' :: r) := by
  cases y with
  | nil =>
    have h : ∀ input r, openLexeme input strip base ([] ++ '{' :: r)
        = ⟨.openUnescaped strip, base + 1, false⟩ := by
      intro input r
      rw [List.nil_append, openLexeme_unmarked _ _ _ _ (by decide) (by decide) (by decide) (by decide),
        show '{' :: r = [] ++ '{' :: r from rfl, elseLength?_stop]
      rfl
    rw [h, h]
  | cons c y =>
    by_cases hpartial : c = '>'
    · subst hpartial
      rfl
    by_cases hblock : c = '#'
    · subst hblock
      cases y with
      | nil => simp [openLexeme]
      | cons d y =>
        by_cases hd : d = '>'
        · subst hd
          rfl
        by_cases hstar : d = '*'
        · subst hstar
          rfl
        simp [openLexeme, hd, hstar]
    by_cases hend : c = '/'
    · subst hend
      rfl
    by_cases hcaret : c = '^'
    · subst hcaret
      simp only [List.cons_append, openLexeme, inverseClose?_stop]
    -- What is left is `else`, and then what the first characters say.
    have hopen : ∀ input r, openLexeme input strip base (c :: y ++ '{' :: r) =
        match elseLength? (c :: y) with
        | some word =>
          match inverseClose? ((c :: y).drop word) with
          | some (length, close) => ⟨.inverse ⟨strip, close⟩, base + word + length, true⟩
          | none => ⟨.openInverseChain strip, base + word, false⟩
        | none => plainLexeme input strip base (c :: y ++ '{' :: r) := by
      intro input r
      rw [List.cons_append, openLexeme_unmarked _ _ _ _ hpartial hblock hend hcaret,
        ← List.cons_append, elseLength?_stop]
      cases hword : elseLength? (c :: y) with
      | none => rfl
      | some word =>
        simp only [List.drop_append_of_le_length (elseLength?_le hword), inverseClose?_stop]
    rw [hopen] at hvalid hmore
    rw [hopen, hopen]
    cases hword : elseLength? (c :: y) with
    | some word => rfl
    | none =>
      rw [hword] at hvalid hmore
      exact plainLexeme_local r' strip base hvalid hmore

/-- A rule whose tokens, when they end before two opening braces, do not depend on what comes after
the braces. -/
def Local (rule : Rule) : Prop :=
  ∀ ⦃x r : List Char⦄ ⦃l : Lexeme⦄ (r' : List Char), rule (x ++ '{' :: '{' :: r) = some l →
    l.kind.isInvalid = false → l.more < x.length → rule (x ++ '{' :: '{' :: r') = some l

/-- A rule that finds no token whatever comes after two opening braces, or whatever does. -/
def Missing (rule : Rule) : Prop :=
  ∀ ⦃x r : List Char⦄ (r' : List Char), x ≠ [] → rule (x ++ '{' :: '{' :: r) = none →
    rule (x ++ '{' :: '{' :: r') = none

theorem openRule_eq_none {x : List Char} :
    openRule x = none ↔ ¬ ∃ rest, x = '{' :: '{' :: rest := by
  constructor
  · rintro h ⟨rest, rfl⟩
    unfold openRule at h
    split at h <;> simp_all
  · intro h
    rw [openRule]
    · rintro rest rfl
      exact h ⟨_, rfl⟩
    · rintro rest rfl
      exact h ⟨_, rfl⟩
    · rintro rest rfl
      exact h ⟨_, rfl⟩

/-- A tag whose braces are not all followed by their own text. -/
theorem openRule_local : Local openRule := by
  intro x r l r' h hvalid hmore
  match x with
  | [] => simp at hmore
  | [c] =>
    -- The first of three braces alone is no token.
    obtain rfl : c = '{' := by
      by_contra hc
      rw [openRule_eq_none.mpr (by simp [hc])] at h
      cases h
    by_cases hraw : ∃ rest, r = '{' :: rest
    · obtain ⟨rest, rfl⟩ := hraw
      simp only [List.cons_append, List.nil_append, openRule, Option.some.injEq] at h
      subst h
      simp at hmore
    · rw [List.cons_append, List.nil_append, openRule.eq_3 _ (by simpa using hraw) (by simp)] at h
      have hopen : openLexeme ('{' :: '{' :: '{' :: r) false 1 ('{' :: r)
          = ⟨.openUnescaped false, 2, false⟩ := by
        rw [openLexeme_unmarked _ _ _ _ (by decide) (by decide) (by decide) (by decide),
          show '{' :: r = [] ++ '{' :: r from rfl, elseLength?_stop]
        rfl
      rw [hopen, Option.some.injEq] at h
      subst h
      simp at hmore
  | c :: d :: y =>
    obtain ⟨rfl, rfl⟩ : c = '{' ∧ d = '{' := by
      by_contra hcd
      rw [openRule_eq_none.mpr (by simpa using hcd)] at h
      cases h
    by_cases htilde : ∃ rest, y = '~' :: rest
    · obtain ⟨y, rfl⟩ := htilde
      simp only [List.cons_append, openRule, Option.some.injEq] at h ⊢
      rw [← h] at hvalid hmore ⊢
      exact openLexeme_local (x := '{' :: '{' :: '~' :: y) (y := y) (r := '{' :: r) ('{' :: r') true 2
        hvalid hmore
    -- Four braces are told by the first two after those of `x`.
    by_cases hraw : y = [] ∨ y = ['{'] ∨ ∃ rest, y = '{' :: '{' :: rest
    · rcases hraw with rfl | rfl | ⟨rest, rfl⟩ <;> exact h
    have hfour : ∀ r tail, y ++ '{' :: '{' :: r = '{' :: '{' :: tail → False := by
      intro r tail htail
      apply hraw
      match y with
      | [] => exact .inl rfl
      | [a] =>
        obtain ⟨rfl, -⟩ := List.cons.inj htail
        exact .inr (.inl rfl)
      | a :: b :: y =>
        obtain ⟨rfl, hrest⟩ := List.cons.inj htail
        obtain ⟨rfl, -⟩ := List.cons.inj hrest
        exact .inr (.inr ⟨y, rfl⟩)
    have hno : ∀ r tail, y ++ '{' :: '{' :: r = ['~'] ++ tail → False :=
      fun r tail htail => htilde (word_before_brace _ (by decide) htail)
    have hopen : ∀ r, openRule ('{' :: '{' :: y ++ '{' :: '{' :: r)
        = some (openLexeme ('{' :: '{' :: y ++ '{' :: '{' :: r) false 1 (y ++ '{' :: '{' :: r)) :=
      fun r => openRule.eq_3 _ (hfour r) (hno r)
    rw [hopen, Option.some.injEq] at h
    subst h
    rw [hopen, openLexeme_local (x := '{' :: '{' :: y) (y := y) (r := '{' :: r) ('{' :: r') false 1
      hvalid hmore]

theorem stringRule_local : Local stringRule := by
  intro x r l r' h hvalid hmore
  cases x with
  | nil => simp at hmore
  | cons quote x =>
    simp only [List.cons_append, stringRule] at h ⊢
    split at h
    · next hquote =>
      rw [if_pos hquote]
      have hne : quote ≠ '{' := by
        rintro rfl
        simp at hquote
      split at h
      · next value length hbody =>
        cases h
        rw [stringBody?_local hne _ hbody (Nat.lt_succ_iff.mp hmore)]
      · cases h
        cases hvalid
    · cases h

theorem stringRule_missing : Missing stringRule := by
  intro x r r' hx h
  obtain ⟨quote, x, rfl⟩ := List.exists_cons_of_ne_nil hx
  simp only [List.cons_append, stringRule] at h ⊢
  split at h
  · split at h <;> cases h
  · next hquote => rw [if_neg hquote]

theorem bracketRule_local : Local bracketRule := by
  intro x r l r' h hvalid hmore
  cases x with
  | nil => simp at hmore
  | cons c x =>
    by_cases hc : c = '['
    · subst hc
      simp only [List.cons_append, bracketRule] at h ⊢
      obtain ⟨length, hlength, rfl⟩ := Option.map_eq_some_iff.mp h
      have hle : length ≤ x.length := Nat.lt_succ_iff.mp hmore
      rw [segmentLength?_local _ hlength hle, Option.map_some, List.take_append_of_le_length hle,
        List.take_append_of_le_length hle]
    · simp [bracketRule, hc] at h

theorem openRule_missing : Missing openRule := by
  intro x r r' hx h
  rw [openRule_eq_none] at h ⊢
  rintro ⟨rest, hrest⟩
  apply h
  match x, hx with
  | [c], _ =>
    obtain ⟨rfl, -⟩ := List.cons.inj hrest
    exact ⟨_, rfl⟩
  | c :: d :: x, _ =>
    obtain ⟨rfl, htail⟩ := List.cons.inj hrest
    obtain ⟨rfl, -⟩ := List.cons.inj htail
    exact ⟨_, rfl⟩

/-! ### Tokens before two opening braces -/

theorem Steady.local {rule : Rule} (h : Steady rule) : Local rule := by
  intro x r l r' hl _ hmore
  have hx : x ≠ [] := List.ne_nil_of_length_pos (Nat.zero_lt_of_lt hmore)
  rw [h x r' hx, ← h x r hx, hl]

theorem Steady.missing {rule : Rule} (h : Steady rule) : Missing rule := by
  intro x r r' hx hl
  rw [h x r' hx, ← h x r hx, hl]

theorem findSome?_local {rules : List Rule} (hlocal : ∀ rule ∈ rules, Local rule)
    (hmissing : ∀ rule ∈ rules.dropLast, Missing rule) {x r : List Char} {l : Lexeme}
    (r' : List Char)
    (h : rules.findSome? (· (x ++ '{' :: '{' :: r)) = some l) (hvalid : l.kind.isInvalid = false)
    (hmore : l.more < x.length) : rules.findSome? (· (x ++ '{' :: '{' :: r')) = some l := by
  induction rules with
  | nil => cases h
  | cons rule rest ih =>
    rw [List.findSome?_cons] at h ⊢
    cases hrule : rule (x ++ '{' :: '{' :: r) with
    | some l' =>
      rw [hrule] at h
      cases h
      rw [hlocal rule List.mem_cons_self r' hrule hvalid hmore]
    | none =>
      rw [hrule] at h
      -- The last rule is not asked after a miss, so this one is not the last.
      have hne : rest ≠ [] := by
        rintro rfl
        cases h
      have hx : x ≠ [] := List.ne_nil_of_length_pos (Nat.zero_lt_of_lt hmore)
      have hmiss := hmissing rule (by simp [List.dropLast_cons_of_ne_nil hne]) r' hx hrule
      rw [hmiss]
      refine ih (fun rule hrule => hlocal rule (List.mem_cons_of_mem _ hrule))
        (fun rule hrule => hmissing rule ?_) h
      rw [List.dropLast_cons_of_ne_nil hne]
      exact List.mem_cons_of_mem _ hrule

theorem tagRules_local : ∀ rule ∈ tagRules, Local rule := by
  simp only [tagRules, List.forall_mem_cons]
  exact ⟨openRule_local, punctuationRule_steady.local, dotRule_steady.local,
    closeRule_steady.local, stringRule_local, dataRule_steady.local, wordRule_steady.local,
    numberRule_steady.local, openBlockParamsRule_steady.local, barRule_steady.local,
    idRule_steady.local, bracketRule_local, by simp⟩

theorem tagRules_missing : ∀ rule ∈ tagRules.dropLast, Missing rule := by
  simp only [tagRules, List.dropLast, List.forall_mem_cons]
  exact ⟨openRule_missing, punctuationRule_steady.missing, dotRule_steady.missing,
    closeRule_steady.missing, stringRule_missing, dataRule_steady.missing,
    wordRule_steady.missing, numberRule_steady.missing, openBlockParamsRule_steady.missing,
    barRule_steady.missing, idRule_steady.missing, by simp⟩

/-- A token that ends before two opening braces is the same whatever comes after the braces. -/
theorem tagLexeme_local {c : Char} {x r : List Char} (r' : List Char)
    (hvalid : (tagLexeme c (x ++ '{' :: '{' :: r)).kind.isInvalid = false)
    (hmore : (tagLexeme c (x ++ '{' :: '{' :: r)).more ≤ x.length) :
    tagLexeme c (x ++ '{' :: '{' :: r') = tagLexeme c (x ++ '{' :: '{' :: r) := by
  unfold tagLexeme at hvalid hmore ⊢
  cases h : tagRules.findSome? (· (c :: (x ++ '{' :: '{' :: r))) with
  | none =>
    rw [h] at hvalid
    cases hvalid
  | some l =>
    rw [h] at hvalid hmore
    have := findSome?_local tagRules_local tagRules_missing (x := c :: x) r' h hvalid
      (Nat.lt_succ_of_le hmore)
    rw [List.cons_append] at this
    rw [this]

end TemplateCompiler.Mustache
