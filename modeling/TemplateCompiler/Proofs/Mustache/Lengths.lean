/-
Tokens inside tags fit the text.

Each rule counts the characters of its token in its own way: up to a quote, a bracket, a
closing brace, or as far as a class of characters goes.

* `Lexeme.Fits` — all characters that a token covers are there, and the last one of a
  token that ends a tag is a closing brace;
* `tagRules_fit` — what a rule finds fits;
* `tagLexeme_fits` — so do all tokens inside a tag.
-/
import TemplateCompiler.Proofs.Mustache.Lookahead

namespace TemplateCompiler.Mustache

/-- A token fits the text that it starts: the characters that it covers are there, and a
token that ends a tag covers a closing brace last. -/
structure Lexeme.Fits (l : Lexeme) (input : List Char) : Prop where
  more_lt : l.more < input.length
  closed : l.ends = true → input[l.more]? = some '}'

/-- A token that ends with a closing brace. -/
theorem Lexeme.Fits.of_closed {l : Lexeme} {input : List Char} (h : input[l.more]? = some '}') :
    l.Fits input :=
  ⟨(List.getElem?_eq_some_iff.mp h).choose, fun _ => h⟩

/-- A token that does not end a tag. -/
theorem Lexeme.Fits.of_lt {l : Lexeme} {input : List Char} (hends : l.ends = false)
    (h : l.more < input.length) : l.Fits input :=
  ⟨h, fun hends' => by rw [hends] at hends'; cases hends'⟩

/-! ### Ends that are looked for -/

theorem shortCommentLength?_closed {x : List Char} {length : Nat}
    (h : shortCommentLength? x = some length) : x[length - 1]? = some '}' := by
  fun_induction shortCommentLength? x generalizing length with
  -- Two closing braces.
  | case1 rest =>
    cases h
    rfl
  -- Any other character.
  | case2 c rest _ ih =>
    obtain ⟨n, hn, rfl⟩ := Option.map_eq_some_iff.mp h
    have hpos := shortCommentLength?_ge hn
    rw [Nat.add_sub_cancel, show n = n - 1 + 1 by omega, List.getElem?_cons_succ]
    exact ih hn
  -- The text has ended.
  | case3 => cases h

theorem longCommentLength?_closed {x : List Char} {length : Nat}
    (h : longCommentLength? x = some length) : x[length - 1]? = some '}' := by
  fun_induction longCommentLength? x generalizing length with
  -- Two dashes and closing braces.
  | case1 rest =>
    cases h
    rfl
  -- The same with a tilde.
  | case2 rest =>
    cases h
    rfl
  -- Any other character.
  | case3 c rest _ _ ih =>
    obtain ⟨n, hn, rfl⟩ := Option.map_eq_some_iff.mp h
    have hpos := longCommentLength?_ge hn
    rw [Nat.add_sub_cancel, show n = n - 1 + 1 by omega, List.getElem?_cons_succ]
    exact ih hn
  -- The text has ended.
  | case4 => cases h

theorem inverseClose?_closed {x : List Char} {length : Nat} {strip : Bool}
    (h : inverseClose? x = some (length, strip)) : 0 < length ∧ x[length - 1]? = some '}' := by
  have hx := List.takeWhile_append_dropWhile (p := Text.isBlank) (l := x)
  simp only [inverseClose?] at h
  generalize x.takeWhile Text.isBlank = blanks at h hx
  split at h
  · next rest hrest =>
    cases h
    rw [← hx, hrest]
    exact ⟨Nat.succ_pos _, by rw [List.getElem?_append_right] <;> simp⟩
  · next rest hrest =>
    cases h
    rw [← hx, hrest]
    exact ⟨Nat.succ_pos _, by rw [List.getElem?_append_right] <;> simp⟩
  · cases h

theorem stringBody?_le {quote : Char} {x value : List Char} {length : Nat}
    (h : stringBody? quote x = some (value, length)) : length ≤ x.length := by
  fun_induction stringBody? quote x generalizing value length with
  -- The text has ended.
  | case1 => cases h
  -- A quote behind a backslash.
  | case2 c rest hquote ih =>
    obtain ⟨⟨v, n⟩, hn, heq⟩ := Option.map_eq_some_iff.mp h
    cases heq
    exact Nat.succ_le_succ (Nat.succ_le_succ (ih hn))
  -- A backslash before anything else.
  | case3 c rest hquote ih =>
    obtain ⟨⟨v, n⟩, hn, heq⟩ := Option.map_eq_some_iff.mp h
    cases heq
    exact Nat.succ_le_succ (ih hn)
  -- The closing quote.
  | case4 c rest hno hquote =>
    cases h
    exact Nat.succ_le_succ (Nat.zero_le _)
  -- Any other character.
  | case5 c rest hno hquote ih =>
    obtain ⟨⟨v, n⟩, hn, heq⟩ := Option.map_eq_some_iff.mp h
    cases heq
    exact Nat.succ_le_succ (ih hn)

theorem segmentLength?_le {x : List Char} {length : Nat} (h : segmentLength? x = some length) :
    length ≤ x.length := by
  fun_induction segmentLength? x generalizing length with
  -- The text has ended.
  | case1 => cases h
  -- A bracket behind a backslash.
  | case2 rest ih =>
    obtain ⟨n, hn, rfl⟩ := Option.map_eq_some_iff.mp h
    exact Nat.succ_le_succ (Nat.succ_le_succ (ih hn))
  -- The closing bracket.
  | case3 rest =>
    cases h
    exact Nat.succ_le_succ (Nat.zero_le _)
  -- Any other character.
  | case4 c rest _ _ ih =>
    obtain ⟨n, hn, rfl⟩ := Option.map_eq_some_iff.mp h
    exact Nat.succ_le_succ (ih hn)

theorem after?_eq_some {word x rest : List Char} (h : after? word x = some rest) :
    x = word ++ rest := by
  fun_induction after? word x with
  -- The word is used up.
  | case1 => rw [Option.some.inj h, List.nil_append]
  -- The text has ended.
  | case2 => cases h
  -- The next characters are the same.
  | case3 w word c cs hw ih => rw [ih h, eq_of_beq hw, List.cons_append]
  -- They differ.
  | case4 => cases h

/-! ### Rules -/

/-- A rule that finds only what fits. -/
def Rule.Fit (rule : Rule) : Prop :=
  ∀ {input : List Char} {l : Lexeme}, rule input = some l → l.Fits input

theorem commentLexeme_fits {input : List Char} (hne : input ≠ []) (long : Bool) :
    (commentLexeme input long).Fits input := by
  rw [commentLexeme]
  split
  · exact .of_lt rfl (List.length_pos_iff.mpr hne)
  · next length hlength =>
    refine .of_closed ?_
    cases long with
    | false => exact shortCommentLength?_closed hlength
    | true => exact longCommentLength?_closed hlength

/-- What opens a tag fits the text, since what follows the braces and the tilde fits the rest. -/
theorem openLexeme_fits (front : List Char) {tail : List Char} {base : Nat} (strip : Bool)
    (hbase : front.length = base + 1) :
    (openLexeme (front ++ tail) strip base tail).Fits (front ++ tail) := by
  have hlength : (front ++ tail).length = base + 1 + tail.length := by
    rw [List.length_append, hbase]
  have hne : front ++ tail ≠ [] := by
    rw [← List.length_pos_iff, hlength]
    omega
  -- The characters after the braces and the tilde, by their places in the whole text.
  have hplace : ∀ {n : Nat}, 0 < n → (front ++ tail)[base + n]? = tail[n - 1]? := by
    intro n hn
    rw [List.getElem?_append_right (by omega), hbase]
    exact congrArg (tail[·]?) (by omega)
  unfold openLexeme
  split
  case h_6 rest =>
    split
    · next length close hclose =>
      obtain ⟨hpos, hlast⟩ := inverseClose?_closed hclose
      refine .of_closed ?_
      simp only
      rw [Nat.add_assoc, hplace (by omega), Nat.add_sub_cancel_left,
        ← Nat.sub_add_cancel hpos, List.getElem?_cons_succ]
      exact hlast
    · exact .of_lt rfl (by simp only [hlength, List.length_cons]; omega)
  case h_7 =>
    split
    · next word hword =>
      have hle := elseLength?_le hword
      split
      · next length close hclose =>
        obtain ⟨hpos, hlast⟩ := inverseClose?_closed hclose
        refine .of_closed ?_
        rw [List.getElem?_drop] at hlast
        simp only
        rw [Nat.add_assoc, hplace (by omega), ← hlast]
        exact congrArg (tail[·]?) (by omega)
      · exact .of_lt rfl (by simp only [hlength]; omega)
    · split
      all_goals first
        | exact commentLexeme_fits hne _
        | exact .of_lt rfl (by simp only [hlength, List.length_cons]; omega)
  all_goals exact .of_lt rfl (by simp only [hlength, List.length_cons]; omega)

theorem openRule_fit : Rule.Fit openRule := by
  intro input l h
  unfold openRule at h
  split at h <;> cases h
  · exact .of_lt rfl (by simp)
  · exact openLexeme_fits ['{', '{', '~'] true rfl
  · exact openLexeme_fits ['{', '{'] false rfl

theorem punctuationRule_fit : Rule.Fit punctuationRule := by
  intro input l h
  unfold punctuationRule at h
  split at h <;> cases h <;> exact .of_lt rfl (by simp)

theorem dotRule_fit : Rule.Fit dotRule := by
  intro input l h
  unfold dotRule at h
  split at h <;> cases h <;> exact .of_lt rfl (by simp)

theorem closeRule_fit : Rule.Fit closeRule := by
  intro input l h
  unfold closeRule at h
  split at h <;> cases h <;> exact .of_closed rfl

theorem stringRule_fit : Rule.Fit stringRule := by
  intro input l h
  unfold stringRule at h
  split at h
  · cases h
  · next quote rest =>
    obtain ⟨-, h⟩ := Option.ite_none_right_eq_some.mp h
    split at h <;> cases h
    · next value length hbody => exact .of_lt rfl (Nat.lt_succ_of_le (stringBody?_le hbody))
    · exact .of_lt rfl (by simp)

theorem dataRule_fit : Rule.Fit dataRule := by
  intro input l h
  unfold dataRule at h
  split at h <;> cases h
  exact .of_lt rfl (by simp)

theorem wordRule_fit : Rule.Fit wordRule := by
  intro input l h
  obtain ⟨⟨word, kind⟩, hmem, hword⟩ := List.exists_of_findSome?_eq_some h
  have hpos : 0 < word.toList.length := by
    simp only [valueWords, List.mem_cons, List.not_mem_nil, Prod.mk.injEq, or_false] at hmem
    rcases hmem with ⟨rfl, -⟩ | ⟨rfl, -⟩ | ⟨rfl, -⟩ | ⟨rfl, -⟩ <;> decide
  simp only at hword
  split at hword
  · next rest hrest =>
    obtain ⟨-, hl⟩ := Option.ite_none_right_eq_some.mp hword
    cases hl
    refine .of_lt rfl ?_
    rw [after?_eq_some hrest, List.length_append, ← String.length_toList]
    simp only
    omega
  · cases hword

theorem numberRule_fit : Rule.Fit numberRule := by
  intro input l h
  obtain ⟨hwhole, hl⟩ := Option.ite_none_right_eq_some.mp h
  cases hl
  refine .of_lt rfl ?_
  have hne : input ≠ [] := by
    rintro rfl
    simp [headIs] at hwhole
  have hpos := List.length_pos_iff.mpr hne
  simp only
  omega

theorem openBlockParamsRule_fit : Rule.Fit openBlockParamsRule := by
  intro input l h
  unfold openBlockParamsRule at h
  split at h
  · next rest =>
    simp only at h
    split at h
    · next more hbar =>
      obtain ⟨-, hl⟩ := Option.ite_none_right_eq_some.mp h
      cases hl
      have hlength := congrArg List.length
        (List.takeWhile_append_dropWhile (p := Text.isBlank) (l := rest))
      rw [hbar, List.length_append, List.length_cons] at hlength
      refine .of_lt rfl ?_
      simp only [List.length_cons]
      omega
    · cases h
  · cases h

theorem barRule_fit : Rule.Fit barRule := by
  intro input l h
  unfold barRule at h
  split at h <;> cases h
  exact .of_lt rfl (by simp)

theorem idRule_fit : Rule.Fit idRule := by
  intro input l h
  obtain ⟨hname, hl⟩ := Option.ite_none_right_eq_some.mp h
  cases hl
  simp only [Bool.and_eq_true, Bool.not_eq_true', List.isEmpty_eq_false_iff] at hname
  have hpos := List.length_pos_iff.mpr hname.1
  have hle := (List.takeWhile_prefix (l := input) isIdChar).length_le
  refine .of_lt rfl ?_
  simp only
  omega

theorem bracketRule_fit : Rule.Fit bracketRule := by
  intro input l h
  unfold bracketRule at h
  split at h
  · next rest =>
    obtain ⟨length, hlength, rfl⟩ := Option.map_eq_some_iff.mp h
    exact .of_lt rfl (Nat.lt_succ_of_le (segmentLength?_le hlength))
  · cases h

theorem tagRules_fit {rule : Rule} (hrule : rule ∈ tagRules) : Rule.Fit rule := by
  simp only [tagRules, List.mem_cons, List.not_mem_nil, or_false] at hrule
  rcases hrule with rfl | rfl | rfl | rfl | rfl | rfl | rfl | rfl | rfl | rfl | rfl | rfl
  · exact openRule_fit
  · exact punctuationRule_fit
  · exact dotRule_fit
  · exact closeRule_fit
  · exact stringRule_fit
  · exact dataRule_fit
  · exact wordRule_fit
  · exact numberRule_fit
  · exact openBlockParamsRule_fit
  · exact barRule_fit
  · exact idRule_fit
  · exact bracketRule_fit

/-- A token inside a tag fits the text at its place. -/
theorem tagLexeme_fits (c : Char) (rest : List Char) : (tagLexeme c rest).Fits (c :: rest) := by
  rw [tagLexeme]
  cases hfound : tagRules.findSome? (· (c :: rest)) with
  | none => exact .of_lt rfl (Nat.succ_pos _)
  | some l =>
    obtain ⟨rule, hmem, hl⟩ := List.exists_of_findSome?_eq_some hfound
    exact tagRules_fit hmem hl

end TemplateCompiler.Mustache
