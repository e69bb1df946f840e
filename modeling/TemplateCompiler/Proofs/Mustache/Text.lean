/-
Runs of text stand in the source.

The lexer drops the backslashes before braces, but what is left of a run of text
is always one piece of the source, and the run knows where the piece begins.

* `Text.StandsAt` — a piece of a text begins at a byte offset;
* `splitAtBraces_drop`, `beforeEscapes_cases` — where text ends in front of braces;
* `lex_standsIn` — every token for text is a piece of the source.
-/
import TemplateCompiler.Mustache.Lexer
import TemplateCompiler.Proofs.Mustache.Kinds

namespace TemplateCompiler

/-! ### Pieces of a text -/

/-- A piece of a text begins at a byte offset. -/
def Text.StandsAt (text part : List Char) (start : Nat) : Prop :=
  ∃ before after, text = before ++ part ++ after ∧ Text.byteLength before = start

/-- What is left of a piece after its ends are cut off is a piece. -/
theorem Text.StandsAt.cut {text part dropped kept dropped' : List Char} {start : Nat}
    (h : Text.StandsAt text part start) (hpart : part = dropped ++ kept ++ dropped') :
    Text.StandsAt text kept (start + Text.byteLength dropped) := by
  obtain ⟨before, after, rfl, rfl⟩ := h
  exact ⟨before ++ dropped, dropped' ++ after, by simp [hpart], by simp⟩

/-- A piece ends inside the text. -/
theorem Text.StandsAt.stop_le {text part : List Char} {start : Nat}
    (h : Text.StandsAt text part start) :
    start + Text.byteLength part ≤ Text.byteLength text := by
  obtain ⟨before, after, rfl, rfl⟩ := h
  simp only [Text.byteLength_append]
  omega

/-- A piece is what the text has between its offsets. -/
theorem Text.StandsAt.slice? {text part : List Char} {start : Nat}
    (h : Text.StandsAt text part start) :
    Text.slice? text start (start + Text.byteLength part) = some part := by
  obtain ⟨before, after, rfl, rfl⟩ := h
  rw [List.append_assoc]
  exact Text.slice?_between before part after

namespace Mustache

/-! ### Cutting a text at braces -/

theorem splitAtBraces_snd {input rest : List Char} {c : Char}
    (h : (splitAtBraces input).2 = c :: rest) : ['{', '{'] <+: c :: rest := by
  fun_induction splitAtBraces input with
  -- The text has ended.
  | case1 => cases h
  -- Two braces stand here.
  | case2 rest =>
    rw [← h]
    exact List.prefix_append ['{', '{'] rest
  -- Any other character.
  | case3 c rest _ halves ih => exact ih h

/-- Reading a text later finds the same braces. -/
theorem splitAtBraces_drop (front : List Char) {input text rest : List Char}
    (h : splitAtBraces (front ++ input) = (front ++ text, rest)) :
    splitAtBraces input = (text, rest) := by
  induction front with
  | nil => exact h
  | cons c front ih =>
    refine ih ?_
    rw [List.cons_append, splitAtBraces.eq_def] at h
    split at h
    · next heq => cases heq
    · next heq => simp at h
    · next c' rest' _ heq =>
      obtain ⟨rfl, rfl⟩ := List.cons.inj heq
      simp only [List.cons_append, Prod.mk.injEq, List.cons.injEq, true_and] at h
      exact Prod.ext h.1 h.2

/-- A text without braces is one run of text, up to the end. -/
theorem lexFrom_plain {input : List Char} (h : splitAtBraces input = (input, [])) (offset : Nat) :
    lexFrom .content offset input
      = contentTokens input offset (offset + Text.byteLength input)
        ++ [⟨.eof, .ofOffsets (offset + Text.byteLength input)
          (offset + Text.byteLength input)⟩] := by
  rw [lexFrom]
  split
  · rw [h]
  · next hrest =>
    rw [h] at hrest
    cases hrest

theorem dropOneEnd_append_self (c : Char) (cs : List Char) : dropOneEnd c (cs ++ [c]) = cs := by
  simp [dropOneEnd, dropOne]

theorem dropOneEnd_of_getLast? {c : Char} {cs : List Char} (h : cs.getLast? ≠ some c) :
    dropOneEnd c cs = cs := by
  rcases List.eq_nil_or_concat cs with rfl | ⟨front, d, rfl⟩
  · rfl
  · have hne : c ≠ d := by
      rintro rfl
      simp at h
    simp [dropOneEnd, dropOne, hne]

/-- What braces begin goes on up to the next ones, without the backslashes in front of these. -/
theorem escapedText_eq (tail : List Char) :
    escapedText ('{' :: '{' :: tail) = '{' :: '{' ::
      if (splitAtBraces tail).2.isEmpty then (splitAtBraces tail).1
      else beforeEscapes (splitAtBraces tail).1 := rfl

/-- Two backslashes are dropped from the end of a text, or all that it ends with. -/
theorem beforeEscapes_cases (cs : List Char) :
    cs = beforeEscapes cs ++ ['\\', '\\'] ∨
      (cs = beforeEscapes cs ++ ['\\'] ∨ cs = beforeEscapes cs) ∧
        (beforeEscapes cs).getLast? ≠ some '\\' := by
  by_cases hlast : cs.getLast? = some '\\'
  · obtain ⟨front, rfl⟩ := List.getLast?_eq_some_iff.mp hlast
    rw [beforeEscapes, dropOneEnd_append_self]
    by_cases hlast' : front.getLast? = some '\\'
    · obtain ⟨front', rfl⟩ := List.getLast?_eq_some_iff.mp hlast'
      rw [dropOneEnd_append_self]
      exact .inl (by simp)
    · rw [dropOneEnd_of_getLast? hlast']
      exact .inr ⟨.inl rfl, hlast'⟩
  · rw [beforeEscapes, dropOneEnd_of_getLast? hlast, dropOneEnd_of_getLast? hlast]
    exact .inr ⟨.inr rfl, hlast⟩

/-! ### Tokens -/

theorem dropOne_suffix (c : Char) (cs : List Char) : dropOne c cs <:+ cs := by
  cases cs with
  | nil => exact List.suffix_rfl
  | cons d rest =>
    rw [dropOne]
    split
    · exact List.suffix_cons d rest
    · exact List.suffix_rfl

theorem dropOneEnd_head (c : Char) (cs : List Char) : dropOneEnd c cs <+: cs := by
  simpa [dropOneEnd] using List.reverse_prefix.mpr (dropOne_suffix c cs.reverse)

theorem escapedText_head (cs : List Char) : escapedText cs <+: cs := by
  have hhalves : (splitAtBraces (cs.drop 2)).1 <+: cs.drop 2 :=
    ⟨_, splitAtBraces_append (cs.drop 2)⟩
  have htail : (if (splitAtBraces (cs.drop 2)).2.isEmpty then (splitAtBraces (cs.drop 2)).1
      else beforeEscapes (splitAtBraces (cs.drop 2)).1) <+: cs.drop 2 := by
    split
    · exact hhalves
    · exact ((dropOneEnd_head _ _).trans (dropOneEnd_head _ _)).trans hhalves
  calc escapedText cs <+: cs.take 2 ++ cs.drop 2 := (List.prefix_append_right_inj _).mpr htail
    _ = cs := List.take_append_drop 2 cs

/-- The braces are among the escaped text, so what follows it is what is read
next. -/
theorem escapedText_append (brace : Char) (rest : List Char) :
    escapedText (brace :: rest) ++ rest.drop ((escapedText (brace :: rest)).length - 1)
      = brace :: rest := by
  obtain ⟨tail, htail⟩ := escapedText_head (brace :: rest)
  obtain ⟨n, hn⟩ : ∃ n, (escapedText (brace :: rest)).length = n + 1 := by
    have hfirst : escapedText (brace :: rest) = brace :: (escapedText (brace :: rest)).tail := rfl
    rw [hfirst]
    exact ⟨_, List.length_cons⟩
  have hdrop : rest.drop n = tail := by
    calc rest.drop n = (brace :: rest).drop (escapedText (brace :: rest)).length := by rw [hn]; rfl
      _ = (escapedText (brace :: rest) ++ tail).drop (escapedText (brace :: rest)).length := by
          rw [htail]
      _ = tail := List.drop_left
  rw [hn, Nat.add_sub_cancel, hdrop, htail]

/-- A token for text is a piece of the text it was cut from. -/
def Token.StandsIn (text : List Char) (offset : Nat) (t : Token) : Prop :=
  ∀ value, t.kind = .content value → ∃ before after, text = before ++ value.toList ++ after ∧
    t.span.start = min (offset + Text.byteLength before) maxOffset

theorem Token.StandsIn.later {before text : List Char} {offset : Nat} {t : Token}
    (h : t.StandsIn text (offset + Text.byteLength before)) :
    t.StandsIn (before ++ text) offset := by
  intro value hvalue
  obtain ⟨skipped, after, rfl, hstart⟩ := h value hvalue
  refine ⟨before ++ skipped, after, by simp, ?_⟩
  rw [hstart, Text.byteLength_append, Nat.add_assoc]

theorem contentTokens_standsIn {value after : List Char} {start stop : Nat} :
    ∀ t ∈ contentTokens value start stop, t.StandsIn (value ++ after) start := by
  intro t ht value' hvalue
  rw [contentTokens] at ht
  split at ht
  · cases ht
  · obtain rfl := List.mem_singleton.mp ht
    cases hvalue
    exact ⟨[], after, by simp, by simp [Span.ofOffsets]⟩

theorem contentTokens_dropLast_standsIn {value after : List Char} {start stop : Nat} :
    ∀ t ∈ contentTokens value.dropLast start stop, t.StandsIn (value ++ after) start := by
  obtain ⟨last, hlast⟩ := List.dropLast_prefix value
  have hvalue : value ++ after = value.dropLast ++ (last ++ after) := by
    rw [← List.append_assoc, hlast]
  rw [hvalue]
  exact contentTokens_standsIn

theorem standsIn_of_kind {text : List Char} {offset : Nat} {t : Token}
    (h : ∀ value, t.kind ≠ .content value) : t.StandsIn text offset :=
  fun value hvalue => absurd hvalue (h value)

/-- A token inside a tag stands between the blanks before it and the rest. -/
theorem append_of_dropWhile_blank {input rest : List Char} {c : Char}
    (h : input.dropWhile Text.isBlank = c :: rest) (more : Nat) :
    input.takeWhile Text.isBlank ++ ((c :: rest.take more) ++ rest.drop more) = input := by
  rw [List.cons_append, List.take_append_drop, ← h, List.takeWhile_append_dropWhile]

/-- Without a token there are only blanks. -/
theorem takeWhile_blank_of_dropWhile {input : List Char} (h : input.dropWhile Text.isBlank = []) :
    input.takeWhile Text.isBlank = input := by
  rw [← List.append_nil (input.takeWhile Text.isBlank), ← h, List.takeWhile_append_dropWhile]

theorem lexFrom_standsIn (mode : Mode) (offset : Nat) (input : List Char) :
    ∀ t ∈ lexFrom mode offset input, t.StandsIn input offset := by
  fun_induction lexFrom mode offset input with
  -- Text up to the end.
  | case1 offset input text stop h =>
    have hinput : input = text ++ [] := (append_of_splitAtBraces h).symm
    refine List.forall_mem_append.mpr ⟨?_, ?_⟩
    · rw [hinput]
      exact contentTokens_standsIn
    · exact List.forall_mem_singleton.mpr (standsIn_of_kind (by simp))
  -- Of two backslashes in front of the braces the last one is dropped.
  | case2 offset input text stop brace rest h hdouble ih =>
    have hinput : input = text ++ brace :: rest := (append_of_splitAtBraces h).symm
    rw [hinput]
    refine List.forall_mem_append.mpr ⟨?_, fun t ht => (ih t ht).later⟩
    exact contentTokens_dropLast_standsIn
  -- Braces behind one backslash.
  | case3 offset input text stop brace rest h hdouble hsingle escaped next ih =>
    have hinput : input = text ++ brace :: rest := (append_of_splitAtBraces h).symm
    have htail : escaped ++ rest.drop (escaped.length - 1) = brace :: rest :=
      escapedText_append brace rest
    rw [hinput]
    refine List.forall_mem_append.mpr ⟨List.forall_mem_append.mpr ⟨?_, fun t ht => ?_⟩,
      fun t ht => ?_⟩
    · exact contentTokens_dropLast_standsIn
    · rw [← htail]
      exact (contentTokens_standsIn t ht).later
    · rw [← htail]
      exact (ih t ht).later.later
  -- A tag behind other text.
  | case4 offset input text stop brace rest h hdouble hsingle ih =>
    have hinput : input = text ++ brace :: rest := (append_of_splitAtBraces h).symm
    rw [hinput]
    exact List.forall_mem_append.mpr ⟨contentTokens_standsIn, fun t ht => (ih t ht).later⟩
  -- The end, inside a tag.
  | case5 offset input start h =>
    exact List.forall_mem_singleton.mpr (standsIn_of_kind (by simp))
  -- Tokens in tags are no text.
  | case6 offset input start c rest h lexeme stop ih =>
    refine List.forall_mem_cons.mpr
      ⟨standsIn_of_kind (tagLexeme_inTag c rest).ne_content, fun t ht => ?_⟩
    rw [← append_of_dropWhile_blank h lexeme.more]
    exact (ih t (by simpa using ht)).later.later

/-- Every token for text is a piece of the source. -/
theorem lex_standsIn (source : String) : ∀ t ∈ lex source, t.StandsIn source.toList 0 :=
  lexFrom_standsIn .content 0 source.toList

end Mustache

end TemplateCompiler
