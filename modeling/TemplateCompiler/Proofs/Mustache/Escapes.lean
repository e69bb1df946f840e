/-
Escaped braces are read as they were written.

* `escapeBraces` — a text with a backslash in front of every two opening braces;
* `Escapable` — no backslash stands there already;
* `escapeBraces_cases` — an escaped text, up to its first braces;
* `escapedText_escapeBraces` — the text that braces begin ends where the next ones are escaped;
* `lex_escapeBraces` — an escaped text is cut into texts, which together are the text itself.

The first braces are found by looking for braces, all others by looking for the end of the
text that escaped braces begin.  That text leaves the next backslash over, and what is left
is again an escaped text, which starts with its braces.
-/
import TemplateCompiler.Proofs.Mustache.Links

namespace TemplateCompiler.Mustache

open Text (byteLength)

/-- A text with a backslash in front of every two opening braces, from the left. -/
def escapeBraces : List Char → List Char
  | [] => []
  | '{' :: '{' :: rest => '\\' :: '{' :: '{' :: escapeBraces rest
  | c :: rest => c :: escapeBraces rest

/-- What a text has in front of each of these braces. -/
def beforeBraces : List Char → List (List Char)
  | [] => []
  | '{' :: '{' :: rest => [] :: (beforeBraces rest).map (['{', '{'] ++ ·)
  | c :: rest => (beforeBraces rest).map (c :: ·)

/-- No backslash stands in front of the braces of a text. -/
def Escapable (text : List Char) : Prop :=
  ∀ before ∈ beforeBraces text, before.getLast? ≠ some '\\'

instance : DecidablePred Escapable := fun text =>
  inferInstanceAs (Decidable (∀ before ∈ beforeBraces text, before.getLast? ≠ some '\\'))

theorem escapeBraces_eq_cons {text rest : List Char} (h : escapeBraces text = '{' :: rest) :
    ∃ more, text = '{' :: more := by
  rw [escapeBraces.eq_def] at h
  split at h
  · cases h
  · cases h
  · exact ⟨_, by rw [(List.cons.inj h).1]⟩

/-- A text has no braces, or its first are escaped. -/
theorem escapeBraces_cases (text : List Char) :
    (splitAtBraces text = (text, []) ∧ escapeBraces text = text ∧ beforeBraces text = []) ∨
      ∃ front rest, text = front ++ '{' :: '{' :: rest ∧
        splitAtBraces (escapeBraces text) = (front ++ ['\\'], '{' :: '{' :: escapeBraces rest) ∧
        beforeBraces text = front :: (beforeBraces rest).map (front ++ ['{', '{'] ++ ·) := by
  fun_induction escapeBraces text with
  -- The text has ended.
  | case1 => exact .inl ⟨rfl, rfl, rfl⟩
  -- Two braces.
  | case2 rest ih => exact .inr ⟨[], rest, rfl, rfl, rfl⟩
  -- Any other character.
  | case3 c rest hno ih =>
    have hno' : ∀ more, c = '{' → escapeBraces rest = '{' :: more → False := by
      intro more hc hmore
      obtain ⟨more', hrest⟩ := escapeBraces_eq_cons hmore
      exact hno more' hc hrest
    rw [splitAtBraces.eq_3 _ _ hno, splitAtBraces.eq_3 _ _ hno', beforeBraces.eq_3 _ _ hno]
    rcases ih with ⟨hsplit, hescape, hbefore⟩ | ⟨front, rest', hrest, hsplit, hbefore⟩
    · exact .inl ⟨by rw [hsplit], by rw [hescape], by rw [hbefore, List.map_nil]⟩
    · refine .inr ⟨c :: front, rest', by rw [hrest, List.cons_append], by rw [hsplit]; rfl, ?_⟩
      rw [hbefore, List.map_cons, List.map_map]
      rfl

/-! ### Escaped text -/

theorem getLast?_ne_of_append {c : Char} {front back : List Char}
    (h : (front ++ back).getLast? ≠ some c) : back.getLast? ≠ some c := by
  intro hlast
  rw [List.getLast?_append, hlast] at h
  exact h rfl

/-- Without a backslash in front of the first braces, and in front of those behind them. -/
theorem Escapable.of_eq_cons {text front rest : List Char}
    (hbefore : beforeBraces text = front :: (beforeBraces rest).map (front ++ ['{', '{'] ++ ·))
    (h : Escapable text) : front.getLast? ≠ some '\\' ∧ Escapable rest := by
  rw [Escapable, hbefore, List.forall_mem_cons, List.forall_mem_map] at h
  exact ⟨h.1, fun before hmem => getLast?_ne_of_append (h.2 before hmem)⟩

theorem Escapable.braces {rest : List Char} (h : Escapable rest) :
    Escapable ('{' :: '{' :: rest) := by
  rw [Escapable, beforeBraces, List.forall_mem_cons, List.forall_mem_map]
  refine ⟨by simp, fun before hmem heq => ?_⟩
  rw [List.getLast?_append] at heq
  cases hlast : before.getLast? with
  | none =>
    rw [hlast] at heq
    exact absurd heq (by decide)
  | some c =>
    rw [hlast] at heq
    exact h before hmem (hlast.trans heq)

/-- The text that escaped braces begin goes on to where the next braces are escaped. -/
theorem escapedText_escapeBraces {rest : List Char} (h : Escapable rest) :
    ∃ text later, rest = text ++ later ∧ escapeBraces rest = text ++ escapeBraces later ∧
      escapedText ('{' :: '{' :: escapeBraces rest) = '{' :: '{' :: text ∧ Escapable later := by
  rcases escapeBraces_cases rest with ⟨hsplit, hescape, -⟩ | ⟨text, later, hrest, hsplit, hbefore⟩
  · refine ⟨rest, [], (List.append_nil rest).symm, ?_, ?_, by simp [Escapable, beforeBraces]⟩
    · rw [hescape, escapeBraces, List.append_nil]
    · rw [escapedText_eq, hescape, hsplit]
      rfl
  · -- Only the backslash that escapes the next braces is in front of them.
    obtain ⟨hlast, hlater⟩ := h.of_eq_cons hbefore
    refine ⟨text, '{' :: '{' :: later, hrest, ?_, ?_, hlater.braces⟩
    · have hinput := splitAtBraces_append (escapeBraces rest)
      rw [hsplit, List.append_assoc] at hinput
      exact hinput.symm
    · rw [escapedText_eq, hsplit]
      simp only [List.isEmpty_cons, Bool.false_eq_true, if_false]
      rw [beforeEscapes, dropOneEnd_append_self, dropOneEnd_of_getLast? hlast]

/-! ### Reading it back -/

/-- Tokens that are all texts, which together are a text. -/
def AreTexts (kinds : List TokenKind) (text : List Char) : Prop :=
  ∃ values : List String, kinds = values.map .content ∧ values.flatMap String.toList = text

theorem AreTexts.append {kinds kinds' : List TokenKind} {text text' : List Char}
    (h : AreTexts kinds text) (h' : AreTexts kinds' text') :
    AreTexts (kinds ++ kinds') (text ++ text') := by
  obtain ⟨values, rfl, rfl⟩ := h
  obtain ⟨values', rfl, rfl⟩ := h'
  exact ⟨values ++ values', List.map_append.symm, List.flatMap_append⟩

theorem textCuts_areTexts (value : List Char) (stop : Nat) :
    AreTexts (cutKinds (textCuts value stop)) value := by
  rw [textCuts]
  split
  · next hvalue => exact ⟨[], rfl, (List.isEmpty_iff.mp hvalue).symm⟩
  · exact ⟨[String.ofList value], rfl, by simp⟩

/-- One step of the lexer over a text, the backslash in front of its braces, and the text
that these begin. -/
theorem step_escaped {text : List Char} (braces : List Char) {rest : List Char}
    (hlast : text.getLast? ≠ some '\\')
    (hsplit : splitAtBraces (text ++ ['\\'] ++ (braces ++ rest)) = (text ++ ['\\'], braces ++ rest))
    (hbraces : escapedText (braces ++ rest) = braces) (hne : braces ≠ []) :
    ∃ cuts, LexStep .content (text ++ ['\\'] ++ braces) rest cuts .content ∧
      AreTexts (cutKinds cuts) (text ++ braces) := by
  have hdouble : ['\\', '\\'].isSuffixOf (text ++ ['\\']) = false := by
    rw [Bool.eq_false_iff, ne_eq, List.isSuffixOf_iff_suffix]
    rintro ⟨front, hfront⟩
    have htext : front ++ ['\\'] = text := by
      have hdropLast := congrArg List.dropLast hfront
      rwa [List.dropLast_concat, ← List.singleton_append, ← List.append_assoc,
        List.dropLast_concat] at hdropLast
    exact hlast (by rw [← htext, List.getLast?_concat])
  have hsingle : ['\\'].isSuffixOf (text ++ ['\\']) = true :=
    List.isSuffixOf_iff_suffix.mpr (List.suffix_append _ _)
  refine ⟨_, .escaped hsplit hbraces hne hdouble hsingle, ?_⟩
  rw [cutKinds_append, cutKinds_after, List.dropLast_concat]
  exact (textCuts_areTexts _ _).append (textCuts_areTexts _ _)

/-- The tokens of an escaped text. -/
theorem lexFrom_escapeBraces {text : List Char} (h : Escapable text) (offset : Nat) :
    ∃ read, kinds (lexFrom .content offset (escapeBraces text)) = read ++ [TokenKind.eof] ∧
      AreTexts read text := by
  rcases escapeBraces_cases text with ⟨hsplit, hescape, -⟩ | ⟨front, rest, htext, hsplit, hbefore⟩
  · rw [hescape, lexFrom_plain hsplit, ← textCuts_place, kinds_append, kinds_place]
    exact ⟨_, rfl, textCuts_areTexts _ _⟩
  · obtain ⟨hlast, hrest⟩ := h.of_eq_cons hbefore
    obtain ⟨begun, later, rfl, hescape, hbraces, hlater⟩ := escapedText_escapeBraces hrest
    have hinput := splitAtBraces_append (escapeBraces text)
    rw [hescape] at hsplit hbraces
    rw [hsplit] at hinput
    rw [← hinput] at hsplit ⊢
    obtain ⟨cuts, hstep, hcuts⟩ :=
      step_escaped ('{' :: '{' :: begun) hlast hsplit hbraces (List.cons_ne_nil _ _)
    -- What the braces begin ends in front of an escaped text.
    have hshorter : later.length < text.length := by
      rw [htext]
      simp only [List.length_append, List.length_cons]
      omega
    obtain ⟨read, hread, htexts⟩ := lexFrom_escapeBraces hlater
      (offset + byteLength (front ++ ['\\'] ++ '{' :: '{' :: begun))
    have hkinds := congrArg kinds (hstep.lexFrom_eq offset)
    rw [kinds_append, kinds_place, hread, ← List.append_assoc,
      List.append_assoc (front ++ _)] at hkinds
    exact ⟨_, hkinds, by simpa [htext] using hcuts.append htexts⟩
termination_by text.length

/-- A text whose braces are all escaped is read as texts, which together are the text. -/
theorem lex_escapeBraces {text : String} (h : Escapable text.toList) :
    ∃ values : List String, kinds (lex (String.ofList (escapeBraces text.toList)))
        = values.map .content ++ [.eof] ∧ String.join values = text := by
  obtain ⟨read, hread, values, rfl, hvalues⟩ := lexFrom_escapeBraces h 0
  refine ⟨values, by rw [lex, String.toList_ofList, hread], ?_⟩
  rw [← String.toList_inj, ← hvalues, String.toList_join]

/-- Braces at the start, three in a row, and two pairs side by side at the end. -/
theorem lex_escapeBraces_adjacent :
    let text := "\x7b\x7b\x7ba\\b\x7b\x7b\x7b\x7b"
    escapeBraces text.toList = "\\\x7b\x7b\x7ba\\b\\\x7b\x7b\\\x7b\x7b".toList ∧
      Escapable text.toList ∧
      ∃ values : List String, kinds (lex (String.ofList (escapeBraces text.toList)))
        = values.map .content ++ [.eof] ∧ String.join values = text := by
  intro text
  have h : Escapable text.toList := by decide
  exact ⟨by decide, h, lex_escapeBraces h⟩

end TemplateCompiler.Mustache
