/-
Stretches of a template, read one after the other.

The lexer looks ahead, so what a stretch of text is cut into depends on what
follows it.

* `Cut` — a token with the bytes it covers, counted from the start of a stretch;
* `Lexes` — what the lexer cuts a stretch into, with the text after it in view;
* `Lexes.lexFrom_eq` — the tokens of a template begin with those of a stretch at
  its start, wherever the stretch stands;
* `Lexes.local` — what a stretch before two opening braces is cut into does not
  depend on what comes after the braces.

Design notes: a stretch is always read with the actual text after it, so that a
longest match is never split, and stretches can be put together by `append`.
Cuts count from the start of their stretch; offsets held at the largest one could
not be moved back to the left.
-/
import TemplateCompiler.Proofs.Mustache.Lookahead
import TemplateCompiler.Proofs.Mustache.Text

namespace TemplateCompiler.Mustache

open Text (byteLength byteLength_append)

/-! ### Cuts -/

/-- A token before it has a place: its kind and the bytes that it covers, counted
from the start of the text that it stands in. -/
structure Cut where
  kind : TokenKind
  start : Nat
  stop : Nat
deriving DecidableEq, Repr

namespace Cut

/-- The cut as a token of a text that begins at an offset. -/
def place (offset : Nat) (c : Cut) : Token :=
  ⟨c.kind, .ofOffsets (offset + c.start) (offset + c.stop)⟩

/-- The cut in a text with more in front. -/
def after (count : Nat) (c : Cut) : Cut := ⟨c.kind, count + c.start, count + c.stop⟩

@[simp] theorem after_kind (count : Nat) (c : Cut) : (c.after count).kind = c.kind := rfl

@[simp] theorem place_kind (offset : Nat) (c : Cut) : (c.place offset).kind = c.kind := rfl

@[simp] theorem place_after (offset count : Nat) (c : Cut) :
    (c.after count).place offset = c.place (offset + count) := by
  simp [Cut.place, Cut.after, Nat.add_assoc]

@[simp] theorem after_after (m n : Nat) (c : Cut) : (c.after m).after n = c.after (n + m) := by
  simp [Cut.after, Nat.add_assoc]

end Cut

/-- A run of text as cuts; an empty run is none. -/
def textCuts (value : List Char) (stop : Nat) : List Cut :=
  if value.isEmpty then [] else [⟨.content (String.ofList value), 0, stop⟩]

theorem textCuts_place (value : List Char) (stop offset : Nat) :
    (textCuts value stop).map (·.place offset) = contentTokens value offset (offset + stop) := by
  rw [textCuts, contentTokens]
  split <;> rfl

/-! ### Steps -/

/-- The text of a run that ends before a tag: of two backslashes one is left. -/
def tagText (text : List Char) : List Char :=
  if ['\\', '\\'].isSuffixOf text then text.dropLast else text

/-- One step of the lexer: what a stretch is cut into, with the rest of the
template in view. -/
inductive LexStep : Mode → List Char → List Char → List Cut → Mode → Prop
  /-- A run of text up to a tag. -/
  | text {text rest : List Char} (hsplit : splitAtBraces (text ++ rest) = (text, rest))
    (hrest : rest ≠ [])
    (hescape : ['\\', '\\'].isSuffixOf text = true ∨ ['\\'].isSuffixOf text = false) :
    LexStep .content text rest (textCuts (tagText text) (byteLength text)) .tag
  /-- A run of text up to escaped braces, and the text that these begin. -/
  | escaped {text braces rest : List Char}
    (hsplit : splitAtBraces (text ++ (braces ++ rest)) = (text, braces ++ rest))
    (hbraces : escapedText (braces ++ rest) = braces) (hne : braces ≠ [])
    (hdouble : ['\\', '\\'].isSuffixOf text = false) (hsingle : ['\\'].isSuffixOf text = true) :
    LexStep .content (text ++ braces) rest
      (textCuts text.dropLast (byteLength text)
        ++ (textCuts braces (byteLength braces)).map (·.after (byteLength text))) .content
  /-- A token inside a tag, after blanks. -/
  | token {blanks : List Char} {c : Char} {more rest : List Char}
    (hblanks : blanks.all Text.isBlank = true) (hc : Text.isBlank c = false)
    (hmore : (more ++ rest).take (tagLexeme c (more ++ rest)).more = more) :
    LexStep .tag (blanks ++ c :: more) rest
      [⟨(tagLexeme c (more ++ rest)).kind, byteLength blanks, byteLength (blanks ++ c :: more)⟩]
      (if (tagLexeme c (more ++ rest)).ends then .content else .tag)

/-- Blanks end where something else begins. -/
theorem span_blanks {blanks : List Char} {c : Char} (rest : List Char)
    (hblanks : blanks.all Text.isBlank = true) (hc : Text.isBlank c = false) :
    (blanks ++ c :: rest).takeWhile Text.isBlank = blanks ∧
      (blanks ++ c :: rest).dropWhile Text.isBlank = c :: rest := by
  have hall : ∀ d ∈ blanks, Text.isBlank d = true := List.all_eq_true.mp hblanks
  rw [List.takeWhile_append_of_pos hall, List.dropWhile_append_of_pos hall]
  simp [hc]

/-- The tokens of a template begin with those of a step. -/
theorem LexStep.lexFrom_eq {mode mode' : Mode} {stretch rest : List Char} {cuts : List Cut}
    (h : LexStep mode stretch rest cuts mode') (offset : Nat) :
    lexFrom mode offset (stretch ++ rest)
      = cuts.map (·.place offset) ++ lexFrom mode' (offset + byteLength stretch) rest := by
  cases h with
  -- Text in front of braces that are not escaped.
  | text hsplit hrest hescape =>
    rw [lexFrom]
    obtain ⟨brace, more, rfl⟩ := List.exists_cons_of_ne_nil hrest
    rw [hsplit]
    simp only
    rw [textCuts_place, tagText]
    split
    · rfl
    · next hdouble =>
      have hsingle : ['\\'].isSuffixOf stretch = false := hescape.resolve_left hdouble
      rw [if_neg (by rw [hsingle]; decide)]
  -- The braces are text, up to the next ones; both runs become tokens.
  | @escaped text braces rest hsplit hbraces hne hdouble hsingle =>
    obtain ⟨brace, more, rfl⟩ := List.exists_cons_of_ne_nil hne
    rw [lexFrom, List.append_assoc, hsplit]
    simp only [List.cons_append]
    rw [if_neg (by simp [hdouble]), if_pos hsingle]
    rw [← List.cons_append, hbraces]
    simp only [List.map_append, textCuts_place, List.map_map, Function.comp_def, Cut.place_after,
      byteLength_append, Nat.add_assoc, List.length_cons, Nat.add_sub_cancel, List.append_assoc]
    rw [List.drop_left]
  | @token blanks c more rest hblanks hc hmore =>
    rw [List.append_assoc, List.cons_append, lexFrom]
    obtain ⟨htake, hdrop⟩ := span_blanks (more ++ rest) hblanks hc
    rw [htake]
    split
    · next hnil => exact absurd (hdrop.symm.trans hnil) (by simp)
    · next c' rest' hcons =>
      obtain ⟨rfl, rfl⟩ := List.cons.inj (hdrop.symm.trans hcons)
      -- The lexeme takes what the step says, so the same is left.
      have hrest : (more ++ rest).drop (tagLexeme c (more ++ rest)).more = rest := by
        have hall := List.take_append_drop (tagLexeme c (more ++ rest)).more (more ++ rest)
        rw [hmore] at hall
        exact List.append_cancel_left hall
      simp only [hmore, hrest, byteLength_append, List.map_cons, List.map_nil, List.cons_append,
        List.nil_append, Cut.place, Nat.add_assoc]

/-- What the lexer cuts a stretch into, step by step, with the rest of the template
in view. -/
inductive Lexes : Mode → List Char → List Char → List Cut → Mode → Prop
  | nil {mode : Mode} {rest : List Char} : Lexes mode [] rest [] mode
  | step {mode mode₁ mode' : Mode} {first stretch rest : List Char} {cuts more : List Cut}
    (hfirst : LexStep mode first (stretch ++ rest) cuts mode₁)
    (hmore : Lexes mode₁ stretch rest more mode') :
    Lexes mode (first ++ stretch) rest (cuts ++ more.map (·.after (byteLength first))) mode'

namespace Lexes

variable {mode mode₁ mode' : Mode} {stretch stretch' rest : List Char} {cuts cuts' : List Cut}

/-- The tokens of a template begin with those of a stretch at its start. -/
theorem lexFrom_eq (h : Lexes mode stretch rest cuts mode') (offset : Nat) :
    lexFrom mode offset (stretch ++ rest)
      = cuts.map (·.place offset) ++ lexFrom mode' (offset + byteLength stretch) rest := by
  induction h generalizing offset with
  | nil => simp
  | step hfirst hmore ih =>
    rw [List.append_assoc, hfirst.lexFrom_eq, ih]
    simp [Function.comp_def, Nat.add_assoc]

/-- Stretches put together. -/
theorem append (h : Lexes mode stretch (stretch' ++ rest) cuts mode₁)
    (h' : Lexes mode₁ stretch' rest cuts' mode') :
    Lexes mode (stretch ++ stretch') rest (cuts ++ cuts'.map (·.after (byteLength stretch)))
      mode' := by
  generalize hall : stretch' ++ rest = all at h
  induction h with
  | nil => simpa [Cut.after] using h'
  | step hfirst hmore ih =>
    subst hall
    rw [← List.append_assoc] at hfirst
    have := Lexes.step hfirst (ih h' rfl)
    simpa [Function.comp_def, Nat.add_comm] using this

end Lexes

/-! ### Where the cuts are -/

/-- Cuts that cover bytes of a text. -/
def CutsWithin (count : Nat) (cuts : List Cut) : Prop :=
  ∀ c ∈ cuts, c.start ≤ c.stop ∧ c.stop ≤ count

theorem textCuts_within (value : List Char) (stop : Nat) :
    CutsWithin stop (textCuts value stop) := by
  intro c hc
  rw [textCuts] at hc
  split at hc
  · cases hc
  · obtain rfl := List.mem_singleton.mp hc
    exact ⟨Nat.zero_le _, Nat.le_refl _⟩

theorem CutsWithin.after {count more : Nat} {cuts : List Cut} (h : CutsWithin more cuts) :
    CutsWithin (count + more) (cuts.map (·.after count)) := by
  intro c hc
  obtain ⟨d, hd, rfl⟩ := List.mem_map.mp hc
  have := h d hd
  exact ⟨Nat.add_le_add_left this.1 count, Nat.add_le_add_left this.2 count⟩

theorem CutsWithin.append {count count' : Nat} {cuts cuts' : List Cut} (h : CutsWithin count cuts)
    (h' : CutsWithin (count + count') cuts') : CutsWithin (count + count') (cuts ++ cuts') := by
  intro c hc
  rcases List.mem_append.mp hc with hc | hc
  · have := h c hc
    omega
  · exact h' c hc

theorem LexStep.within {mode mode' : Mode} {first rest : List Char} {cuts : List Cut}
    (h : LexStep mode first rest cuts mode') : CutsWithin (byteLength first) cuts := by
  cases h with
  | text hsplit hrest hescape => exact textCuts_within _ _
  | escaped hsplit hbraces hne hdouble hsingle =>
    rw [byteLength_append]
    exact (textCuts_within _ _).append (textCuts_within _ _).after
  | token hblanks hc hmore =>
    intro c hc
    obtain rfl := List.mem_singleton.mp hc
    rw [byteLength_append]
    exact ⟨Nat.le_add_right _ _, Nat.le_refl _⟩

theorem Lexes.within {mode mode' : Mode} {stretch rest : List Char} {cuts : List Cut}
    (h : Lexes mode stretch rest cuts mode') : CutsWithin (byteLength stretch) cuts := by
  induction h with
  | nil => exact fun c hc => absurd hc List.not_mem_nil
  | step hfirst hmore ih =>
    rw [byteLength_append]
    exact hfirst.within.append ih.after

/-- Blanks inside a tag belong to what follows them. -/
theorem Lexes.pad {stretch rest blanks : List Char} {cuts : List Cut} {mode' : Mode}
    (h : Lexes .tag stretch rest cuts mode') (hblanks : blanks.all Text.isBlank = true)
    (hcuts : cuts ≠ []) :
    Lexes .tag (blanks ++ stretch) rest (cuts.map (·.after (byteLength blanks))) mode' := by
  generalize hmode : Mode.tag = mode at h
  cases h with
  | nil => exact absurd rfl hcuts
  | @step _ mode₁ _ first stretch _ cuts more hfirst hmore =>
    subst hmode
    cases hfirst with
    | @token blanks' c more _ hblanks' hc hlength =>
      have hall : (blanks ++ blanks').all Text.isBlank = true := by
        rw [List.all_append, hblanks, hblanks']
        rfl
      have hpadded := Lexes.step (.token hall hc hlength) hmore
      simpa [Cut.after, Function.comp_def, Nat.add_assoc] using hpadded

/-! ### Whole templates -/

/-- The last cuts of a template, when no tag is begun any more. -/
def lastCuts (mode : Mode) (input : List Char) : List Cut :=
  (match mode with
    | .content => textCuts input (byteLength input)
    | .tag => []) ++ [⟨.eof, byteLength input, byteLength input⟩]

/-- The lexer comes to the end, or makes a step. -/
theorem lexFrom_cases (mode : Mode) (input : List Char) :
    (∀ offset, lexFrom mode offset input = (lastCuts mode input).map (·.place offset)) ∨
      ∃ first rest cuts mode', input = first ++ rest ∧ LexStep mode first rest cuts mode' ∧
        lexMeasure mode' rest < lexMeasure mode input := by
  cases mode with
  | content =>
    cases hrest : (splitAtBraces input).2 with
    | nil =>
      have htext : (splitAtBraces input).1 = input := by
        have := splitAtBraces_append input
        rwa [hrest, List.append_nil] at this
      refine .inl fun offset => ?_
      rw [lexFrom_plain (Prod.ext htext hrest), lastCuts, List.map_append, textCuts_place]
      rfl
    | cons brace rest =>
      have hinput := (splitAtBraces_append input).symm
      rw [hrest] at hinput
      have hsplit : splitAtBraces ((splitAtBraces input).1 ++ brace :: rest)
          = ((splitAtBraces input).1, brace :: rest) := by
        rw [← hinput, ← hrest]
      generalize (splitAtBraces input).1 = text at hinput hsplit
      by_cases htag : ['\\', '\\'].isSuffixOf text = true ∨ ['\\'].isSuffixOf text = false
      · exact .inr ⟨_, _, _, _, hinput, .text hsplit (by simp) htag, shorter_tag hrest⟩
      · rw [not_or, Bool.not_eq_true, Bool.not_eq_false] at htag
        -- Escaped braces begin a text, which ends in front of the next braces.
        obtain ⟨more, hmore⟩ := escapedText_head (brace :: rest)
        have hne : escapedText (brace :: rest) ≠ [] := by
          rw [escapedText]
          simp
        have hdrop : more = rest.drop ((escapedText (brace :: rest)).length - 1) :=
          List.append_cancel_left (hmore.trans (escapedText_append brace rest).symm)
        rw [← hmore] at hinput hsplit
        refine .inr ⟨text ++ escapedText (brace :: rest), more, _, _, ?_,
          .escaped hsplit (by rw [hmore]) hne htag.1 htag.2, ?_⟩
        · rw [hinput, List.append_assoc]
        · rw [hdrop]
          exact shorter_content hrest _
  | tag =>
    cases hrest : input.dropWhile Text.isBlank with
    | nil =>
      refine .inl fun offset => ?_
      have hblank : input.takeWhile Text.isBlank = input := by
        have := List.takeWhile_append_dropWhile (p := Text.isBlank) (l := input)
        rwa [hrest, List.append_nil] at this
      rw [lexFrom]
      split
      · rw [hblank]
        rfl
      · next h => exact absurd (hrest.symm.trans h) (by simp)
    | cons c rest =>
      have hinput := List.takeWhile_append_dropWhile (p := Text.isBlank) (l := input)
      rw [hrest] at hinput
      have hall : (input.takeWhile Text.isBlank).all Text.isBlank = true := List.all_takeWhile
      have hc : Text.isBlank c = false := by
        have := List.head_dropWhile_not Text.isBlank (by rw [hrest]; simp)
        simpa [hrest] using this
      have hhalves := List.take_append_drop (tagLexeme c rest).more rest
      have hmore : (rest.take (tagLexeme c rest).more ++ rest.drop (tagLexeme c rest).more).take
          (tagLexeme c (rest.take (tagLexeme c rest).more
            ++ rest.drop (tagLexeme c rest).more)).more
          = rest.take (tagLexeme c rest).more := by
        rw [hhalves]
      refine .inr ⟨_, rest.drop (tagLexeme c rest).more, _, _, ?_, .token hall hc hmore,
        shorter_after_token hrest _ _⟩
      rw [List.append_assoc, List.cons_append, hhalves, hinput]

/-- The cuts of a template do not depend on where it begins. -/
theorem lexFrom_cuts (mode : Mode) (input : List Char) :
    ∃ cuts, CutsWithin (byteLength input) cuts ∧
      ∀ offset, lexFrom mode offset input = cuts.map (·.place offset) := by
  rcases lexFrom_cases mode input with hlast | ⟨first, rest, cuts, mode', hinput, hstep, hshorter⟩
  · refine ⟨lastCuts mode input, fun c hc => ?_, hlast⟩
    unfold lastCuts at hc
    rcases List.mem_append.mp hc with hc | hc
    · cases mode with
      | content => exact textCuts_within _ _ c hc
      | tag => cases hc
    · obtain rfl := List.mem_singleton.mp hc
      exact ⟨Nat.le_refl _, Nat.le_refl _⟩
  · obtain ⟨more, hwithin, hmore⟩ := lexFrom_cuts mode' rest
    refine ⟨cuts ++ more.map (·.after (byteLength first)), ?_, fun offset => ?_⟩
    · rw [hinput, byteLength_append]
      exact hstep.within.append hwithin.after
    · rw [hinput, hstep.lexFrom_eq, hmore]
      simp [Function.comp_def]
termination_by lexMeasure mode input
decreasing_by exact hshorter

/-! ### Stretches before two opening braces -/

/-- Where a run of text ends is the same. -/
theorem splitAtBraces_local {text x r : List Char} (r' : List Char)
    (h : splitAtBraces (text ++ (x ++ '{' :: '{' :: r)) = (text, x ++ '{' :: '{' :: r)) :
    splitAtBraces (text ++ (x ++ '{' :: '{' :: r')) = (text, x ++ '{' :: '{' :: r') := by
  have hfirst : (splitAtBraces (text ++ (x ++ '{' :: '{' :: r'))).1 = text := by
    rw [← List.append_assoc, splitAtBraces_braces] at h ⊢
    exact congrArg Prod.fst h
  have happend := splitAtBraces_append (text ++ (x ++ '{' :: '{' :: r'))
  rw [hfirst] at happend
  exact Prod.ext hfirst (List.append_cancel_left happend)

theorem escapedText_length {x : List Char} (h : 2 ≤ x.length) : 2 ≤ (escapedText x).length := by
  rw [escapedText, List.length_append, List.length_take, Nat.min_eq_left h]
  exact Nat.le_add_right 2 _

theorem LexStep.local {mode mode' : Mode} {first x r : List Char} {cuts : List Cut} (r' : List Char)
    (h : LexStep mode first (x ++ '{' :: '{' :: r) cuts mode')
    (hvalid : ∀ c ∈ cuts, c.kind.isInvalid = false) :
    LexStep mode first (x ++ '{' :: '{' :: r') cuts mode' := by
  generalize hrest : x ++ '{' :: '{' :: r = rest at h
  cases h with
  | text hsplit hne hescape =>
    subst hrest
    exact .text (splitAtBraces_local r' hsplit) (by simp) hescape
  | @escaped text braces rest hsplit hbraces hne hdouble hsingle =>
    subst hrest
    -- The braces that are escaped are both part of the step.
    have hlength : 2 ≤ braces.length := by
      rw [← hbraces]
      exact escapedText_length (by simp; omega)
    refine .escaped ?_ ?_ hne hdouble hsingle
    · rw [← List.append_assoc braces] at hsplit ⊢
      exact splitAtBraces_local r' hsplit
    · rw [← List.append_assoc] at hbraces ⊢
      rw [escapedText_braces (by simp; omega) r' r, hbraces]
  | @token blanks c more rest hblanks hc hmore =>
    subst hrest
    -- The lexeme ends within what stays the same, so it does not see what comes after.
    have hlength : (tagLexeme c (more ++ (x ++ '{' :: '{' :: r))).more = more.length := by
      have := congrArg List.length hmore
      rw [List.length_take, List.length_append, List.length_append, List.length_cons] at this
      omega
    rw [← List.append_assoc] at hlength hvalid ⊢
    have hlocal := tagLexeme_local r' (hvalid _ (List.mem_singleton_self _))
      (x := more ++ x) (by rw [hlength, List.length_append]; omega)
    rw [← hlocal] at hlength ⊢
    rw [List.append_assoc] at hlength ⊢
    exact .token hblanks hc (by rw [hlength, List.take_left])

/-- What a stretch before two opening braces is cut into does not depend on what comes after the
braces. -/
theorem Lexes.local {mode mode' : Mode} {stretch r : List Char} {cuts : List Cut} (r' : List Char)
    (h : Lexes mode stretch ('{' :: '{' :: r) cuts mode')
    (hvalid : ∀ c ∈ cuts, c.kind.isInvalid = false) :
    Lexes mode stretch ('{' :: '{' :: r') cuts mode' := by
  generalize hrest : '{' :: '{' :: r = rest at h
  induction h with
  | nil => exact .nil
  | step hfirst hmore ih =>
    subst hrest
    rw [List.forall_mem_append] at hvalid
    refine .step (hfirst.local r' hvalid.1) (ih (fun c hc => ?_) rfl)
    exact hvalid.2 (c.after _) (List.mem_map_of_mem hc)

end TemplateCompiler.Mustache
