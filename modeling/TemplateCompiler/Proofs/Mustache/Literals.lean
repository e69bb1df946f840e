/-
Strings in quotes and names in brackets are read back.

Both are scanned for their closing character first, and their escapes are undone after
that.  Whoever writes them puts backslashes in front of some characters.

* `escapeIf`, `unescapeIf` — the backslashes before some characters, put in and taken out;
* `closeLength?` — the scan for the closing character;
* `stringBody?_eq`, `segmentLength?_eq`, `unescapeSegment_eq` — strings and names in terms
  of these;
* `closeLength?_escapeIf`, `unescapeIf_escapeIf` — neither is misled by an escaped text,
  up to a backslash at its end;
* `lex_string` — a tag around a string in quotes is cut into that string;
* `lex_bracketed` — a tag around a name in brackets is cut into that name, unless the name
  ends with a backslash.

The scan jumps over escaped closing characters only and reads two backslashes one at a
time, so that the second of them escapes what follows.  Inside a text this does no harm,
because a closing character always has a backslash of its own.  At the end it does.  In a
string no backslash is escaped, and a value that ends with one cannot be written at all;
in a name each is, and still such a name is not read back.
-/
import TemplateCompiler.Proofs.Mustache.Links

namespace TemplateCompiler.Mustache

open Text (byteLength)

variable {p : Char → Bool} {c close : Char}

/-! ### Escapes -/

/-- A text with a backslash in front of some of its characters. -/
def escapeIf (p : Char → Bool) (text : List Char) : List Char :=
  text.flatMap fun c => if p c then ['\\', c] else [c]

@[simp] theorem escapeIf_nil : escapeIf p [] = [] := rfl

theorem escapeIf_cons (p : Char → Bool) (c : Char) (text : List Char) :
    escapeIf p (c :: text)
      = if p c then '\\' :: c :: escapeIf p text else c :: escapeIf p text := by
  rw [escapeIf, List.flatMap_cons]
  split <;> rfl

/-- A text without the backslashes that stand in front of such characters, from the left. -/
def unescapeIf (p : Char → Bool) : List Char → List Char
  | [] => []
  | '\\' :: c :: rest => if p c then c :: unescapeIf p rest else '\\' :: unescapeIf p (c :: rest)
  | c :: rest => c :: unescapeIf p rest

/-- The number of characters up to a closing one.  One after a backslash does not close. -/
def closeLength? (close : Char) : List Char → Option Nat
  | [] => none
  | '\\' :: c :: rest =>
    if c == close then (closeLength? close rest).map (· + 2)
    else (closeLength? close (c :: rest)).map (· + 1)
  | c :: rest => if c == close then some 1 else (closeLength? close rest).map (· + 1)

/-- A backslash in front of nothing that is escaped stays. -/
theorem unescapeIf_cons {rest : List Char} (h : c = '\\' → headIs p rest = false) :
    unescapeIf p (c :: rest) = c :: unescapeIf p rest := by
  by_cases hc : c = '\\'
  · subst hc
    cases rest with
    | nil => rfl
    | cons d rest =>
      have hd : p d = false := h rfl
      rw [unescapeIf, if_neg (by rw [hd]; decide)]
  · exact unescapeIf.eq_3 _ _ _ fun _ _ hslash => (hc hslash).elim

/-- A backslash in front of another character closes nothing and escapes nothing. -/
theorem closeLength?_cons {rest : List Char} (hc : c ≠ close)
    (h : c = '\\' → headIs (· == close) rest = false) :
    closeLength? close (c :: rest) = (closeLength? close rest).map (· + 1) := by
  have hne : (c == close) = false := beq_false_of_ne hc
  by_cases hslash : c = '\\'
  · subst hslash
    cases rest with
    | nil =>
      rw [closeLength?.eq_3 _ _ _ (by simp), hne]
      rfl
    | cons d rest =>
      have hd : (d == close) = false := h rfl
      rw [closeLength?, if_neg (by rw [hd]; decide)]
  · rw [closeLength?.eq_3 _ _ _ fun _ _ heq => (hslash heq).elim, hne]
    rfl

theorem closeLength?_pos {x : List Char} {length : Nat} (h : closeLength? close x = some length) :
    0 < length := by
  fun_induction closeLength? close x generalizing length with
  -- The text has ended.
  | case1 => cases h
  -- An escaped closing character.
  | case2 c rest hc ih =>
    obtain ⟨n, -, rfl⟩ := Option.map_eq_some_iff.mp h
    exact Nat.succ_pos _
  -- A backslash before anything else.
  | case3 c rest hc ih =>
    obtain ⟨n, -, rfl⟩ := Option.map_eq_some_iff.mp h
    exact Nat.succ_pos _
  -- The closing character.
  | case4 c rest hno hc =>
    cases h
    exact Nat.one_pos
  -- Any other character.
  | case5 c rest hno hc ih =>
    obtain ⟨n, -, rfl⟩ := Option.map_eq_some_iff.mp h
    exact Nat.succ_pos _

/-! ### What the rules scan for -/

/-- A string is what stands in front of its closing quote, without escapes. -/
theorem stringBody?_eq (quote : Char) (x : List Char) :
    stringBody? quote x = (closeLength? quote x).map fun length =>
      (unescapeIf (· == quote) (x.take (length - 1)), length) := by
  fun_induction stringBody? quote x with
  -- The text has ended.
  | case1 => rfl
  -- A closing quote behind a backslash is part of the string, without the backslash.
  | case2 c rest hc ih =>
    rw [closeLength?, if_pos hc, ih]
    cases hlength : closeLength? quote rest with
    | none => rfl
    | some n =>
      obtain ⟨k, rfl⟩ := Nat.exists_eq_succ_of_ne_zero (Nat.ne_of_gt (closeLength?_pos hlength))
      simp [unescapeIf, beq_iff_eq.mp hc]
  -- Any other backslash is kept.
  | case3 c rest hc ih =>
    rw [closeLength?, if_neg hc, ih]
    cases hlength : closeLength? quote (c :: rest) with
    | none => rfl
    | some n =>
      obtain ⟨k, rfl⟩ := Nat.exists_eq_succ_of_ne_zero (Nat.ne_of_gt (closeLength?_pos hlength))
      have hhead : headIs (· == quote) ((c :: rest).take k) = false := by
        cases k with
        | zero => rfl
        | succ k => exact Bool.eq_false_iff.mpr hc
      simp [unescapeIf_cons fun _ => hhead]
  -- The closing quote.
  | case4 c rest hno hc =>
    rw [closeLength?.eq_3 _ _ _ hno, if_pos hc]
    rfl
  -- Any other character.
  | case5 c rest hno hc ih =>
    rw [closeLength?.eq_3 _ _ _ hno, if_neg hc, ih]
    cases hlength : closeLength? quote rest with
    | none => rfl
    | some n =>
      obtain ⟨k, rfl⟩ := Nat.exists_eq_succ_of_ne_zero (Nat.ne_of_gt (closeLength?_pos hlength))
      have hhead : c = '\\' → headIs (· == quote) (rest.take k) = false := by
        rintro rfl
        cases rest with
        | nil => simp [headIs]
        | cons d rest => exact (hno d rest rfl rfl).elim
      simp [unescapeIf_cons hhead]

/-- A segment is scanned as a string is. -/
theorem segmentLength?_eq (x : List Char) : segmentLength? x = closeLength? ']' x := by
  fun_induction segmentLength? x with
  -- The text has ended.
  | case1 => rfl
  -- A bracket behind a backslash.
  | case2 rest ih => rw [closeLength?, if_pos (beq_self_eq_true _), ih]
  -- The closing bracket.
  | case3 rest => rfl
  -- Any other character.
  | case4 c rest hpair hclose ih =>
    rw [ih, closeLength?_cons fun hc => hclose hc]
    rintro rfl
    cases rest with
    | nil => rfl
    | cons d rest => exact beq_false_of_ne fun hd => hpair rest rfl (by rw [hd])

/-- The characters that are escaped in a segment. -/
def inSegment (c : Char) : Bool := c == '\\' || c == ']'

theorem unescapeSegment_eq (x : List Char) : unescapeSegment x = unescapeIf inSegment x := by
  fun_induction unescapeSegment x with
  -- The text has ended.
  | case1 => rfl
  -- Two backslashes.
  | case2 rest ih => rw [unescapeIf, if_pos (by decide), ih]
  -- A bracket behind a backslash.
  | case3 rest ih => rw [unescapeIf, if_pos (by decide), ih]
  -- Any other character.
  | case4 c rest hslash hclose ih =>
    rw [ih, unescapeIf_cons]
    rintro rfl
    cases rest with
    | nil => rfl
    | cons d rest =>
      simp only [headIs, inSegment, Bool.or_eq_false_iff, beq_eq_false_iff_ne]
      exact ⟨fun hd => hslash rest rfl (by rw [hd]), fun hd => hclose rest rfl (by rw [hd])⟩

/-! ### Escaped texts -/

/-- What an escaped text begins with is a backslash or not escaped. -/
theorem headIs_escapeIf {q : Char → Bool} (hq : ∀ c, q c = true → p c = true)
    (hslash : q '\\' = false) {text rest : List Char} (hrest : text = [] → headIs q rest = false) :
    headIs q (escapeIf p text ++ rest) = false := by
  cases text with
  | nil => exact hrest rfl
  | cons c text =>
    rw [escapeIf_cons]
    split
    · exact hslash
    · next hc => exact Bool.eq_false_iff.mpr fun h => hc (hq c h)

/-- An escaped text holds nothing that closes, unless its last backslash escapes what follows. -/
theorem closeLength?_escapeIf (p : Char → Bool) (hp : p close = true) (hclose : close ≠ '\\')
    {text rest : List Char} (hrest : text.getLast? = some '\\' → headIs (· == close) rest = false) :
    closeLength? close (escapeIf p text ++ rest)
      = (closeLength? close rest).map (· + (escapeIf p text).length) := by
  induction text with
  | nil => simp
  | cons c text ih =>
    have ih := ih fun hlast => hrest (by rw [List.getLast?_cons, hlast]; rfl)
    -- A character that does not close is passed, and may be a backslash before what does.
    have hcons : c ≠ close → closeLength? close (c :: (escapeIf p text ++ rest))
        = (closeLength? close rest).map (· + ((escapeIf p text).length + 1)) := by
      intro hc
      rw [closeLength?_cons hc, ih, Option.map_map]
      · rfl
      · rintro rfl
        refine headIs_escapeIf (fun d hd => ?_)
          (Bool.eq_false_iff.mpr fun h => hc (beq_iff_eq.mp h)) ?_
        · rwa [beq_iff_eq.mp hd]
        · rintro rfl
          exact hrest rfl
    rw [escapeIf_cons]
    split
    · have hslash : '\\' ≠ close := Ne.symm hclose
      by_cases hc : c = close
      · rw [List.cons_append, List.cons_append, closeLength?, if_pos (beq_iff_eq.mpr hc), ih,
          Option.map_map]
        rfl
      · have hhead : headIs (· == close) (c :: (escapeIf p text ++ rest)) = false :=
          beq_false_of_ne hc
        rw [List.cons_append, List.cons_append, closeLength?_cons hslash fun _ => hhead, hcons hc,
          Option.map_map]
        rfl
    · next hpc =>
      exact hcons fun hc => hpc (by rw [hc, hp])

/-- Undoing the escapes of a text gives it back. -/
theorem unescapeIf_escapeIf (text : List Char) {rest : List Char}
    (hrest : p '\\' = false → headIs p rest = false) :
    unescapeIf p (escapeIf p text ++ rest) = text ++ unescapeIf p rest := by
  induction text with
  | nil => rfl
  | cons c text ih =>
    rw [escapeIf_cons]
    split
    · next hc =>
      rw [List.cons_append, List.cons_append, unescapeIf, if_pos hc, ih, List.cons_append]
    · next hc =>
      rw [List.cons_append, unescapeIf_cons, ih, List.cons_append]
      rintro rfl
      have hslash : p '\\' = false := Bool.eq_false_iff.mpr hc
      exact headIs_escapeIf (fun _ h => h) hslash fun _ => hrest hslash

/-! ### Tags around one token -/

/-- A tag with braces around a text. -/
def tagAround (inner : List Char) : List Char := '{' :: '{' :: (inner ++ ['}', '}'])

/-- The tokens of such a tag, when the text in it is one token. -/
def tagTokens (kind : TokenKind) (inner : List Char) : List Token :=
  let stop := 2 + byteLength inner
  let whole := byteLength (tagAround inner)
  [⟨.open false false, .ofOffsets 0 2⟩, ⟨kind, .ofOffsets 2 stop⟩,
    ⟨.close false, .ofOffsets stop whole⟩, ⟨.eof, .ofOffsets whole whole⟩]

/-- The characters that begin a string or a segment. -/
def BeginsLiteral (c : Char) : Prop := c = '"' ∨ c = '\'' ∨ c = '['

/-- Braces in front of such a character only open a tag. -/
theorem lex_tagAround (hc : BeginsLiteral c) (more : List Char) :
    lex (String.ofList (tagAround (c :: more)))
      = ⟨.open false false, .ofOffsets 0 2⟩ :: lexFrom .tag 2 (c :: (more ++ ['}', '}'])) := by
  have hstep : LexStep .tag ['{', '{'] (c :: (more ++ ['}', '}']))
      [⟨.open false false, 0, 2⟩] .tag := by
    refine LexStep.of_lexeme ['{'] false (by decide) (tagLexeme_of_openRule ?_)
    rcases hc with rfl | rfl | rfl <;> exact openRule_braces _ (by decide) (by decide)
  rw [lex, String.toList_ofList, tagAround, lexFrom_empty]
  exact hstep.lexFrom_eq 0

/-- A tag that ends after its token. -/
theorem lex_tagAround_eq {more : List Char} {kind : TokenKind} (hc : BeginsLiteral c)
    (h : tagLexeme c (more ++ ['}', '}']) = ⟨kind, more.length, false⟩) :
    lex (String.ofList (tagAround (c :: more))) = tagTokens kind (c :: more) := by
  have hblank : Text.isBlank c = false := by rcases hc with rfl | rfl | rfl <;> decide
  have hstep : LexStep .tag (c :: more) ['}', '}'] [⟨kind, 0, byteLength (c :: more)⟩] .tag :=
    LexStep.of_lexeme more false hblank h
  have hclose : LexStep .tag ['}', '}'] [] [⟨.close false, 0, 2⟩] .content :=
    LexStep.of_lexeme ['}'] true (by decide) rfl
  have hend (offset : Nat) : lexFrom .tag offset ['}', '}']
      = [⟨.close false, .ofOffsets offset (offset + 2)⟩,
        ⟨.eof, .ofOffsets (offset + 2) (offset + 2)⟩] := by
    refine (hclose.lexFrom_eq offset).trans ?_
    rw [lexFrom_plain rfl]
    rfl
  have hwhole : byteLength (tagAround (c :: more)) = 2 + byteLength (c :: more) + 2 := by
    have hbrace : '{'.utf8Size + ('{'.utf8Size + 0) = 2 := rfl
    simp only [tagAround, Text.byteLength_cons, Text.byteLength_append, Text.byteLength_nil]
    rw [← Nat.add_assoc]
    rfl
  rw [lex_tagAround hc, tagTokens, hwhole]
  refine congrArg (List.cons _) ((hstep.lexFrom_eq 2).trans ?_)
  rw [hend]
  rfl

/-! ### Strings -/

theorem tagLexeme_quote {quote : Char} (hquote : quote = '"' ∨ quote = '\'') {rest : List Char}
    {l : Lexeme} (h : stringRule (quote :: rest) = some l) : tagLexeme quote rest = l := by
  rcases hquote with rfl | rfl <;>
    simp [tagLexeme, tagRules, openRule, punctuationRule, dotRule, closeRule, h]

/-- A string in quotes, with a backslash in front of each of its quotes. -/
def inQuotes (quote : Char) (value : List Char) : List Char :=
  quote :: (escapeIf (· == quote) value ++ [quote])

/-- A tag around a string in quotes is cut into this string, whatever else is in it.  Only a
backslash at its end would escape the closing quote. -/
theorem lex_string (quote : Char) (hquote : quote = '"' ∨ quote = '\'') (value : String)
    (hlast : value.toList.getLast? ≠ some '\\') :
    lex (String.ofList (tagAround (inQuotes quote value.toList)))
      = tagTokens (.string value) (inQuotes quote value.toList) := by
  have hslash : quote ≠ '\\' := by rcases hquote with rfl | rfl <;> decide
  have hbegins : BeginsLiteral quote := hquote.imp_right .inl
  have hself : (quote == quote) = true := beq_self_eq_true quote
  have hlength : closeLength? quote (escapeIf (· == quote) value.toList ++ [quote] ++ ['}', '}'])
      = some ((escapeIf (· == quote) value.toList).length + 1) := by
    rw [List.append_assoc, closeLength?_escapeIf (· == quote) hself hslash fun h => absurd h hlast]
    rw [List.singleton_append, closeLength?.eq_3 _ _ _ fun _ _ h => absurd h hslash, if_pos hself]
    simp [Nat.add_comm]
  have hvalue :
      unescapeIf (· == quote) (escapeIf (· == quote) value.toList ++ []) = value.toList := by
    rw [unescapeIf_escapeIf _ fun _ => rfl, unescapeIf, List.append_nil]
  rw [List.append_nil] at hvalue
  rw [inQuotes]
  refine lex_tagAround_eq hbegins (tagLexeme_quote hquote ?_)
  rw [stringRule, if_pos (by simpa using hquote), stringBody?_eq, hlength]
  simp [hvalue]

/-- A string with both quotes, backslashes in front of them, closing braces and a line break. -/
theorem lex_string_mixed :
    "a\\\"\\'\x7d\x7d\n\"".toList.getLast? ≠ some '\\' ∧
      lex "\x7b\x7b\"a\\\\\"\\'\x7d\x7d\n\\\"\"\x7d\x7d"
        = [⟨.open false false, ⟨0, 2⟩⟩, ⟨.string "a\\\"\\'\x7d\x7d\n\"", ⟨2, 15⟩⟩,
          ⟨.close false, ⟨15, 17⟩⟩, ⟨.eof, ⟨17, 17⟩⟩] := by
  let value := "a\\\"\\'\x7d\x7d\n\""
  have hlast : value.toList.getLast? ≠ some '\\' := by decide
  have hsource : "\x7b\x7b\"a\\\\\"\\'\x7d\x7d\n\\\"\"\x7d\x7d"
      = String.ofList (tagAround (inQuotes '"' value.toList)) := by decide
  have htokens : tagTokens (.string value) (inQuotes '"' value.toList)
      = [⟨.open false false, ⟨0, 2⟩⟩, ⟨.string value, ⟨2, 15⟩⟩, ⟨.close false, ⟨15, 17⟩⟩,
        ⟨.eof, ⟨17, 17⟩⟩] := by decide
  rw [hsource]
  exact ⟨hlast, (lex_string '"' (.inl rfl) value hlast).trans htokens⟩

/-! ### Names in brackets -/

theorem tagLexeme_bracket (rest : List Char) :
    tagLexeme '[' rest = (bracketRule ('[' :: rest)).getD ⟨.invalid '[', 0, false⟩ := by
  have hid : isIdChar '[' = false := by decide
  simp [tagLexeme, tagRules, openRule, punctuationRule, dotRule, closeRule, stringRule, dataRule,
    wordRule, valueWords, after?, numberRule, headIs, openBlockParamsRule, barRule, idRule, hid]

/-- A name in brackets, with a backslash in front of each backslash and each closing bracket. -/
def bracketed (name : List Char) : List Char := '[' :: (escapeIf inSegment name ++ [']'])

/-- The brackets of a name are taken off again. -/
theorem idName_brackets (name : String) : idName ("[" ++ name ++ "]") = name := by
  rw [idName, String.toList_append, String.toList_append]
  simp [unbracket]

/-- The end of a name is found, unless its last backslash is taken to escape the bracket. -/
theorem segmentLength?_bracketed {name : List Char} (hlast : name.getLast? ≠ some '\\')
    (rest : List Char) :
    segmentLength? (escapeIf inSegment name ++ ']' :: rest)
      = some ((escapeIf inSegment name).length + 1) := by
  rw [segmentLength?_eq, closeLength?_escapeIf inSegment rfl (by decide) fun h => absurd h hlast]
  simp [closeLength?, Nat.add_comm]

theorem segmentLength?_backslash (front : List Char) :
    segmentLength? (escapeIf inSegment (front ++ ['\\']) ++ [']', '}', '}']) = none := by
  have hescape : escapeIf inSegment (front ++ ['\\']) = escapeIf inSegment front ++ ['\\', '\\'] :=
    List.flatMap_append
  rw [segmentLength?_eq, hescape, List.append_assoc,
    closeLength?_escapeIf inSegment rfl (by decide) fun _ => rfl]
  rfl

/-- A tag around a name in brackets is cut into this name, and the name is what it stands for,
unless it ends with a backslash.  Then the scan takes the backslash that escapes this one for
one that escapes the closing bracket, and no name is found. -/
theorem lex_bracketed (name : String) :
    idName ("[" ++ name ++ "]") = name ∧
      if name.toList.getLast? = some '\\' then
        ∃ rest, kinds (lex (String.ofList (tagAround (bracketed name.toList))))
          = .open false false :: .invalid '[' :: rest
      else
        lex (String.ofList (tagAround (bracketed name.toList)))
          = tagTokens (.id ("[" ++ name ++ "]")) (bracketed name.toList) := by
  refine ⟨idName_brackets name, ?_⟩
  have hbegins : BeginsLiteral '[' := .inr (.inr rfl)
  split
  · next hlast =>
    -- The name ends with a backslash, and no bracket is left to close it.
    obtain ⟨front, hfront⟩ := List.getLast?_eq_some_iff.mp hlast
    have hlexeme : tagLexeme '[' (escapeIf inSegment name.toList ++ [']'] ++ ['}', '}'])
        = ⟨.invalid '[', 0, false⟩ := by
      rw [tagLexeme_bracket, bracketRule, hfront, List.append_assoc, List.cons_append,
        List.nil_append, segmentLength?_backslash]
      rfl
    have hstep := LexStep.of_lexeme [] false (c := '[') (by decide) hlexeme
    rw [bracketed, lex_tagAround hbegins]
    exact ⟨_, congrArg (fun ts => TokenKind.open false false :: kinds ts) (hstep.lexFrom_eq 2)⟩
  · next hlast =>
    refine lex_tagAround_eq hbegins ?_
    rw [tagLexeme_bracket, bracketRule, List.append_assoc, List.cons_append, List.nil_append,
      segmentLength?_bracketed hlast]
    -- The escapes are taken back, and the brackets around them.
    have hunescape : unescapeSegment ('[' :: (escapeIf inSegment name.toList ++ [']']))
        = '[' :: (name.toList ++ [']']) := by
      rw [unescapeSegment_eq, unescapeIf_cons fun h => absurd h (by decide),
        unescapeIf_escapeIf _ (by decide)]
      rfl
    have htake : (escapeIf inSegment name.toList ++ [']', '}', '}']).take
        ((escapeIf inSegment name.toList).length + 1)
          = escapeIf inSegment name.toList ++ [']'] := by
      rw [List.take_length_add_append]
      rfl
    have hname : String.ofList ('[' :: (name.toList ++ [']'])) = "[" ++ name ++ "]" := by
      rw [← String.toList_inj]
      simp
    rw [Option.map_some, htake, hunescape, hname]
    simp

/-- A name that is one backslash, which is doubled, is not read back. -/
theorem lex_bracketed_backslash :
    ¬ ∀ name : String, lex (String.ofList (tagAround (bracketed name.toList)))
      = tagTokens (.id ("[" ++ name ++ "]")) (bracketed name.toList) := by
  intro hall
  -- The scan jumps over the only bracket that could close.
  have hbracket : tagLexeme '[' ['\\', '\\', ']', '}', '}'] = ⟨.invalid '[', 0, false⟩ := by decide
  have hstep := LexStep.of_lexeme [] false (c := '[') (by decide) hbracket
  have hlex := lex_tagAround (.inr (.inr rfl)) ['\\', '\\', ']']
  have hone := (List.cons.inj (hlex.symm.trans (hall "\\"))).2
  exact absurd (congrArg List.head? ((hstep.lexFrom_eq 2).symm.trans hone)) (by decide)

end TemplateCompiler.Mustache
