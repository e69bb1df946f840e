/-
Cutting a template into tokens.

Outside tags everything up to the next two braces is text.  One backslash
before the braces makes them text as well, and two backslashes stand for one
backslash before a real tag.  Inside a tag blanks are skipped and the first
rule that fits gives the next token:

* `Lexeme` — what a rule found: a kind of token, and how many characters it
  covers after the first;
* `tagRules` — the rules in their order;
* `lex` — all tokens of a template.

A rule speaks of a text that is not empty and always covers its first character,
so every token inside a tag moves the lexer on.  Text is cut by `splitAtBraces`,
which loses nothing.
-/
import TemplateCompiler.Mustache.Token
import TemplateCompiler.Text.Blank
import TemplateCompiler.Text.Bytes

namespace TemplateCompiler.Mustache

/-! ### Classes of characters -/

/-- Punctuation that no identifier and no block parameter holds. -/
def isReserved (c : Char) : Bool :=
  "!\"#%&'()*+,./;<=>@[\\]^`\x7b|\x7d~".toList.contains c

/-- A character of an identifier. -/
def isIdChar (c : Char) : Bool := !Text.isBlank c && !isReserved c

/-- A character that may follow an identifier. -/
def endsId (c : Char) : Bool :=
  ['=', '~', '}', '/', '.', ')', '|'].contains c || Text.isBlank c

/-- A character that may follow a number or a word for a value. -/
def endsLiteral (c : Char) : Bool := ['~', '}', ')'].contains c || Text.isBlank c

/-- Whether the first character of a text passes a test; an empty text does
not. -/
def headIs (p : Char → Bool) : List Char → Bool
  | [] => false
  | c :: _ => p c

/-- What follows a word at the start of a text. -/
def after? : List Char → List Char → Option (List Char)
  | [], cs => some cs
  | _ :: _, [] => none
  | w :: word, c :: cs => if w == c then after? word cs else none

/-! ### Rules -/

/-- What a rule found at the start of a text. -/
structure Lexeme where
  kind : TokenKind
  /-- The number of characters covered after the first one. -/
  more : Nat
  /-- Whether the tag ends with this token. -/
  ends : Bool := false
deriving DecidableEq, Repr

/-- A rule for tokens inside tags. -/
abbrev Rule := List Char → Option Lexeme

/-- The end of a tag that consists of `else` or a caret alone: how many
characters up to it, and its tilde. -/
def inverseClose? (cs : List Char) : Option (Nat × Bool) :=
  let blanks := (cs.takeWhile Text.isBlank).length
  match cs.dropWhile Text.isBlank with
  | '~' :: '}' :: '}' :: _ => some (blanks + 3, true)
  | '}' :: '}' :: _ => some (blanks + 2, false)
  | _ => none

/-- The length of the word `else`, with the blanks before it, when no longer
identifier stands there. -/
def elseLength? (cs : List Char) : Option Nat :=
  let blanks := (cs.takeWhile Text.isBlank).length
  match cs.dropWhile Text.isBlank with
  | 'e' :: 'l' :: 's' :: 'e' :: rest => if headIs isIdChar rest then none else some (blanks + 4)
  | _ => none

/-- The length of a comment that ends with the first two closing braces. -/
def shortCommentLength? : List Char → Option Nat
  | '}' :: '}' :: _ => some 2
  | _ :: rest => (shortCommentLength? rest).map (· + 1)
  | [] => none

/-- The length of a comment that ends with two dashes and closing braces. -/
def longCommentLength? : List Char → Option Nat
  | '-' :: '-' :: '}' :: '}' :: _ => some 4
  | '-' :: '-' :: '~' :: '}' :: '}' :: _ => some 5
  | _ :: rest => (longCommentLength? rest).map (· + 1)
  | [] => none

/-- The text without a character at its start. -/
def dropOne (c : Char) : List Char → List Char
  | [] => []
  | d :: rest => if c == d then rest else d :: rest

/-- The text without a character at its end. -/
def dropOneEnd (c : Char) (cs : List Char) : List Char := (dropOne c cs.reverse).reverse

/-- The text of a comment without its braces, tildes, exclamation mark and up
to two dashes on each side. -/
def commentText (raw : List Char) : List Char :=
  let inner := dropOne '!' (dropOne '~' (raw.drop 2))
  let inner := dropOne '-' (dropOne '-' inner)
  let inner := if inner.reverse.take 2 == ['}', '}'] then inner.take (inner.length - 2) else inner
  dropOneEnd '-' (dropOneEnd '-' (dropOneEnd '~' inner))

/-- The comment that starts a text; without an end the first brace is invalid. -/
def commentLexeme (input : List Char) (long : Bool) : Lexeme :=
  match if long then longCommentLength? input else shortCommentLength? input with
  | none => ⟨.invalid '{', 0, false⟩
  | some length =>
    let raw := input.take length
    let strip : Strip := ⟨raw[2]? == some '~', raw[length - 3]? == some '~'⟩
    ⟨.comment (String.ofList (commentText raw)) strip, length - 1, true⟩

/-- What opens a tag, given what follows the braces and the tilde.  The braces
and the tilde have `base` characters after the first. -/
def openLexeme (input : List Char) (strip : Bool) (base : Nat) (tail : List Char) : Lexeme :=
  match tail with
  | '>' :: _ => { kind := .openPartial strip, more := base + 1 }
  | '#' :: '>' :: _ => { kind := .openPartialBlock, more := base + 2 }
  | '#' :: '*' :: _ => { kind := .openDecoratorBlock, more := base + 2 }
  | '#' :: _ => { kind := .openBlock strip, more := base + 1 }
  | '/' :: _ => { kind := .openEndBlock strip, more := base + 1 }
  | '^' :: rest =>
    match inverseClose? rest with
    | some (length, close) => ⟨.inverse ⟨strip, close⟩, base + 1 + length, true⟩
    | none => { kind := .openInverse strip, more := base + 1 }
  | _ =>
    match elseLength? tail with
    | some word =>
      match inverseClose? (tail.drop word) with
      | some (length, close) => ⟨.inverse ⟨strip, close⟩, base + word + length, true⟩
      | none => { kind := .openInverseChain strip, more := base + word }
    | none =>
      match tail with
      | '{' :: _ => { kind := .openUnescaped strip, more := base + 1 }
      | '&' :: _ => { kind := .open strip true, more := base + 1 }
      | '!' :: '-' :: '-' :: _ => commentLexeme input true
      | '!' :: _ => commentLexeme input false
      | '*' :: _ => { kind := .openDecorator, more := base + 1 }
      | _ => { kind := .open strip false, more := base }

/-- Two braces open a tag. -/
def openRule : Rule
  | '{' :: '{' :: '{' :: '{' :: _ => some { kind := .openRawBlock, more := 3 }
  | '{' :: '{' :: '~' :: tail => some (openLexeme ('{' :: '{' :: '~' :: tail) true 2 tail)
  | '{' :: '{' :: tail => some (openLexeme ('{' :: '{' :: tail) false 1 tail)
  | _ => none

/-- Parentheses and the equals sign. -/
def punctuationRule : Rule
  | '(' :: _ => some { kind := .openSexpr, more := 0 }
  | ')' :: _ => some { kind := .closeSexpr, more := 0 }
  | '=' :: _ => some { kind := .equals, more := 0 }
  | _ => none

/-- Two dots are an identifier, and so is one dot that ends; other dots, and
slashes, separate. -/
def dotRule : Rule
  | '.' :: '.' :: _ => some { kind := .id "..", more := 1 }
  | '.' :: rest => some { kind := if headIs endsId rest then .id "." else .sep '.', more := 0 }
  | '/' :: _ => some { kind := .sep '/', more := 0 }
  | _ => none

/-- Closing braces. -/
def closeRule : Rule
  | '}' :: '~' :: '}' :: '}' :: _ => some ⟨.closeUnescaped true, 3, true⟩
  | '}' :: '}' :: '}' :: _ => some ⟨.closeUnescaped false, 2, true⟩
  | '~' :: '}' :: '}' :: _ => some ⟨.close true, 2, true⟩
  | '}' :: '}' :: _ => some ⟨.close false, 1, true⟩
  | _ => none

/-- The value of a string after its opening quote, and the number of characters
with the closing quote.  A backslash before the quote stands for the quote. -/
def stringBody? (quote : Char) : List Char → Option (List Char × Nat)
  | [] => none
  | '\\' :: c :: rest =>
    if c == quote then
      (stringBody? quote rest).map fun (value, length) => (quote :: value, length + 2)
    else
      (stringBody? quote (c :: rest)).map fun (value, length) => ('\\' :: value, length + 1)
  | c :: rest =>
    if c == quote then some ([], 1)
    else (stringBody? quote rest).map fun (value, length) => (c :: value, length + 1)

/-- A string in quotes; without an end the quote is invalid. -/
def stringRule : Rule
  | [] => none
  | quote :: rest =>
    if quote == '"' || quote == '\'' then
      match stringBody? quote rest with
      | some (value, length) => some { kind := .string (String.ofList value), more := length }
      | none => some { kind := .invalid quote, more := 0 }
    else none

/-- The at sign. -/
def dataRule : Rule
  | '@' :: _ => some { kind := .data, more := 0 }
  | _ => none

/-- The words for values. -/
def valueWords : List (String × TokenKind) :=
  [("true", .boolean true), ("false", .boolean false), ("undefined", .undefined),
    ("null", .null)]

/-- A word for a value, with an end after it. -/
def wordRule : Rule := fun input =>
  valueWords.findSome? fun (word, kind) =>
    match after? word.toList input with
    | some rest => if headIs endsLiteral rest then some ⟨kind, word.length - 1, false⟩ else none
    | none => none

/-- The number that decimal digits spell. -/
def digitsValue (digits : List Char) : Nat :=
  digits.foldl (fun value c => 10 * value + (c.toNat - '0'.toNat)) 0

/-- A decimal number, with an end after it. -/
def numberRule : Rule := fun input =>
  let negative := headIs (· == '-') input
  let unsigned := if negative then input.drop 1 else input
  let whole := unsigned.takeWhile Char.isDigit
  let rest := unsigned.dropWhile Char.isDigit
  let fraction := match rest with
    | '.' :: digits => digits.takeWhile Char.isDigit
    | _ => []
  let rest := if fraction.isEmpty then rest else rest.drop (fraction.length + 1)
  if !whole.isEmpty && headIs endsLiteral rest then
    let digits := digitsValue (whole ++ fraction)
    let value := Binary64.ofRatio negative digits (Nat.pow 10 fraction.length)
    some { kind := .number value, more := input.length - rest.length - 1 }
  else none

/-- The word `as`, blanks and a bar. -/
def openBlockParamsRule : Rule
  | 'a' :: 's' :: rest =>
    let blanks := (rest.takeWhile Text.isBlank).length
    match rest.dropWhile Text.isBlank with
    | '|' :: _ => if 0 < blanks then some { kind := .openBlockParams, more := blanks + 2 } else none
    | _ => none
  | _ => none

/-- A bar. -/
def barRule : Rule
  | '|' :: _ => some { kind := .closeBlockParams, more := 0 }
  | _ => none

/-- An identifier, with an end or nothing after it. -/
def idRule : Rule := fun input =>
  let name := input.takeWhile isIdChar
  let rest := input.dropWhile isIdChar
  if !name.isEmpty && (rest.isEmpty || headIs endsId rest) then
    some { kind := .id (String.ofList name), more := name.length - 1 }
  else none

/-- The number of characters up to the closing bracket.  A bracket after a
backslash does not close. -/
def segmentLength? : List Char → Option Nat
  | [] => none
  | '\\' :: ']' :: rest => (segmentLength? rest).map (· + 2)
  | ']' :: _ => some 1
  | _ :: rest => (segmentLength? rest).map (· + 1)

/-- Undoes the backslashes before backslashes and closing brackets. -/
def unescapeSegment : List Char → List Char
  | [] => []
  | '\\' :: '\\' :: rest => '\\' :: unescapeSegment rest
  | '\\' :: ']' :: rest => ']' :: unescapeSegment rest
  | c :: rest => c :: unescapeSegment rest

/-- A segment in brackets. -/
def bracketRule : Rule
  | '[' :: rest => (segmentLength? rest).map fun length =>
    { kind := .id (String.ofList (unescapeSegment ('[' :: rest.take length))), more := length }
  | _ => none

/-- The rules for tokens inside tags; the first that fits is taken. -/
def tagRules : List Rule :=
  [openRule, punctuationRule, dotRule, closeRule, stringRule, dataRule, wordRule, numberRule,
    openBlockParamsRule, barRule, idRule, bracketRule]

/-- The token at the start of a text inside a tag. -/
def tagLexeme (c : Char) (rest : List Char) : Lexeme :=
  (tagRules.findSome? (· (c :: rest))).getD { kind := .invalid c, more := 0 }

/-! ### Text and tags together -/

/-- The text before the first two opening braces, and what starts there. -/
def splitAtBraces : List Char → List Char × List Char
  | [] => ([], [])
  | '{' :: '{' :: rest => ([], '{' :: '{' :: rest)
  | c :: rest =>
    let halves := splitAtBraces rest
    (c :: halves.1, halves.2)

theorem splitAtBraces_append (cs : List Char) :
    (splitAtBraces cs).1 ++ (splitAtBraces cs).2 = cs := by
  fun_induction splitAtBraces cs with
  -- The text has ended.
  | case1 => rfl
  -- Two braces stand here.
  | case2 rest => rfl
  -- Any other character.
  | case3 c rest _ halves ih => simp [halves, ih]

theorem append_of_splitAtBraces {cs back : List Char} (h : (splitAtBraces cs).2 = back) :
    (splitAtBraces cs).1 ++ back = cs :=
  h ▸ splitAtBraces_append cs

/-- The last backslashes of a text, at most two, do not belong to it when they
stand before braces. -/
def beforeEscapes (cs : List Char) : List Char := dropOneEnd '\\' (dropOneEnd '\\' cs)

/-- Where the lexer is. -/
inductive Mode where
  | content
  | tag
deriving DecidableEq, Repr

/-- In text a tag may follow at once, so text counts more. -/
def Mode.rank : Mode → Nat
  | .content => 1
  | .tag => 0

/-- A run of text as tokens; an empty run is none. -/
def contentTokens (value : List Char) (start stop : Nat) : List Token :=
  if value.isEmpty then [] else [⟨.content (String.ofList value), .ofOffsets start stop⟩]

/-- The text that escaped braces begin: the braces and what follows up to the
next braces with their backslashes. -/
def escapedText (fromBraces : List Char) : List Char :=
  let tail := fromBraces.drop 2
  let halves := splitAtBraces tail
  fromBraces.take 2 ++ if halves.2.isEmpty then halves.1 else beforeEscapes halves.1

/-- The measure of the lexer: the text still to be read, then the mode.  It is one number,
so that the lexer can be run on a given text. -/
def lexMeasure (mode : Mode) (input : List Char) : Nat := 2 * input.length + mode.rank

theorem splitAtBraces_length_le {input : List Char} {brace : Char} {rest : List Char}
    (h : (splitAtBraces input).2 = brace :: rest) : rest.length + 1 ≤ input.length := by
  have hlength := congrArg List.length (splitAtBraces_append input)
  rw [h, List.length_append, List.length_cons] at hlength
  omega

/-- A text is shorter than another of fewer characters, whatever the modes are. -/
theorem lexMeasure_lt {input rest : List Char} (h : rest.length < input.length)
    (mode mode' : Mode) : lexMeasure mode' rest < lexMeasure mode input := by
  have hrank : mode'.rank ≤ 1 := by cases mode' <;> decide
  unfold lexMeasure
  omega

/-- A tag that follows text reads no more than the text did. -/
theorem shorter_tag {input : List Char} {brace : Char} {rest : List Char}
    (h : (splitAtBraces input).2 = brace :: rest) :
    lexMeasure .tag (brace :: rest) < lexMeasure .content input := by
  have hle := splitAtBraces_length_le h
  simp only [lexMeasure, List.length_cons, Mode.rank]
  omega

/-- Text that follows escaped braces is shorter than what they stand in. -/
theorem shorter_content {input : List Char} {brace : Char} {rest : List Char}
    (h : (splitAtBraces input).2 = brace :: rest) (count : Nat) :
    lexMeasure .content (rest.drop count) < lexMeasure .content input := by
  have hle := splitAtBraces_length_le h
  refine lexMeasure_lt ?_ _ _
  rw [List.length_drop]
  omega

/-- What follows a token inside a tag is shorter than what the token starts. -/
theorem shorter_after_token {input : List Char} {c : Char} {rest : List Char}
    (h : input.dropWhile Text.isBlank = c :: rest) (mode : Mode) (count : Nat) :
    lexMeasure mode (rest.drop count) < lexMeasure .tag input := by
  have hle : (input.dropWhile Text.isBlank).length ≤ input.length :=
    List.IsSuffix.length_le (List.dropWhile_suffix _)
  rw [h, List.length_cons] at hle
  refine lexMeasure_lt ?_ _ _
  rw [List.length_drop]
  omega

/-- The tokens of the rest of a template that begins at `offset`. -/
def lexFrom (mode : Mode) (offset : Nat) (input : List Char) : List Token :=
  match mode with
  | .content =>
    let text := (splitAtBraces input).1
    let stop := offset + Text.byteLength text
    match h : (splitAtBraces input).2 with
    | [] => contentTokens text offset stop ++ [⟨.eof, .ofOffsets stop stop⟩]
    | brace :: rest =>
      if ['\\', '\\'].isSuffixOf text then
        contentTokens text.dropLast offset stop ++ lexFrom .tag stop (brace :: rest)
      else if ['\\'].isSuffixOf text then
        let escaped := escapedText (brace :: rest)
        let next := stop + Text.byteLength escaped
        contentTokens text.dropLast offset stop ++ contentTokens escaped stop next
          ++ lexFrom .content next (rest.drop (escaped.length - 1))
      else contentTokens text offset stop ++ lexFrom .tag stop (brace :: rest)
  | .tag =>
    let start := offset + Text.byteLength (input.takeWhile Text.isBlank)
    match _h : input.dropWhile Text.isBlank with
    | [] => [⟨.eof, .ofOffsets start start⟩]
    | c :: rest =>
      let lexeme := tagLexeme c rest
      let stop := start + Text.byteLength (c :: rest.take lexeme.more)
      ⟨lexeme.kind, .ofOffsets start stop⟩
        :: lexFrom (if lexeme.ends then .content else .tag) stop (rest.drop lexeme.more)
  termination_by lexMeasure mode input
  decreasing_by
    · exact shorter_tag h
    · exact shorter_content h _
    · exact shorter_tag h
    · exact shorter_after_token _h _ _

/-- The tokens of a template. -/
def lex (source : String) : List Token := lexFrom .content 0 source.toList

end TemplateCompiler.Mustache
