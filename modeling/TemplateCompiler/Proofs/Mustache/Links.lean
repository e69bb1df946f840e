/-
Links of chains in the text of a template.

* `Link` — a link of a chain with the text around it, each part with the tokens that
  it is cut into;
* `Link.lex_chained`, `Link.lex_nested` — the tokens of the template with the link,
  and of the template with a block in its place;
* `Link.NameCloses` — the callee, written in a closing tag, is spelled as it was;
* `Link.parseProgram_shape` — the block in place of the link is then accepted, in a
  program of the same shape.

All parts of a link end before two opening braces, and so are cut alike whatever
comes after these.  Only the name of the callee does not: in the link it is followed
by arguments, in the closing tag by braces.  A word such as `true` in front of dots
is one thing there and another here, which is why `NameCloses` is asked for.
-/
import TemplateCompiler.Proofs.Mustache.Chains
import TemplateCompiler.Proofs.Mustache.Stretches
import TemplateCompiler.Proofs.Mustache.Tagged

namespace TemplateCompiler.Mustache

open Text (byteLength byteLength_append)

/-! ### Tags of links -/

/-- A tilde, or nothing. -/
def tilde (strip : Bool) : List Char := if strip then ['~'] else []

theorem tagLexeme_of_openRule {rest : List Char} {l : Lexeme}
    (h : openRule ('{' :: rest) = some l) :
    tagLexeme '{' rest = l := by
  rw [tagLexeme, tagRules, List.findSome?_cons, h]
  rfl

/-- The tokens that braces begin, when the next character is neither a brace nor a tilde. -/
theorem openRule_braces {c : Char} (rest : List Char) (hbrace : c ≠ '{') (htilde : c ≠ '~') :
    openRule ('{' :: '{' :: c :: rest)
      = some (openLexeme ('{' :: '{' :: c :: rest) false 1 (c :: rest)) := by
  simp [openRule, hbrace, htilde]

/-- Blanks and the word `else` do not begin with a mark. -/
theorem else_unmarked {pad : List Char} (rest : List Char) (hpad : pad.all Text.isBlank = true) :
    ∃ c more, pad ++ 'e' :: 'l' :: 's' :: 'e' :: rest = c :: more ∧
      ∀ d, Text.isBlank d = false → d ≠ 'e' → c ≠ d := by
  cases pad with
  | nil => exact ⟨'e', _, rfl, fun d _ hd => hd.symm⟩
  | cons c pad =>
    rw [List.all_cons, Bool.and_eq_true] at hpad
    refine ⟨c, _, rfl, ?_⟩
    rintro d hd - rfl
    rw [hd] at hpad
    cases hpad.1

/-- What opens a tag with `else` in it. -/
theorem openLexeme_else (input : List Char) (strip : Bool) (base : Nat) {pad : List Char}
    (rest : List Char) (hpad : pad.all Text.isBlank = true) (hrest : headIs isIdChar rest = false) :
    openLexeme input strip base (pad ++ 'e' :: 'l' :: 's' :: 'e' :: rest) =
      match inverseClose? rest with
      | some (length, close) => ⟨.inverse ⟨strip, close⟩, base + (pad.length + 4) + length, true⟩
      | none => ⟨.openInverseChain strip, base + (pad.length + 4), false⟩ := by
  obtain ⟨htake, hdrop⟩ := span_blanks ('l' :: 's' :: 'e' :: rest) hpad (c := 'e') (by decide)
  have hlength : elseLength? (pad ++ 'e' :: 'l' :: 's' :: 'e' :: rest) = some (pad.length + 4) := by
    rw [elseLength?, htake, hdrop]
    simp [hrest]
  have hafter : (pad ++ 'e' :: 'l' :: 's' :: 'e' :: rest).drop (pad.length + 4) = rest := by
    rw [List.drop_append, List.drop_of_length_le (by omega), Nat.add_sub_cancel_left]
    rfl
  obtain ⟨c, more, hcons, hc⟩ := else_unmarked rest hpad
  rw [hcons] at hlength hafter ⊢
  rw [openLexeme_unmarked _ _ _ _ (hc _ (by decide) (by decide)) (hc _ (by decide) (by decide))
    (hc _ (by decide) (by decide)) (hc _ (by decide) (by decide)), hlength]
  cases hclose : inverseClose? rest with
  | none => simp only [hafter, hclose]
  | some close => simp only [hafter, hclose]

/-- Braces, blanks and the word `else`. -/
def elseMark (strip : Bool) (pad : List Char) : List Char :=
  '{' :: '{' :: (tilde strip ++ (pad ++ ['e', 'l', 's', 'e']))

/-- The token that `else` begins. -/
theorem tagLexeme_else (strip : Bool) {pad : List Char} (rest : List Char)
    (hpad : pad.all Text.isBlank = true) (hrest : headIs isIdChar rest = false) :
    tagLexeme '{' ((elseMark strip pad).tail ++ rest) =
      match inverseClose? rest with
      | some (length, close) =>
        ⟨.inverse ⟨strip, close⟩, (elseMark strip pad).tail.length + length, true⟩
      | none => ⟨.openInverseChain strip, (elseMark strip pad).tail.length, false⟩ := by
  have hopen : openRule ('{' :: ((elseMark strip pad).tail ++ rest))
      = some (openLexeme ('{' :: ((elseMark strip pad).tail ++ rest)) strip
        ((tilde strip).length + 1) (pad ++ 'e' :: 'l' :: 's' :: 'e' :: rest)) := by
    cases strip with
    | true => simp [elseMark, tilde, openRule]
    | false =>
      obtain ⟨c, more, hcons, hc⟩ := else_unmarked rest hpad
      simp only [elseMark, tilde, List.tail_cons, Bool.false_eq_true, if_false, List.nil_append,
        List.cons_append, List.append_assoc, List.length_nil, hcons]
      exact openRule_braces more (hc _ (by decide) (by decide)) (hc _ (by decide) (by decide))
  have hlength :
      (elseMark strip pad).tail.length = (tilde strip).length + 1 + (pad.length + 4) := by
    simp [elseMark]
    omega
  rw [tagLexeme_of_openRule hopen, openLexeme_else _ _ _ _ hpad hrest, hlength]

/-- A step that reads one token, after blanks. -/
theorem LexStep.of_blanks (blanks : List Char) {more rest : List Char} {c : Char} {kind : TokenKind}
    {ends : Bool} (hblanks : blanks.all Text.isBlank = true) (hc : Text.isBlank c = false)
    (h : tagLexeme c (more ++ rest) = ⟨kind, more.length, ends⟩) :
    LexStep .tag (blanks ++ c :: more) rest
      [⟨kind, byteLength blanks, byteLength (blanks ++ c :: more)⟩]
      (if ends then .content else .tag) := by
  have hmore : (more ++ rest).take (tagLexeme c (more ++ rest)).more = more := by
    rw [h, List.take_left]
  have hstep : LexStep .tag (blanks ++ c :: more) rest _ _ := .token hblanks hc hmore
  rw [h] at hstep
  exact hstep

/-- A step that reads one token without blanks before it. -/
theorem LexStep.of_lexeme {c : Char} (more : List Char) (ends : Bool) {rest : List Char}
    {kind : TokenKind} (hc : Text.isBlank c = false)
    (h : tagLexeme c (more ++ rest) = ⟨kind, more.length, ends⟩) :
    LexStep .tag (c :: more) rest [⟨kind, 0, byteLength (c :: more)⟩]
      (if ends then .content else .tag) :=
  LexStep.of_blanks [] rfl hc h

/-- A token, and what is read after it. -/
theorem Lexes.token (blanks : List Char) (c : Char) (more : List Char) (kind : TokenKind)
    (ends : Bool) {stretch rest : List Char} {cuts : List Cut} {mode' : Mode}
    (hblanks : blanks.all Text.isBlank = true) (hc : Text.isBlank c = false)
    (h : tagLexeme c (more ++ (stretch ++ rest)) = ⟨kind, more.length, ends⟩)
    (hmore : Lexes (if ends then .content else .tag) stretch rest cuts mode') :
    Lexes .tag (blanks ++ c :: more ++ stretch) rest
      (⟨kind, byteLength blanks, byteLength (blanks ++ c :: more)⟩
        :: cuts.map (·.after (byteLength (blanks ++ c :: more)))) mode' :=
  .step (.of_blanks blanks hblanks hc h) hmore

theorem step_inverse (strip : Bool) {pad : List Char} (rest : List Char)
    (hpad : pad.all Text.isBlank = true) :
    LexStep .tag (elseMark strip pad ++ ['}', '}']) rest
      [⟨.inverse ⟨strip, false⟩, 0, byteLength (elseMark strip pad ++ ['}', '}'])⟩] .content := by
  have hlexeme := tagLexeme_else strip ('}' :: '}' :: rest) hpad rfl
  have hclose : inverseClose? ('}' :: '}' :: rest) = some (2, false) := rfl
  rw [hclose] at hlexeme
  refine LexStep.of_lexeme ((elseMark strip pad).tail ++ ['}', '}']) true (by decide) ?_
  rw [List.append_assoc, List.length_append]
  exact hlexeme

/-- No token begins with a mark that has a meaning behind braces only. -/
theorem tagLexeme_mark {c : Char} (hc : c = '>' ∨ c = '*') (rest : List Char) :
    (tagLexeme c rest).kind.isInvalid = true := by
  have hid : isIdChar c = false := by rcases hc with rfl | rfl <;> decide
  rw [tagLexeme]
  rcases hc with rfl | rfl <;>
    simp [tagRules, openRule, punctuationRule, dotRule, closeRule, stringRule, dataRule, wordRule,
      valueWords, after?, numberRule, headIs, openBlockParamsRule, barRule, idRule, bracketRule, hid,
      TokenKind.isInvalid]

/-- What begins with a token, or with blanks before one, begins with no such mark. -/
theorem Lexes.head_ne {stretch rest : List Char} {cuts : List Cut} {mode' : Mode}
    (h : Lexes .tag stretch rest cuts mode') (hvalid : ∀ c ∈ cuts, c.kind.isInvalid = false)
    (hcuts : cuts ≠ []) : ∃ c more, stretch = c :: more ∧ c ≠ '>' ∧ c ≠ '*' := by
  generalize hmode : Mode.tag = mode at h
  cases h with
  | nil => exact absurd rfl hcuts
  | step hfirst hmore =>
    subst hmode
    cases hfirst with
    | @token blanks c more rest hblanks hc hlength =>
      cases blanks with
      | nil =>
        have hkind := hvalid _ (List.mem_append_left _ (List.mem_singleton_self _))
        have hmark : ¬(c = '>' ∨ c = '*') := by
          intro hmark
          rw [tagLexeme_mark hmark] at hkind
          cases hkind
        exact ⟨c, _, rfl, not_or.mp hmark⟩
      | cons blank blanks =>
        have hblank : Text.isBlank blank = true := List.all_eq_true.mp hblanks _ List.mem_cons_self
        have hne : ∀ d, Text.isBlank d = false → blank ≠ d := by
          rintro d hd rfl
          cases hd.symm.trans hblank
        exact ⟨blank, _, rfl, hne _ (by decide), hne _ (by decide)⟩

theorem step_openBlock {c : Char} (rest : List Char) (hpartial : c ≠ '>') (hdecorator : c ≠ '*') :
    LexStep .tag ['{', '{', '#'] (c :: rest) [⟨.openBlock false, 0, 3⟩] .tag := by
  refine LexStep.of_lexeme ['{', '#'] false (by decide) ?_
  refine tagLexeme_of_openRule ((openRule_braces _ (by decide) (by decide)).trans ?_)
  simp [openLexeme, hpartial, hdecorator]

theorem step_openEndBlock (strip : Bool) (rest : List Char) :
    LexStep .tag ('{' :: '{' :: (tilde strip ++ ['/'])) rest
      [⟨.openEndBlock strip, 0, byteLength ('{' :: '{' :: (tilde strip ++ ['/']))⟩] .tag := by
  refine LexStep.of_lexeme ('{' :: (tilde strip ++ ['/'])) false (by decide)
    (tagLexeme_of_openRule ?_)
  cases strip <;> rfl

theorem step_close (rest : List Char) :
    LexStep .tag ['}', '}'] ('{' :: rest) [⟨.close false, 0, 2⟩] .content :=
  LexStep.of_lexeme ['}'] true (by decide) rfl

/-- A tag at the end of another is read at once. -/
theorem step_empty (rest : List Char) : LexStep .content [] ('{' :: '{' :: rest) [] .tag :=
  .text rfl (by simp) (.inr rfl)

/-- A run of text, and the tag that is read after it. -/
theorem Lexes.text (text : List Char) {stretch rest : List Char} {cuts : List Cut} {mode' : Mode}
    (hsplit : splitAtBraces (text ++ (stretch ++ rest)) = (text, stretch ++ rest))
    (hrest : stretch ++ rest ≠ [])
    (hescape : ['\\', '\\'].isSuffixOf text = true ∨ ['\\'].isSuffixOf text = false)
    (hmore : Lexes .tag stretch rest cuts mode') :
    Lexes .content (text ++ stretch) rest
      (textCuts (tagText text) (byteLength text) ++ cuts.map (·.after (byteLength text))) mode' :=
  .step (.text hsplit hrest hescape) hmore

/-- A stretch that begins with a tag, behind another tag. -/
theorem Lexes.braces {stretch rest : List Char} {cuts : List Cut} {mode' : Mode}
    (h : Lexes .tag ('{' :: '{' :: stretch) rest cuts mode') :
    Lexes .content ('{' :: '{' :: stretch) rest cuts mode' := by
  have hempty := Lexes.step (step_empty (stretch ++ rest)) h
  simpa [Cut.after] using hempty

theorem lexFrom_empty (rest : List Char) (offset : Nat) :
    lexFrom .content offset ('{' :: '{' :: rest) = lexFrom .tag offset ('{' :: '{' :: rest) :=
  (step_empty rest).lexFrom_eq offset

/-! ### Links in a template -/

/-- The kinds of cuts. -/
def cutKinds (cuts : List Cut) : List TokenKind := cuts.map (·.kind)

theorem cutKinds_append (cuts cuts' : List Cut) :
    cutKinds (cuts ++ cuts') = cutKinds cuts ++ cutKinds cuts' := List.map_append

theorem cutKinds_after (count : Nat) (cuts : List Cut) :
    cutKinds (cuts.map (·.after count)) = cutKinds cuts := by
  simp [cutKinds, Function.comp_def]

theorem kinds_place (offset : Nat) (cuts : List Cut) :
    kinds (cuts.map (·.place offset)) = cutKinds cuts := by
  simp [kinds, cutKinds, Function.comp_def]

theorem Cut.place_nowhere (offset : Nat) (c : Cut) :
    (c.place offset).move nowhere = ⟨c.kind, ⟨0, 0⟩⟩ := rfl

/-- A link of a chain in the text of a template, with the text around it:

`front \x7b\x7belse name inner \x7b\x7b/rest`

The name is the callee of the link, and what is in it goes on to the tag that closes
the block. -/
structure LinkText where
  front : List Char
  /-- Whether a tilde stands before the `else`. -/
  strip : Bool
  /-- The blanks before the `else`. -/
  pad : List Char
  /-- The blanks after the `else`. -/
  gap : List Char
  name : List Char
  inner : List Char
  /-- Whether a tilde stands in the tag that closes the block. -/
  endStrip : Bool
  rest : List Char

namespace LinkText

/-- What begins with the tag that closes the block. -/
def after (t : LinkText) : List Char := '{' :: '{' :: (tilde t.endStrip ++ '/' :: t.rest)

/-- The template with the link. -/
def chained (t : LinkText) : List Char :=
  t.front ++ (elseMark t.strip t.pad ++ (t.gap ++ (t.name ++ (t.inner ++ t.after))))

/-- The tag that closes the block that the link becomes, and what follows it. -/
def closing (t : LinkText) : List Char :=
  '{' :: '{' :: '/' :: (t.name ++ '}' :: '}' :: t.after)

/-- The template with the link written as a block of its own in the other branch. -/
def nested (t : LinkText) : List Char :=
  t.front ++ (elseMark t.strip t.pad
    ++ '}' :: '}' :: '{' :: '{' :: '#' :: (t.name ++ (t.inner ++ t.closing)))

end LinkText

/-- A text in which a link of a chain is read as one. -/
structure Link extends LinkText where
  frontCuts : List Cut
  nameCuts : List Cut
  innerCuts : List Cut
  opening : OpeningTree
  body : List StatementTree
  inverse : Option InverseTree
  pad_blank : pad.all Text.isBlank = true
  gap_blank : gap.all Text.isBlank = true
  /-- The text before the link ends where a tag begins. -/
  front_lexes : Lexes .content front
    (elseMark strip pad ++ (gap ++ (name ++ (inner ++ toLinkText.after)))) frontCuts .tag
  /-- The tag is an `else` with more after it. -/
  mark_lexes : LexStep .tag (elseMark strip pad) (gap ++ (name ++ (inner ++ toLinkText.after)))
    [⟨.openInverseChain strip, 0, byteLength (elseMark strip pad)⟩] .tag
  name_lexes : Lexes .tag name (inner ++ toLinkText.after) nameCuts .tag
  inner_lexes : Lexes .tag inner toLinkText.after innerCuts .tag
  /-- The name is the callee. -/
  name_kinds : cutKinds nameCuts = kinds opening.call.callee.tokens
  /-- Name and inner text are a link up to the tag that closes the block. -/
  link_kinds : cutKinds (nameCuts ++ innerCuts)
    = kinds (opening.tokens ++ (statementsTokens body ++ otherTokens inverse))

namespace Link

/-- In a tag that closes a block, the name is read as an expression that is spelled as the callee
of the link is. -/
def NameCloses (l : Link) : Prop :=
  ∃ (cuts : List Cut) (closing : ExprTree),
    Lexes .tag l.name ('}' :: '}' :: l.after) cuts .tag ∧ cutKinds cuts = kinds closing.tokens ∧
      (l.opening.call.callee.Admissible → closing.Admissible) ∧
      spelling closing.expr = spelling l.opening.call.callee.expr

/-- A name that is cut as it is in the link closes the block. -/
theorem NameCloses.of_cuts {l : Link} {cuts : List Cut}
    (h : Lexes .tag l.name ('}' :: '}' :: l.after) cuts .tag)
    (hcuts : cutKinds cuts = cutKinds l.nameCuts) : l.NameCloses :=
  ⟨cuts, l.opening.call.callee, h, hcuts.trans l.name_kinds, id, rfl⟩

variable (l : Link)

/-- The cuts of the link after its `else`. -/
def linkCuts : List Cut := l.nameCuts ++ l.innerCuts.map (·.after (byteLength l.name))

/-- Where the link begins. -/
def start : Nat := byteLength l.front

/-- Where its name begins. -/
def inside : Nat := l.start + byteLength (elseMark l.strip l.pad) + byteLength l.gap

/-- Where the tag that closes the block begins. -/
def stop : Nat := l.inside + byteLength (l.name ++ l.inner)

/-- Where the name begins in the block that the link becomes. -/
def nestedInside : Nat := l.start + byteLength (elseMark l.strip l.pad ++ ['}', '}']) + 3

/-- Where the tag that closes the new block begins. -/
def nestedStop : Nat := l.nestedInside + byteLength (l.name ++ l.inner)

/-- Where the tag that closes the old block begins behind the new block. -/
def behind : Nat := l.nestedStop + 3 + byteLength l.name + 2

theorem nameCuts_ne_nil : l.nameCuts ≠ [] := by
  intro hnil
  have hkinds := l.name_kinds
  rw [hnil] at hkinds
  exact l.opening.call.callee.tokens_ne_nil (List.map_eq_nil_iff.mp hkinds.symm)

/-- Name and inner text, as they are cut together. -/
theorem link_lexes : Lexes .tag (l.name ++ l.inner) l.after l.linkCuts .tag :=
  l.name_lexes.append l.inner_lexes

variable {backCuts : List Cut}

/-- The tokens of the template with the link. -/
theorem lex_chained
    (hback : ∀ offset, lexFrom .tag offset l.after = backCuts.map (·.place offset)) :
    lex (String.ofList l.chained) = l.frontCuts.map (·.place 0)
      ++ (⟨.openInverseChain l.strip, 0, byteLength (elseMark l.strip l.pad)⟩ : Cut).place l.start
      :: (l.linkCuts.map (·.place l.inside) ++ backCuts.map (·.place l.stop)) := by
  have hlink := l.link_lexes.pad l.gap_blank (by simp [linkCuts, l.nameCuts_ne_nil])
  have hgap : l.gap ++ (l.name ++ (l.inner ++ l.after))
      = (l.gap ++ (l.name ++ l.inner)) ++ l.after := by simp
  rw [lex, String.toList_ofList, LinkText.chained, l.front_lexes.lexFrom_eq, l.mark_lexes.lexFrom_eq,
    hgap, hlink.lexFrom_eq, hback]
  simp [Function.comp_def, start, inside, stop, Nat.add_assoc]

/-- The tokens of the tag that closes the new block, and of what follows it. -/
theorem lexFrom_closing {nameCuts : List Cut}
    (hname : Lexes .tag l.name ('}' :: '}' :: l.after) nameCuts .tag)
    (hback : ∀ offset, lexFrom .tag offset l.after = backCuts.map (·.place offset)) (offset : Nat) :
    lexFrom .tag offset l.closing = (⟨.openEndBlock false, 0, 3⟩ : Cut).place offset
      :: (nameCuts.map (·.place (offset + 3))
        ++ (⟨.close false, 0, 2⟩ : Cut).place (offset + 3 + byteLength l.name)
        :: backCuts.map (·.place (offset + 3 + byteLength l.name + 2))) := by
  have hopen := (step_openEndBlock false (l.name ++ '}' :: '}' :: l.after)).lexFrom_eq offset
  have hclose : ∀ offset, lexFrom .tag offset ('}' :: '}' :: l.after)
      = (⟨.close false, 0, 2⟩ : Cut).place offset :: backCuts.map (·.place (offset + 2)) := by
    intro offset
    refine ((step_close l.after.tail).lexFrom_eq offset).trans ?_
    have hempty : lexFrom .content (offset + 2) l.after = lexFrom .tag (offset + 2) l.after :=
      lexFrom_empty _ _
    exact congrArg _ (hempty.trans (hback _))
  rw [hname.lexFrom_eq, hclose] at hopen
  exact hopen

/-- The tokens of the new block, up to the tag that closes it. -/
theorem lexFrom_opening (hvalid : ∀ c ∈ l.linkCuts, c.kind.isInvalid = false) (offset : Nat) :
    lexFrom .content offset ('{' :: '{' :: '#' :: (l.name ++ (l.inner ++ l.closing)))
      = (⟨.openBlock false, 0, 3⟩ : Cut).place offset
        :: (l.linkCuts.map (·.place (offset + 3))
          ++ lexFrom .tag (offset + 3 + byteLength (l.name ++ l.inner)) l.closing) := by
  obtain ⟨c, more, hc, hpartial, hdecorator⟩ := l.link_lexes.head_ne hvalid
    (by simp [linkCuts, l.nameCuts_ne_nil])
  have hopen := step_openBlock (more ++ l.closing) hpartial hdecorator
  rw [← List.cons_append, ← hc] at hopen
  have hinside : Lexes .tag (l.name ++ l.inner) l.closing l.linkCuts .tag :=
    l.link_lexes.local ('/' :: (l.name ++ '}' :: '}' :: l.after)) hvalid
  rw [lexFrom_empty, ← List.append_assoc]
  refine (hopen.lexFrom_eq offset).trans ?_
  rw [hinside.lexFrom_eq]
  rfl

/-- The tokens of the template with the link written as a block of its own. -/
theorem lex_nested {nameCuts : List Cut}
    (hfront : ∀ c ∈ l.frontCuts, c.kind.isInvalid = false)
    (hlink : ∀ c ∈ l.linkCuts, c.kind.isInvalid = false)
    (hname : Lexes .tag l.name ('}' :: '}' :: l.after) nameCuts .tag)
    (hback : ∀ offset, lexFrom .tag offset l.after = backCuts.map (·.place offset)) :
    lex (String.ofList l.nested) = l.frontCuts.map (·.place 0)
      ++ (⟨.inverse ⟨l.strip, false⟩, 0, byteLength (elseMark l.strip l.pad ++ ['}', '}'])⟩
        : Cut).place l.start
      :: (⟨.openBlock false, 0, 3⟩ : Cut).place
        (l.start + byteLength (elseMark l.strip l.pad ++ ['}', '}']))
      :: (l.linkCuts.map (·.place l.nestedInside)
        ++ (⟨.openEndBlock false, 0, 3⟩ : Cut).place l.nestedStop
        :: (nameCuts.map (·.place (l.nestedStop + 3))
          ++ (⟨.close false, 0, 2⟩ : Cut).place (l.nestedStop + 3 + byteLength l.name)
          :: backCuts.map (·.place l.behind))) := by
  -- The texts are put together from the back: the closing tag, the link, the `else`.
  have hstart := l.front_lexes.local
    (tilde l.strip ++ (l.pad ++ ['e', 'l', 's', 'e']) ++ '}' :: '}' :: '{' :: '{' :: '#'
      :: (l.name ++ (l.inner ++ l.closing))) hfront
  have hinverse := step_inverse l.strip ('{' :: '{' :: '#' :: (l.name ++ (l.inner ++ l.closing)))
    l.pad_blank
  have hrest := hinverse.lexFrom_eq l.start
  rw [l.lexFrom_opening hlink, l.lexFrom_closing hname hback, List.append_assoc] at hrest
  rw [lex, String.toList_ofList, LinkText.nested]
  refine (hstart.lexFrom_eq 0).trans ?_
  rw [Nat.zero_add]
  exact congrArg _ hrest

/-! ### The link as a block of its own -/

theorem beginsEnd
    (hback : ∀ offset, lexFrom .tag offset l.after = backCuts.map (·.place offset)) (offset : Nat) :
    BeginsEnd (backCuts.map (·.place offset)) := by
  have hafter : l.after = '{' :: '{' :: (tilde l.endStrip ++ ['/']) ++ l.rest := by
    simp [LinkText.after]
  rw [← hback, hafter, (step_openEndBlock l.endStrip l.rest).lexFrom_eq]
  exact ⟨l.endStrip, rfl⟩

theorem valid {p : Program} (h : parseProgram (lex (String.ofList l.chained)) = .ok p) :
    (∀ c ∈ l.frontCuts, c.kind.isInvalid = false) ∧ ∀ c ∈ l.linkCuts, c.kind.isInvalid = false := by
  obtain ⟨backCuts, -, hback⟩ := lexFrom_cuts .tag l.after
  have hvalid := parseProgram_valid (lex_ends _) h
  rw [l.lex_chained hback, List.forall_mem_append, List.forall_mem_cons,
    List.forall_mem_append] at hvalid
  exact ⟨fun c hc => hvalid.1 _ (List.mem_map_of_mem hc),
    fun c hc => hvalid.2.2.1 _ (List.mem_map_of_mem hc)⟩

/-- Everything in front of the closing tag is read as a link. -/
theorem link_kinds_place :
    kinds (l.linkCuts.map (·.place l.inside))
      = kinds (l.opening.tokens ++ (statementsTokens l.body ++ otherTokens l.inverse)) := by
  rw [kinds_place, linkCuts, cutKinds_append, cutKinds_after, ← cutKinds_append]
  exact l.link_kinds

/-- The template with the link as a block of its own is a program of the same shape. -/
theorem parseProgram_shape (hname : l.NameCloses) {p : Program}
    (h : parseProgram (lex (String.ofList l.chained)) = .ok p) :
    ∃ p', parseProgram (lex (String.ofList l.nested)) = .ok p' ∧
      programShape p' = programShape p := by
  obtain ⟨backCuts, -, hback⟩ := lexFrom_cuts .tag l.after
  obtain ⟨nameCuts, closing, hlexes, hkinds, hadmits, hspelling⟩ := hname
  obtain ⟨hfront, hlink⟩ := l.valid h
  have hnested := l.lex_nested hfront hlink hlexes hback
  have hends := lex_ends (String.ofList l.chained)
  rw [l.lex_chained hback] at h hends
  let tags : NestingTags :=
    ⟨⟨⟨l.strip, false⟩, ⟨0, 0⟩⟩, ⟨false, ⟨0, 0⟩⟩, ⟨false, ⟨0, 0⟩⟩, ⟨false, ⟨0, 0⟩⟩⟩
  have htokens : (lex (String.ofList l.nested)).map (·.move nowhere)
      = tags.tokens nowhere nowhere (l.frontCuts.map (·.place 0))
        (l.linkCuts.map (·.place l.inside))
        ((nameCuts.map (·.place 0)).map (·.move nowhere)) (backCuts.map (·.place l.stop)) := by
    rw [hnested, NestingTags.tokens]
    simp only [List.map_append, List.map_cons, List.map_map, Function.comp_def, Cut.place_nowhere]
    rfl
  have hname : kinds ((nameCuts.map (·.place 0)).map (·.move nowhere))
      = kinds closing.tokens := by
    rw [kinds_move, kinds_place, hkinds]
  have hends' := (lex_ends (String.ofList l.nested)).move (g := nowhere)
  rw [htokens] at hends'
  -- Nothing is asked of places here.
  have hall : ∀ ts, OnEdges (fun _ => True) ts := fun _ _ _ => ⟨trivial, trivial⟩
  have harea : Around nowhere (fun _ _ => True) (fun _ => True) (fun _ => True) (fun _ => True) :=
    ⟨by simp, by simp, by simp⟩
  obtain ⟨p₁, hparse, hmatch⟩ := parseProgram_nested ⟨l.strip, _⟩ hends h l.link_kinds_place hname
    hadmits hspelling (l.beginsEnd hback _) harea (hall _) (hall _) (by simp) (by simp) (hall _)
    trivial tags rfl hends'
  rw [← htokens] at hparse
  obtain ⟨p', hp', hshape⟩ := parseProgram_lift (lex_ends _) hparse
  exact ⟨p', hp', hshape.trans hmatch.shape_eq⟩

end Link

end TemplateCompiler.Mustache
