/-
From tokens to a program.

The grammar of tags is

  program      := statement*
  statement    := CONTENT | COMMENT | mustache | block | partial
  mustache     := OPEN call CLOSE | OPEN_UNESCAPED call CLOSE_UNESCAPED
  block        := OPEN_BLOCK call params? CLOSE program inverse? closing
  inverse      := INVERSE program
                | OPEN_INVERSE_CHAIN call params? CLOSE program inverse?
  closing      := OPEN_ENDBLOCK expr CLOSE
  partial      := OPEN_PARTIAL call CLOSE
  call         := expr expr* (ID EQUALS expr)*

and every reader below follows one of its rules:

* `Cursor` — the tokens still to be read;
* `expr`, `call` — readers for expressions;
* `statements`, `block`, `inverse` — readers for statements;
* `parseProgram` — a whole program.

Design notes: a reader takes the cursor and gives back what it read with the
cursor after it; the first fault ends everything.  Readers that call each other
are bounded by a number that each call lowers.  Two calls read at least one
token, so twice the number of tokens is never used up.
-/
import TemplateCompiler.Mustache.Path
import TemplateCompiler.Mustache.Program
import TemplateCompiler.Number.Layout
import TemplateCompiler.Text.Quoted

namespace TemplateCompiler.Mustache

open Template

/-! ### The cursor -/

/-- The tokens still to be read, and the span of the last token read. -/
structure Cursor where
  previous : Span := Span.dummy
  tokens : List Token
deriving DecidableEq, Repr, Inhabited

namespace Cursor

/-- The next token; `eof` when there is none. -/
def current (c : Cursor) : Token := c.tokens.headD ⟨.eof, .dummy⟩

/-- The kind of the next token. -/
def kind (c : Cursor) : TokenKind := c.current.kind

/-- The kind of the token after the next one. -/
def secondKind (c : Cursor) : TokenKind :=
  match c.tokens with
  | _ :: t :: _ => t.kind
  | _ => .eof

/-- Moves past the next token; the last token, `eof`, stays. -/
def advance (c : Cursor) : Cursor :=
  match c.tokens with
  | [] => c
  | t :: rest => if t.kind = .eof then c else { previous := t.span, tokens := rest }

end Cursor

/-! ### Faults -/

/-- The names of the tokens that can begin an expression. -/
def exprStart : List String :=
  ["OPEN_SEXPR", "ID", "DATA", "STRING", "NUMBER", "BOOLEAN", "UNDEFINED", "NULL"]

/-- The next token is none of those expected. -/
def Cursor.unexpected (c : Cursor) (expected : List String) : Fault :=
  let found := c.kind.name
  let listed := String.intercalate ", " (expected.map fun name => "'" ++ name ++ "'")
  { code := if c.kind = .eof then .E1002 else .E1001
    kind := .parse expected found
    message := s!"Expecting {listed}, got '{found}'"
    span := c.current.span }

/-- A form of tag that templates do not have. -/
def Cursor.unsupported (c : Cursor) (message : String) : Fault :=
  Fault.ofStructure .E1005 message c.current.span

/-- A literal as it is shown in messages. -/
def literalText : Literal → String
  | .string value => Text.quoted value
  | .number value => Number.render .plain value
  | .boolean value => if value then "true" else "false"
  | .null => "null"
  | .undefined => "undefined"

/-- The name of a literal's kind. -/
def literalKind : Literal → String
  | .string _ => "StringLiteral"
  | .number _ => "NumberLiteral"
  | .boolean _ => "BooleanLiteral"
  | .null => "NullLiteral"
  | .undefined => "UndefinedLiteral"

/-- A string as itself, and any other literal as in messages. -/
def literalSpelling : Literal → String
  | .string value => value
  | value => literalText value

/-- A literal is called. -/
def literalCallee (value : Literal) (span : Span) : Fault :=
  let kind := literalKind value
  let shown := literalSpelling value
  let written := match value with
    | .string s => "\"" ++ s ++ "\""
    | _ => shown
  { code := .E1001
    kind := .parse ["path", "sub-expression"] kind
    message := kind ++ " \"" ++ shown ++ "\" cannot be called as a sub-expression, replace ("
      ++ written ++ ") with " ++ written
    span }

/-- Refuses a literal as a callee. -/
def checkCallee : Expr → Except Fault Unit
  | .literal value span => .error (literalCallee value span)
  | _ => .ok ()

/-! ### Expressions -/

/-- Reads with a cursor. -/
abbrev Reader (α : Type) := Cursor → Except Fault (α × Cursor)

/-- Whether an expression begins here; a name before an equals sign is none. -/
def startsExpr (c : Cursor) : Bool :=
  match c.kind with
  | .id _ => c.secondKind != .equals
  | .openSexpr | .data | .string _ | .number _ | .boolean _ | .undefined | .null => true
  | _ => false

/-- The names of a path from its first one on. -/
def segments (separator : Option Char) : List Token → Span →
    Except Fault (List Segment × Cursor)
  | ⟨.id raw, _⟩ :: ⟨.sep mark, sepSpan⟩ :: rest, _ => do
    let (more, c) ← segments (some mark) rest sepSpan
    return (⟨separator, raw⟩ :: more, c)
  | ⟨.id raw, span⟩ :: rest, _ => .ok ([⟨separator, raw⟩], { previous := span, tokens := rest })
  | tokens, previous => .error (Cursor.unexpected { previous, tokens } ["ID"])

/-- A path, after its at sign if it has one. -/
def path (data : Bool) (start : Nat) : Reader Path := fun c => do
  let (list, c) ← segments none c.tokens c.previous
  let path ← Segment.toPath data list ⟨start, c.previous.stop⟩
  return (path, c)

/-- The span of named arguments; where they would stand if there are none. -/
def hashSpan (c : Cursor) : List (Pair Expr) → Span
  | [] => .point c.previous.stop
  | first :: rest => first.span.merge ((rest.getLast?.getD first).span)

mutual

/-- An expression. -/
def expr : Nat → Reader Expr
  | 0, c => .error (c.unexpected exprStart)
  | fuel + 1, c =>
    let span := c.current.span
    match c.kind with
    | .openSexpr => do
      let (inner, c) ← call fuel c.advance
      if c.kind = .closeSexpr then
        checkCallee inner.callee
        return (.sub inner ⟨span.start, c.current.span.stop⟩, c.advance)
      else .error (c.unexpected ("CLOSE_SEXPR" :: exprStart))
    | .data => do
      let (p, c) ← path true span.start c.advance
      return (.path p, c)
    | .id _ => do
      let (p, c) ← path false span.start c
      return (.path p, c)
    | .string value => .ok (.literal (.string value) span, c.advance)
    | .number value => .ok (.literal (.number value) span, c.advance)
    | .boolean value => .ok (.literal (.boolean value) span, c.advance)
    | .undefined => .ok (.literal .undefined span, c.advance)
    | .null => .ok (.literal .null span, c.advance)
    | _ => .error (c.unexpected exprStart)

/-- A callee with its arguments. -/
def call : Nat → Reader (Call Expr)
  | 0, c => .error (c.unexpected exprStart)
  | fuel + 1, c => do
    let (callee, c) ← expr fuel c
    let (params, c) ← params fuel c
    let (pairs, c) ← pairs fuel c
    return ({ callee, params, hash := { pairs, span := hashSpan c pairs } }, c)

/-- The positional arguments. -/
def params : Nat → Reader (List Expr)
  | 0, c => .error (c.unexpected exprStart)
  | fuel + 1, c =>
    if startsExpr c then do
      let (first, c) ← expr fuel c
      let (rest, c) ← params fuel c
      return (first :: rest, c)
    else .ok ([], c)

/-- The named arguments. -/
def pairs : Nat → Reader (List (Pair Expr))
  | 0, c => .error (c.unexpected exprStart)
  | fuel + 1, c =>
    match c.kind, c.secondKind with
    | .id raw, .equals => do
      let start := c.current.span.start
      let (value, c) ← expr fuel c.advance.advance
      let pair : Pair Expr := { key := idName raw, value, span := ⟨start, value.span.stop⟩ }
      let (rest, c) ← pairs fuel c
      return (pair :: rest, c)
    | _, _ => .ok ([], c)

end

/-- The names between the bars of block parameters, and what follows them. -/
def paramNames : List Token → Span → List String × Cursor
  | ⟨.id raw, span⟩ :: rest, _ =>
    let (names, c) := paramNames rest span
    (idName raw :: names, c)
  | tokens, previous => ([], { previous, tokens })

/-- The block parameters, if there are any. -/
def blockParams : Reader (List String) := fun c =>
  match c.kind with
  | .openBlockParams =>
    let c := c.advance
    let (names, c) := paramNames c.tokens c.previous
    if names.isEmpty then .error (c.unexpected ["ID"])
    else if c.kind = .closeBlockParams then .ok (names, c.advance)
    else .error (c.unexpected ["CLOSE_BLOCK_PARAMS", "ID"])
  | _ => .ok ([], c)

/-! ### Statements -/

/-- The end of a tag: its tilde, and where it ends. -/
def closeTag (expected : List String) : Reader (Bool × Nat) := fun c =>
  match c.kind with
  | .close strip => .ok ((strip, c.current.span.stop), c.advance)
  | _ => .error (c.unexpected expected)

/-- The end of a tag with three braces: its tilde, and where it ends. -/
def closeUnescapedTag : Reader (Bool × Nat) := fun c =>
  match c.kind with
  | .closeUnescaped strip => .ok ((strip, c.current.span.stop), c.advance)
  | _ => .error (c.unexpected ("CLOSE_UNESCAPED" :: exprStart))

/-- A tag that writes a value; a literal with arguments is refused. -/
def mustache (fuel : Nat) (openStrip trusting unescaped : Bool) : Reader MustacheTag := fun c => do
  let start := c.current.span.start
  let (inner, c) ← call fuel c.advance
  let ((closeStrip, stop), c) ←
    if unescaped then closeUnescapedTag c else closeTag ("CLOSE" :: exprStart) c
  if !inner.params.isEmpty || !inner.hash.pairs.isEmpty then
    checkCallee inner.callee
  return ({ call := inner, trusting, strip := ⟨openStrip, closeStrip⟩, span := ⟨start, stop⟩ }, c)

/-- A tag that asks for another template. -/
def partialTag (fuel : Nat) (openStrip : Bool) : Reader PartialTag := fun c => do
  let start := c.current.span.start
  let (inner, c) ← call fuel c.advance
  let ((closeStrip, stop), c) ← closeTag ("CLOSE" :: exprStart) c
  return ({ call := inner, strip := ⟨openStrip, closeStrip⟩, span := ⟨start, stop⟩ }, c)

/-- The call, block parameters and end of a tag that opens a block. -/
def blockOpening (fuel : Nat) : Reader (Call Expr × List String × Bool) := fun c => do
  let (inner, c) ← call fuel c
  let (names, c) ← blockParams c
  let ((strip, _), c) ← closeTag ("CLOSE" :: "OPEN_BLOCK_PARAMS" :: exprStart) c
  checkCallee inner.callee
  return ((inner, names, strip), c)

/-- The closing tag of a block: its name, its stripping and where it ends. -/
def blockClosing (fuel : Nat) (expected : List String) : Reader (Expr × Strip × Nat) := fun c =>
  match c.kind with
  | .openEndBlock openStrip => do
    let (name, c) ← expr fuel c.advance
    let ((closeStrip, stop), c) ← closeTag ["CLOSE"] c
    return ((name, ⟨openStrip, closeStrip⟩, stop), c)
  | _ => .error (c.unexpected expected)

/-- The spelling by which a closing tag is matched with its opening tag. -/
def spelling : Expr → String
  | .path p => p.written
  | .literal value _ => literalSpelling value
  | .sub _ _ => ""

/-- The first link of a chain strips at its end as the tag that closes it. -/
def setChainClose (strip : Strip) : Option Program → Option Program
  | some ⟨.block tag program inverse :: rest, names, true, span⟩ =>
    some ⟨.block { tag with closeStrip := strip } program inverse :: rest, names, true, span⟩
  | other => other

/-- The program made of statements read between two cursors. -/
def programBetween (first last : Cursor) (body : List Node) (names : List String) : Program :=
  let start := first.current.span.start
  { body, params := names, span := ⟨start, max last.current.span.start start⟩ }

mutual

/-- The statements up to a token that begins none. -/
def statements : Nat → Reader (List Node)
  | 0, c => .error (c.unexpected ["EOF"])
  | fuel + 1, c =>
    let span := c.current.span
    match c.kind with
    | .content value => do
      let (rest, c) ← statements fuel c.advance
      return (.content (.ofText value span) :: rest, c)
    | .comment value strip => do
      let (rest, c) ← statements fuel c.advance
      return (.comment value strip span :: rest, c)
    | .open strip ampersand => do
      let (tag, c) ← mustache fuel strip ampersand false c
      let (rest, c) ← statements fuel c
      return (.mustache tag :: rest, c)
    | .openUnescaped strip => do
      let (tag, c) ← mustache fuel strip true true c
      let (rest, c) ← statements fuel c
      return (.mustache tag :: rest, c)
    | .openBlock strip => do
      let (node, c) ← block fuel strip c
      let (rest, c) ← statements fuel c
      return (node :: rest, c)
    | .openPartial strip => do
      let (tag, c) ← partialTag fuel strip c
      let (rest, c) ← statements fuel c
      return (.partialCall tag :: rest, c)
    | .openInverse _ =>
      .error (c.unsupported
        "Inverted sections (`\x7b\x7b^foo\x7d\x7d`) are not supported; use `\x7b\x7b#unless foo\x7d\x7d`")
    | .openPartialBlock => .error (c.unsupported "Handlebars partial blocks are not supported")
    | .openDecorator => .error (c.unsupported "Handlebars decorators are not supported")
    | .openDecoratorBlock => .error (c.unsupported "Handlebars decorator blocks are not supported")
    | .openRawBlock => .error (c.unsupported "Handlebars raw blocks are not supported")
    | _ => .ok ([], c)

/-- A block, from its opening to its closing tag. -/
def block : Nat → Bool → Reader Node
  | 0, _, c => .error (c.unexpected ["EOF"])
  | fuel + 1, openStrip, c => do
    let start := c.current.span.start
    let ((inner, names, openClose), first) ← blockOpening fuel c.advance
    let (body, last) ← statements fuel first
    let ((other, inverseStrip), c) ← inverse fuel last
    let expected := if other.isSome then ["OPEN_ENDBLOCK"]
      else ["OPEN_ENDBLOCK", "INVERSE", "OPEN_INVERSE_CHAIN"]
    let ((closeName, closeStrip, stop), c) ← blockClosing fuel expected c
    let openSpelling := spelling inner.callee
    let closeSpelling := spelling closeName
    if openSpelling = closeSpelling then
      let tag : BlockTag :=
        { call := inner, openStrip := ⟨openStrip, openClose⟩, inverseStrip, closeStrip,
          span := ⟨start, stop⟩ }
      return (.block tag (programBetween first last body names) (setChainClose closeStrip other), c)
    else
      .error (Fault.ofStructure .E1004 s!"{openSpelling} doesn't match {closeSpelling}"
        inner.callee.span)

/-- The other branch of a block, if there is one, and the stripping of its
`else`.  A link of a chain is a block in a program of its own. -/
def inverse : Nat → Reader (Option Program × Strip)
  | 0, c => .error (c.unexpected ["EOF"])
  | fuel + 1, c =>
    let start := c.current.span.start
    match c.kind with
    | .inverse strip => do
      let first := c.advance
      let (body, last) ← statements fuel first
      return ((some (programBetween first last body []), strip), last)
    | .openInverseChain openStrip => do
      let ((inner, names, closeStrip), first) ← blockOpening fuel c.advance
      let (body, last) ← statements fuel first
      let ((other, inverseStrip), c) ← inverse fuel last
      let chainClose := if other.isSome then inverseStrip else {}
      let strip : Strip := ⟨openStrip, closeStrip⟩
      let span : Span := ⟨start, c.current.span.start⟩
      let tag : BlockTag :=
        { call := inner, openStrip := strip, inverseStrip := chainClose, closeStrip := chainClose,
          span }
      let link := Node.block tag (programBetween first last body names)
        (setChainClose chainClose other)
      return ((some { body := [link], chained := true, span }, strip), c)
    | _ => .ok ((none, {}), c)

end

/-- The program that tokens spell. -/
def parseProgram (tokens : List Token) : Except Fault Program := do
  let (body, c) ← statements (2 * tokens.length + 2) { tokens }
  if c.kind = .eof then return { body, span := ⟨0, c.current.span.stop⟩ }
  else .error (c.unexpected ["EOF"])

end TemplateCompiler.Mustache
