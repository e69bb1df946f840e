/-
The tree of a template.

A parsed template is markup with tags in double braces among it: elements,
texts and comments, and mustaches, blocks and partials.  Nothing is resolved
yet; names are kept as they are written.

* `Template.Expr` — paths, literals and calls in parentheses;
* `Template.Call` — a callee with its arguments, which every tag has;
* `Template.Statement` — what stands between tags;
* `Template` — the whole.

Design notes: what does not hold statements is a structure of its own, so that
only `Expr` and `Statement` are recursive.  `Call`, `Hash` and `Block` take the
type they hold as a parameter, because the text-level program before markup is
read has the same shapes (see `Mustache.Program`).
-/
import TemplateCompiler.Mustache.Token

namespace TemplateCompiler.Template

/-! ### Expressions -/

/-- What a path starts from. -/
inductive Head where
  | this
  /-- An argument of the component, without its at sign. -/
  | at (name : String)
  /-- A bare name. -/
  | var (name : String)
deriving DecidableEq, Repr, Inhabited

/-- A path: a head and the properties taken of it. -/
structure Path where
  head : Head
  tail : List String
  /-- The path as it is written. -/
  written : String
  span : Span
deriving DecidableEq, Repr, Inhabited

namespace Path

/-- The name of a path that is a bare name and nothing else. -/
def simpleName? (p : Path) : Option String :=
  match p.head, p.tail with
  | .var name, [] => some name
  | _, _ => none

/-- The name at the head. -/
def headName (p : Path) : String :=
  match p.head with
  | .this => "this"
  | .at name | .var name => name

end Path

/-- A literal value. -/
inductive Literal where
  | string (value : String)
  | number (value : Binary64)
  | boolean (value : Bool)
  | null
  | undefined
deriving DecidableEq, Repr, Inhabited

/-- A named argument. -/
structure Pair (ε : Type) where
  key : String
  value : ε
  span : Span
deriving Inhabited

/-- The named arguments of a call. -/
structure Hash (ε : Type) where
  pairs : List (Pair ε)
  span : Span
deriving Inhabited

/-- A callee and its arguments. -/
structure Call (ε : Type) where
  callee : ε
  params : List ε
  hash : Hash ε
deriving Inhabited

/-- An expression. -/
inductive Expr where
  | path (path : Path)
  /-- A call in parentheses. -/
  | sub (call : Call Expr) (span : Span)
  | literal (value : Literal) (span : Span)
deriving Inhabited

namespace Expr

/-- The bytes that an expression stands for. -/
def span : Expr → Span
  | path p => p.span
  | sub _ span | literal _ span => span

/-- Whether the expression is a literal. -/
def isLiteral : Expr → Bool
  | literal _ _ => true
  | _ => false

end Expr

/-- The first argument with a given name. -/
def Hash.get? {ε : Type} (hash : Hash ε) (key : String) : Option (Pair ε) :=
  hash.pairs.find? fun pair => pair.key == key

/-! ### Tags -/

/-- A tag that writes the value of a call. -/
structure MustacheTag where
  call : Call Expr
  /-- The value is written without escaping. -/
  trusting : Bool
  strip : Strip
  span : Span
deriving Inhabited

/-- A tag that asks for another template. -/
structure PartialTag where
  /-- The callee is the name of the template. -/
  call : Call Expr
  strip : Strip
  span : Span
deriving Inhabited

/-- The tags of a block: its call, and the stripping of its opening, `else` and
closing tags. -/
structure BlockTag where
  call : Call Expr
  openStrip : Strip
  inverseStrip : Strip
  closeStrip : Strip
  span : Span
deriving Inhabited

/-- A comment. -/
structure Comment where
  value : String
  span : Span
deriving DecidableEq, Repr, Inhabited

/-- A run of text. -/
structure TextNode where
  chars : String
  span : Span
deriving DecidableEq, Repr, Inhabited

/-! ### Elements -/

/-- A part of an attribute value in quotes. -/
inductive ConcatPart where
  | text (node : TextNode)
  | mustache (tag : MustacheTag)
deriving Inhabited

/-- The value of an attribute. -/
inductive AttrValue where
  | text (node : TextNode)
  | mustache (tag : MustacheTag)
  | concat (parts : List ConcatPart) (span : Span)
deriving Inhabited

/-- The bytes that an attribute value stands for. -/
def AttrValue.span : AttrValue → Span
  | text node => node.span
  | mustache tag => tag.span
  | concat _ span => span

/-- An attribute. -/
structure Attr where
  name : String
  value : AttrValue
  span : Span
deriving Inhabited

/-- A call that modifies an element. -/
structure Modifier where
  call : Call Expr
  span : Span
deriving Inhabited

/-- The start tag of an element. -/
structure StartTag where
  name : String
  selfClosing : Bool := false
  attributes : List Attr := []
  blockParams : List String := []
  modifiers : List Modifier := []
  /-- Comments in braces that stand in the tag. -/
  comments : List Comment := []
deriving Inhabited

/-! ### Statements -/

/-- The body of a block, or of the other branch of one. -/
structure Block (σ : Type) where
  body : List σ
  /-- The names that the block declares. -/
  params : List String := []
  /-- Whether the block only wraps the next link of a chain of `else`s. -/
  chained : Bool := false
  span : Span
deriving Inhabited

/-- A statement of a template. -/
inductive Statement where
  | mustache (tag : MustacheTag)
  | block (tag : BlockTag) (program : Block Statement) (inverse : Option (Block Statement))
  | partialCall (tag : PartialTag)
  /-- A comment of the markup. -/
  | comment (comment : Comment)
  /-- A comment in braces. -/
  | mustacheComment (comment : Comment)
  | text (node : TextNode)
  | element (tag : StartTag) (children : List Statement) (span : Span)
deriving Inhabited

namespace Statement

/-- The bytes that a statement stands for. -/
def span : Statement → Span
  | mustache tag => tag.span
  | block tag _ _ => tag.span
  | partialCall tag => tag.span
  | comment c | mustacheComment c => c.span
  | text node => node.span
  | element _ _ span => span

/-- The name of a statement's kind in messages. -/
def kindName : Statement → String
  | mustache _ => "MustacheStatement"
  | block _ _ _ => "BlockStatement"
  | partialCall _ => "PartialStatement"
  | comment _ => "CommentStatement"
  | mustacheComment _ => "MustacheCommentStatement"
  | text _ => "TextNode"
  | element _ _ _ => "ElementNode"

end Statement

end TemplateCompiler.Template

namespace TemplateCompiler

/-- A template. -/
structure Template where
  body : List Template.Statement
  span : Span
deriving Inhabited

end TemplateCompiler
