/-
Walking a template with a visitor.

A visitor has one hook for each kind of node.  The hook of a node runs before
those of the nodes inside it.  It may change the node, and it says what comes
in the node's place: the node itself, or other nodes.  Nodes that a hook puts
in are not visited themselves, but the nodes inside them are.

* `Template.Visitor` — the hooks, with a state of the visitor's own;
* `Template.Transform` — the answer of a hook;
* `Template.traverse` — runs a visitor over a template;
* `Template.depth` — how deeply a template nests.

A place in a list takes any number of nodes.  A place for one node — the callee
of a call, the value of a named argument, the value of an attribute — takes
exactly one, of a kind that fits.

Hooks can put in nodes without end, so the walk is given a bound on how deeply
it nests (`VisitError.tooDeep`).  `Template.depth` is enough for a visitor that
puts in nothing.  Comments inside a start tag are not visited.
-/
import TemplateCompiler.Template.Syntax

namespace TemplateCompiler.Template

/-! ### Nodes -/

/-- A block. -/
structure BlockNode where
  tag : BlockTag
  program : Block Statement
  inverse : Option (Block Statement)
deriving Inhabited

/-- An element. -/
structure ElementNode where
  tag : StartTag
  children : List Statement
  span : Span
deriving Inhabited

/-- A call in parentheses. -/
structure SubNode where
  call : Call Expr
  span : Span
deriving Inhabited

/-- A literal. -/
structure LiteralNode where
  value : Literal
  span : Span
deriving Inhabited

/-- The name of an expression's kind in messages. -/
def Expr.kindName : Expr → String
  | path _ => "PathExpression"
  | sub _ _ => "SubExpression"
  | literal _ _ => "Literal"

/-! ### Visitors -/

/-- What comes in the place of a node. -/
inductive Transform (α : Type) where
  /-- The node itself. -/
  | keep
  | replace (nodes : List α)
deriving Inhabited

/-- A hook for nodes of type `ν` in whose place nodes of type `α` can come.  It
answers with the changed node, or fails with a message. -/
abbrev Hook (σ ν α : Type) : Type := ν → EStateM String σ (ν × Transform α)

/-- The hook that does nothing. -/
def Hook.idle {σ ν α : Type} : Hook σ ν α := fun node => pure (node, .keep)

/-- One hook for each kind of node. -/
structure Visitor (σ : Type) where
  mustache : Hook σ MustacheTag Statement := Hook.idle
  block : Hook σ BlockNode Statement := Hook.idle
  partialCall : Hook σ PartialTag Statement := Hook.idle
  comment : Hook σ Comment Statement := Hook.idle
  mustacheComment : Hook σ Comment Statement := Hook.idle
  text : Hook σ TextNode Statement := Hook.idle
  element : Hook σ ElementNode Statement := Hook.idle
  attr : Hook σ Attr Attr := Hook.idle
  modifier : Hook σ Modifier Modifier := Hook.idle
  path : Hook σ Path Expr := Hook.idle
  sub : Hook σ SubNode Expr := Hook.idle
  literal : Hook σ LiteralNode Expr := Hook.idle
  pair : Hook σ (Pair Expr) (Pair Expr) := Hook.idle

/-- Why a walk failed. -/
inductive VisitError where
  /-- A hook failed. -/
  | hook (message : String)
  /-- No node is left where one is needed. -/
  | removed (kind : String) (span : Span)
  /-- Several nodes stand where only one can. -/
  | multiple (kind : String) (span : Span)
  /-- A node is of a kind that cannot stand there. -/
  | wrongKind (expected found : String) (span : Span)
  /-- The nodes nest more deeply than the walk may go. -/
  | tooDeep
deriving DecidableEq, Repr, Inhabited

namespace VisitError

/-- The message for an error. -/
def message : VisitError → String
  | hook message => message
  | removed kind _ =>
    s!"Cannot remove a node unless it is part of an array (while visiting {kind})"
  | multiple kind _ =>
    s!"Cannot replace a single node with multiple nodes unless it is part of an array (while visiting {kind})"
  | wrongKind expected found _ => s!"Cannot replace a {expected} with a {found} here"
  | tooDeep => "The nodes nest too deeply"

/-- Where the error is. -/
def span : VisitError → Span
  | removed _ span | multiple _ span | wrongKind _ _ span => span
  | hook _ | tooDeep => .dummy

end VisitError

/-- A step of a walk. -/
abbrev Visit (σ : Type) : Type → Type := EStateM VisitError σ

/-- Runs a hook as a step of a walk. -/
def runHook {σ α : Type} (hook : EStateM String σ α) : Visit σ α := fun s =>
  match hook s with
  | .ok a s => .ok a s
  | .error message s => .error (.hook message) s

/-- Takes a step for each item and puts the lists together. -/
def collect {σ α β : Type} (step : α → Visit σ (List β)) : List α → Visit σ (List β)
  | [] => pure []
  | a :: rest => do
    let here ← step a
    let there ← collect step rest
    return here ++ there

namespace Transform

/-- What stands in a list in the place of a node. -/
def nodes {α : Type} (node : α) : Transform α → List α
  | keep => [node]
  | replace nodes => nodes

/-- What stands in a place for one node, in the place of the given one. -/
def only {σ α : Type} (node : α) (kind : String) (span : Span) : Transform α → Visit σ α
  | keep => pure node
  | replace [] => throw (.removed kind span)
  | replace [other] => pure other
  | replace (_ :: _ :: _) => throw (.multiple kind span)

end Transform

/-! ### Expressions -/

section Expressions

variable {σ : Type} (v : Visitor σ)

/-- Runs the hook of an expression. -/
def visitExpr : Expr → Visit σ (Expr × Transform Expr)
  | .path p => do
    let (p, t) ← runHook (v.path p)
    return (.path p, t)
  | .sub call span => do
    let (node, t) ← runHook (v.sub ⟨call, span⟩)
    return (.sub node.call node.span, t)
  | .literal value span => do
    let (node, t) ← runHook (v.literal ⟨value, span⟩)
    return (.literal node.value node.span, t)

/-- Goes into an expression, given how to go into calls. -/
def enterExpr (enterCall : Call Expr → Visit σ (Call Expr)) : Expr → Visit σ Expr
  | .sub call span => return .sub (← enterCall call) span
  | e => pure e

/-- Visits the expression in a place for one, and goes into it. -/
def walkSlot (enterCall : Call Expr → Visit σ (Call Expr)) (e : Expr) : Visit σ Expr := do
  let (e, t) ← visitExpr v e
  let e ← t.only e e.kindName e.span
  enterExpr enterCall e

/-- Visits an expression in a list, and goes into what stands there then. -/
def walkItem (enterCall : Call Expr → Visit σ (Call Expr)) (e : Expr) : Visit σ (List Expr) := do
  let (e, t) ← visitExpr v e
  (t.nodes e).mapM (enterExpr enterCall)

/-- Visits a named argument, and goes into what stands there then. -/
def walkPair (enterCall : Call Expr → Visit σ (Call Expr)) (pair : Pair Expr) :
    Visit σ (List (Pair Expr)) := do
  let (pair, t) ← runHook (v.pair pair)
  (t.nodes pair).mapM fun pair => return { pair with value := ← walkSlot v enterCall pair.value }

/-- Walks a call: its callee, its positional and its named arguments. -/
def walkCall : Nat → Call Expr → Visit σ (Call Expr)
  | 0, _ => throw .tooDeep
  | depth + 1, call => do
    let callee ← walkSlot v (walkCall depth) call.callee
    let params ← collect (walkItem v (walkCall depth)) call.params
    let pairs ← collect (walkPair v (walkCall depth)) call.hash.pairs
    return { callee, params, hash := { call.hash with pairs } }

end Expressions

/-! ### Statements -/

section Statements

variable {σ : Type} (v : Visitor σ)

/-- Runs the hook of a statement. -/
def visitStatement : Statement → Visit σ (Statement × Transform Statement)
  | .mustache tag => do
    let (tag, t) ← runHook (v.mustache tag)
    return (.mustache tag, t)
  | .block tag program inverse => do
    let (node, t) ← runHook (v.block ⟨tag, program, inverse⟩)
    return (.block node.tag node.program node.inverse, t)
  | .partialCall tag => do
    let (tag, t) ← runHook (v.partialCall tag)
    return (.partialCall tag, t)
  | .comment c => do
    let (c, t) ← runHook (v.comment c)
    return (.comment c, t)
  | .mustacheComment c => do
    let (c, t) ← runHook (v.mustacheComment c)
    return (.mustacheComment c, t)
  | .text node => do
    let (node, t) ← runHook (v.text node)
    return (.text node, t)
  | .element tag children span => do
    let (node, t) ← runHook (v.element ⟨tag, children, span⟩)
    return (.element node.tag node.children node.span, t)

/-- A statement as the value of an attribute. -/
def attrValueOf : Statement → Visit σ AttrValue
  | .text node => pure (.text node)
  | .mustache tag => pure (.mustache tag)
  | s => throw (.wrongKind "attribute value" s.kindName s.span)

/-- A statement as a part of an attribute value in quotes. -/
def concatPartOf : Statement → Visit σ ConcatPart
  | .text node => pure (.text node)
  | .mustache tag => pure (.mustache tag)
  | s => throw (.wrongKind "concat part" s.kindName s.span)

/-- A part of an attribute value as a statement. -/
def ConcatPart.statement : ConcatPart → Statement
  | text node => .text node
  | mustache tag => .mustache tag

/-- Goes into the tag of a mustache. -/
def enterMustache (enterCall : Call Expr → Visit σ (Call Expr)) (tag : MustacheTag) :
    Visit σ MustacheTag :=
  return { tag with call := ← enterCall tag.call }

/-- Goes into a part of an attribute value. -/
def enterPart (enterCall : Call Expr → Visit σ (Call Expr)) : ConcatPart → Visit σ ConcatPart
  | .text node => pure (.text node)
  | .mustache tag => return .mustache (← enterMustache enterCall tag)

/-- Goes into the value of an attribute. -/
def enterAttrValue (enterCall : Call Expr → Visit σ (Call Expr)) : AttrValue → Visit σ AttrValue
  | .text node => pure (.text node)
  | .mustache tag => return .mustache (← enterMustache enterCall tag)
  | .concat parts span => return .concat (← parts.mapM (enterPart enterCall)) span

/-- Visits a part of an attribute value. -/
def visitPart (part : ConcatPart) : Visit σ (List ConcatPart) := do
  let (s, t) ← visitStatement v part.statement
  (t.nodes s).mapM concatPartOf

/-- Visits the value of an attribute.  Of a value in quotes, the parts are
visited. -/
def visitAttrValue : AttrValue → Visit σ AttrValue
  | .text node => do
    let (s, t) ← visitStatement v (.text node)
    attrValueOf (← t.only s s.kindName s.span)
  | .mustache tag => do
    let (s, t) ← visitStatement v (.mustache tag)
    attrValueOf (← t.only s s.kindName s.span)
  | .concat parts span => return .concat (← collect (visitPart v) parts) span

/-- Walks an attribute. -/
def walkAttr (enterCall : Call Expr → Visit σ (Call Expr)) (attr : Attr) : Visit σ (List Attr) := do
  let (attr, t) ← runHook (v.attr attr)
  (t.nodes attr).mapM fun attr => do
    let value ← visitAttrValue v attr.value
    return { attr with value := ← enterAttrValue enterCall value }

/-- Walks a modifier. -/
def walkModifier (enterCall : Call Expr → Visit σ (Call Expr)) (m : Modifier) :
    Visit σ (List Modifier) := do
  let (m, t) ← runHook (v.modifier m)
  (t.nodes m).mapM fun m => return { m with call := ← enterCall m.call }

/-- Goes into a statement, given how to go into calls and into bodies. -/
def enterStatement (enterCall : Call Expr → Visit σ (Call Expr))
    (enterBody : List Statement → Visit σ (List Statement)) : Statement → Visit σ Statement
  | .mustache tag => return .mustache (← enterMustache enterCall tag)
  | .block tag program inverse => do
    let call ← enterCall tag.call
    let body ← enterBody program.body
    let inverse ← match inverse with
      | none => pure none
      | some inverse => pure (some { inverse with body := ← enterBody inverse.body })
    return .block { tag with call } { program with body } inverse
  | .partialCall tag => return .partialCall { tag with call := ← enterCall tag.call }
  | .element tag children span => do
    let attributes ← collect (walkAttr v enterCall) tag.attributes
    let modifiers ← collect (walkModifier v enterCall) tag.modifiers
    let children ← enterBody children
    return .element { tag with attributes, modifiers } children span
  | s => pure s

/-- Walks the statements of a body.  Calls may nest as deeply as `calls` says. -/
def walkStatements (calls : Nat) : Nat → List Statement → Visit σ (List Statement)
  | 0, _ => throw .tooDeep
  | depth + 1, body => collect (fun s => do
      let (s, t) ← visitStatement v s
      (t.nodes s).mapM (enterStatement v (walkCall v calls) (walkStatements calls depth))) body

end Statements

/-! ### Depth -/

mutual

/-- How deeply the calls in an expression nest. -/
def Expr.depth : Expr → Nat
  | .sub call _ => callDepth call
  | .path _ | .literal _ _ => 0

/-- How deeply the calls in a call nest, itself included. -/
def callDepth : Call Expr → Nat
  | ⟨callee, params, hash⟩ => 1 + max callee.depth (max (exprsDepth params) (pairsDepth hash.pairs))

/-- How deeply the calls in a list nest. -/
def exprsDepth : List Expr → Nat
  | [] => 0
  | e :: rest => max e.depth (exprsDepth rest)

/-- How deeply the calls in named arguments nest. -/
def pairsDepth : List (Pair Expr) → Nat
  | [] => 0
  | pair :: rest => max pair.value.depth (pairsDepth rest)

end

/-- The largest of some measures. -/
def largest {α : Type} (measure : α → Nat) (items : List α) : Nat :=
  items.foldr (fun item rest => max (measure item) rest) 0

/-- How deeply the calls in a part of an attribute value nest. -/
def ConcatPart.depth : ConcatPart → Nat
  | text _ => 0
  | mustache tag => callDepth tag.call

/-- How deeply the calls in an attribute value nest. -/
def AttrValue.depth : AttrValue → Nat
  | text _ => 0
  | mustache tag => callDepth tag.call
  | concat parts _ => largest ConcatPart.depth parts

/-- How deeply the calls in a start tag nest. -/
def StartTag.depth (tag : StartTag) : Nat :=
  max (largest (fun attr => attr.value.depth) tag.attributes)
    (largest (fun m => callDepth m.call) tag.modifiers)

mutual

/-- How deeply a statement nests. -/
def Statement.depth : Statement → Nat
  | .mustache tag => callDepth tag.call
  | .partialCall tag => callDepth tag.call
  | .block tag program inverse =>
    max (callDepth tag.call) (max (blockDepth program) (inverseDepth inverse))
  | .element tag children _ => max tag.depth (bodyDepth children)
  | .comment _ | .mustacheComment _ | .text _ => 0

/-- How deeply a body nests, itself included. -/
def bodyDepth : List Statement → Nat
  | [] => 1
  | s :: rest => max (1 + s.depth) (bodyDepth rest)

/-- How deeply a block nests. -/
def blockDepth : Block Statement → Nat
  | ⟨body, _, _, _⟩ => bodyDepth body

/-- How deeply the other branch of a block nests. -/
def inverseDepth : Option (Block Statement) → Nat
  | none => 0
  | some block => blockDepth block

end

/-- How deeply a template nests. -/
def depth (t : Template) : Nat := bodyDepth t.body

/-- Runs a visitor over a template, nesting at most as deeply as `depth`. -/
def traverse {σ : Type} (v : Visitor σ) (depth : Nat) (t : Template) : Visit σ Template :=
  return { t with body := ← walkStatements v depth depth t.body }

end TemplateCompiler.Template
