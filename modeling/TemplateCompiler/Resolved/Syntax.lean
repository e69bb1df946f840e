/-
The resolved tree.

Every name has become a slot or an upvar, every element has been told apart
from the invocation of a component, and every keyword has a node of its own.
A program is written from this tree and the symbols it refers to.

* `Resolved.Expr` — values;
* `Resolved.Content` — what is written in order.
-/
import TemplateCompiler.Scope.Keyword
import TemplateCompiler.Scope.Resolution
import TemplateCompiler.Template.Syntax

namespace TemplateCompiler.Resolved

open Template (Literal)

/-! ### Values -/

/-- What a name refers to. -/
inductive Reference where
  | this
  /-- A block parameter, by its slot. -/
  | blockParam (slot : Nat)
  /-- An argument of the component, by its slot. -/
  | argument (slot : Nat)
  /-- A free name, by its upvar. -/
  | free (upvar : Nat) (resolution : Resolution)
deriving DecidableEq, Repr, Inhabited

/-- A name and what it refers to. -/
structure Variable where
  /-- The name as it is written, at sign included. -/
  name : String
  reference : Reference
  span : Span
deriving DecidableEq, Repr, Inhabited

/-- A value with a name. -/
structure Named (ε : Type) where
  name : String
  value : ε
  span : Span
deriving Inhabited

/-- The arguments of a call. -/
structure Args (ε : Type) where
  positional : List ε
  named : List (Named ε)
  span : Span
deriving Inhabited

/-- A value. -/
inductive Expr where
  | literal (value : Literal) (span : Span)
  /-- A variable and the properties taken of it. -/
  | path (head : Variable) (tail : List String) (span : Span)
  | call (callee : Expr) (args : Args Expr) (span : Span)
  /-- The parts of an attribute value in quotes. -/
  | interpolate (parts : List Expr) (span : Span)
  | hasBlock (slot : Nat) (span : Span)
  | hasBlockParams (slot : Nat) (span : Span)
  | curry (definition : Expr) (kind : CurriedKind) (args : Args Expr) (span : Span)
  | not (value : Expr)
  | ifInline (condition truthy : Expr) (falsy : Option Expr) (span : Span)
  | getDynamicVar (name : Expr)
  | log (args : Args Expr)
deriving Inhabited

/-- The bytes that a value stands for. -/
def Expr.span : Expr → Span
  | literal _ span | path _ _ span | call _ _ span | interpolate _ span => span
  | hasBlock _ span | hasBlockParams _ span | curry _ _ _ span | ifInline _ _ _ span => span
  | log args => args.span
  | not value => value.span
  | getDynamicVar name => name.span

/-! ### Elements -/

/-- An attribute of an element. -/
inductive Attr where
  | attr (name : String) (value : Expr) (trusting : Bool) (span : Span)
  /-- The attributes that the caller gave, by the slot of `&attrs`. -/
  | splat (slot : Nat) (span : Span)
deriving Inhabited

/-- Whether an attribute stands for those of the caller. -/
def Attr.isSplat : Attr → Bool
  | attr _ _ _ _ => false
  | splat _ _ => true

/-- A call that modifies an element. -/
structure Modifier where
  callee : Expr
  args : Args Expr
  span : Span
deriving Inhabited

/-- The attributes and modifiers of an element. -/
structure ElementParams where
  attrs : List Attr
  modifiers : List Modifier
deriving Inhabited

namespace ElementParams

/-- Whether the attributes of the caller are among the attributes. -/
def hasSplat (p : ElementParams) : Bool := p.attrs.any Attr.isSplat

/-- Whether there is neither attribute nor modifier. -/
def isEmpty (p : ElementParams) : Bool := p.attrs.isEmpty && p.modifiers.isEmpty

end ElementParams

/-! ### Content -/

/-- The body of a block and the slots of its parameters. -/
structure Block (γ : Type) where
  params : List Nat
  body : List γ
  span : Span
deriving Inhabited

/-- A block given to a component under a name. -/
structure NamedBlock (γ : Type) where
  name : String
  block : Block γ
  span : Span
deriving Inhabited

/-- What is written in order. -/
inductive Content where
  | text (chars : String) (span : Span)
  | comment (text : String) (span : Span)
  /-- A comment in braces, of which nothing is written. -/
  | hiddenComment (text : String) (span : Span)
  | append (value : Expr) (trusting : Bool) (span : Span)
  | invokeBlock (callee : Expr) (args : Args Expr) (blocks : List (NamedBlock Content))
      (span : Span)
  /-- A component that is given as a value. -/
  | invokeDynamic (callee : Expr) (args : Args Expr) (blocks : List (NamedBlock Content))
      (span : Span)
  /-- A component that is invoked by a tag; the names of its arguments keep
  their at sign. -/
  | invokeComponent (callee : Expr) (params : ElementParams) (args : List (Named Expr))
      (blocks : List (NamedBlock Content)) (span : Span)
  | element (tag : String) (params : ElementParams) (body : List Content) (span : Span)
  | branch (condition : Expr) (block : Block Content) (inverse : Option (Block Content))
      (span : Span)
  | each (value : Expr) (key : Option Expr) (block : Block Content)
      (inverse : Option (Block Content)) (span : Span)
  | withValue (value : Expr) (block : Block Content) (inverse : Option (Block Content))
      (span : Span)
  | letValues (positional : List Expr) (block : Block Content) (span : Span)
  | inElement (guid : String) (destination : Expr) (insertBefore : Option Expr)
      (block : Block Content) (span : Span)
  | withDynamicVars (named : List (Named Expr)) (block : Block Content) (span : Span)
  | yield (target : Nat) (positional : List Expr) (span : Span)
  | debugger (eval : List Nat) (span : Span)
  | partialCall (target : Expr) (eval : List Nat) (span : Span)
deriving Inhabited

/-- The bytes that a piece of content stands for. -/
def Content.span : Content → Span
  | text _ span | comment _ span | hiddenComment _ span | append _ _ span => span
  | invokeBlock _ _ _ span | invokeDynamic _ _ _ span | invokeComponent _ _ _ _ span => span
  | element _ _ _ span | branch _ _ _ span | each _ _ _ _ span | withValue _ _ _ span => span
  | letValues _ _ span | inElement _ _ _ _ span | withDynamicVars _ _ span => span
  | yield _ _ span | debugger _ span | partialCall _ _ span => span

/-- A resolved template. -/
structure Body where
  body : List Content
  span : Span
deriving Inhabited

end TemplateCompiler.Resolved
