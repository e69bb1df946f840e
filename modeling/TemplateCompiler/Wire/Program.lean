/-
Programs.

A program is what a template is compiled to: statements, the names in its
slots, and its free names.  It is written as one JSON array, in which every
statement and computed value is an array that starts with its opcode.

* `Wire.Expr`, `Wire.Statement` — values and statements;
* `Wire.Program` — a whole program;
* `Wire.Program.toJson` — its JSON form.

An empty list of arguments is written as `null`, and named things are written as
two arrays, the names and the values.  In a program the two are one list, so
they cannot differ in length.
-/
import TemplateCompiler.Json.Text
import TemplateCompiler.Scope.Keyword
import TemplateCompiler.Template.Syntax
import TemplateCompiler.Wire.Opcode

namespace TemplateCompiler.Wire

open Template (Literal)

/-! ### Values -/

/-- A thing with a name. -/
structure Entry (ε : Type) where
  name : String
  value : ε
deriving Inhabited

/-- A value of a program. -/
inductive Expr where
  | literal (value : Literal)
  /-- Reads a slot and takes properties. -/
  | getSymbol (slot : Nat) (tail : List String)
  /-- Reads a free name, as the opcode says, and takes properties. -/
  | getFree (opcode : Opcode) (upvar : Nat) (tail : List String)
  | call (callee : Expr) (params : List Expr) (hash : List (Entry Expr))
  | concat (parts : List Expr)
  | hasBlock (slot : Nat)
  | hasBlockParams (slot : Nat)
  | curry (definition : Expr) (kind : CurriedKind) (params : List Expr) (hash : List (Entry Expr))
  | not (value : Expr)
  | ifInline (condition truthy : Expr) (falsy : Option Expr)
  | getDynamicVar (name : Expr)
  | log (params : List Expr)
deriving Inhabited

/-! ### Statements -/

/-- Statements and the slots of the parameters they see. -/
structure Block (σ : Type) where
  statements : List σ
  params : List Nat
deriving Inhabited

/-- A statement of a program. -/
inductive Statement where
  | append (value : Expr) (trusting : Bool)
  | comment (text : String)
  | modifier (callee : Expr) (params : List Expr) (hash : List (Entry Expr))
  | block (callee : Expr) (params : List Expr) (hash : List (Entry Expr))
      (blocks : List (Entry (Block Statement)))
  /-- The tag of a component, with its attributes and modifiers. -/
  | component (tag : Expr) (params : List Statement) (hash : List (Entry Expr))
      (blocks : List (Entry (Block Statement)))
  /-- The start of an element; `splat` says that the attributes of the caller
  come among its own. -/
  | openElement (tag : String) (splat : Bool)
  | flushElement
  | closeElement
  | staticAttr (name value : String) (space : Option String) (onComponent : Bool)
  | dynamicAttr (name : String) (value : Expr) (space : Option String) (trusting onComponent : Bool)
  | attrSplat (slot : Nat)
  | yield (target : Nat) (params : List Expr)
  | partialCall (target : Expr) (eval : List Nat)
  | debugger (eval : List Nat)
  | inElement (block : Block Statement) (guid : String) (destination : Expr)
      (insertBefore : Option Expr)
  | branch (condition : Expr) (block : Block Statement) (inverse : Option (Block Statement))
  | each (value : Expr) (key : Option Expr) (block : Block Statement)
      (inverse : Option (Block Statement))
  | withValue (value : Expr) (block : Block Statement) (inverse : Option (Block Statement))
  | letValues (positional : List Expr) (block : Block Statement)
  | withDynamicVars (hash : List (Entry Expr)) (block : Block Statement)
  | invokeComponent (definition : Expr) (params : List Expr) (hash : List (Entry Expr))
      (blocks : List (Entry (Block Statement)))
deriving Inhabited

/-- The opcode of a statement. -/
def Statement.opcode : Statement → Opcode
  | append _ trusting => if trusting then .trustingAppend else .append
  | comment _ => .comment
  | modifier _ _ _ => .modifier
  | block _ _ _ _ => .block
  | component _ _ _ _ => .component
  | openElement _ splat => if splat then .openElementWithSplat else .openElement
  | flushElement => .flushElement
  | closeElement => .closeElement
  | staticAttr _ _ _ onComponent => if onComponent then .staticComponentAttr else .staticAttr
  | dynamicAttr _ _ _ trusting onComponent =>
    match onComponent, trusting with
    | false, false => .dynamicAttr
    | false, true => .trustingDynamicAttr
    | true, false => .componentAttr
    | true, true => .trustingComponentAttr
  | attrSplat _ => .attrSplat
  | yield _ _ => .yield
  | partialCall _ _ => .partialCall
  | debugger _ => .debugger
  | inElement _ _ _ _ => .inElement
  | branch _ _ _ => .branch
  | each _ _ _ _ => .each
  | withValue _ _ _ => .withValue
  | letValues _ _ => .letValues
  | withDynamicVars _ _ => .withDynamicVars
  | invokeComponent _ _ _ _ => .invokeComponent

/-- A compiled template. -/
structure Program where
  statements : List Statement
  /-- The name in each slot from 1 on. -/
  symbols : List String
  /-- Whether some statement may read any visible slot by name. -/
  hasEval : Bool
  /-- The free names. -/
  upvars : List String
deriving Inhabited

/-! ### JSON -/

/-- An array that starts with an opcode. -/
def tagged (opcode : Opcode) (items : List Json) : Json := .arr (.nat opcode.code :: items)

/-- An array, or `null` if it would be empty. -/
def arrayOrNull : List Json → Json
  | [] => .null
  | items => .arr items

/-- The properties taken of a value, if there are any. -/
def tailJson (tail : List String) : List Json := if tail.isEmpty then [] else [.strings tail]

/-- The names and the values of entries, as two arrays. -/
def pairJson (names : List String) (values : List Json) : Json := .arr [.strings names, .arr values]

/-- Named arguments, or `null` if there are none. -/
def hashJson (names : List String) (values : List Json) : Json :=
  if names.isEmpty then .null else pairJson names values

/-- The slots of a list. -/
def slotsJson (slots : List Nat) : Json := .arr (slots.map .nat)

/-- The largest integer up to which doubles hold every integer. -/
def maxSafeInteger : Nat := 0x1fffffffffffff

/-- A literal value.  An integral number that doubles hold exactly is written
as an integer. -/
def literalJson : Literal → Json
  | .string value => .str value
  | .number value =>
    match value.toInt? with
    | some n => if n.natAbs ≤ maxSafeInteger then .int n else .float value
    | none => .float value
  | .boolean value => .bool value
  | .null => .null
  | .undefined => tagged .undefined []

mutual

/-- The JSON form of a value. -/
def Expr.toJson : Expr → Json
  | .literal value => literalJson value
  | .getSymbol slot tail => tagged .getSymbol (.nat slot :: tailJson tail)
  | .getFree opcode upvar tail => tagged opcode (.nat upvar :: tailJson tail)
  | .call callee params hash =>
    tagged .call [callee.toJson, arrayOrNull (exprsJson params),
      hashJson (hash.map Entry.name) (entriesJson hash)]
  | .concat parts => tagged .concat [.arr (exprsJson parts)]
  | .hasBlock slot => tagged .hasBlock [tagged .getSymbol [.nat slot]]
  | .hasBlockParams slot => tagged .hasBlockParams [tagged .getSymbol [.nat slot]]
  | .curry definition kind params hash =>
    tagged .curry [definition.toJson, .nat kind.code, arrayOrNull (exprsJson params),
      hashJson (hash.map Entry.name) (entriesJson hash)]
  | .not value => tagged .not [value.toJson]
  | .ifInline condition truthy falsy =>
    tagged .ifInline [condition.toJson, truthy.toJson, optionJson falsy]
  | .getDynamicVar name => tagged .getDynamicVar [name.toJson]
  | .log params => tagged .log [arrayOrNull (exprsJson params)]

/-- The JSON forms of values. -/
def exprsJson : List Expr → List Json
  | [] => []
  | e :: rest => e.toJson :: exprsJson rest

/-- The JSON forms of the values of entries. -/
def entriesJson : List (Entry Expr) → List Json
  | [] => []
  | entry :: rest => entry.value.toJson :: entriesJson rest

/-- The JSON form of a value that may be missing. -/
def optionJson : Option Expr → Json
  | none => .null
  | some e => e.toJson

end

/-- The JSON form of named arguments. -/
def argsJson (hash : List (Entry Expr)) : Json :=
  hashJson (hash.map Entry.name) (entriesJson hash)

mutual

/-- What follows the opcode of a statement. -/
def Statement.operands : Statement → List Json
  | .append value _ => [value.toJson]
  | .comment text => [.str text]
  | .modifier callee params hash =>
    [callee.toJson, arrayOrNull (exprsJson params), argsJson hash]
  | .block callee params hash blocks =>
    [callee.toJson, arrayOrNull (exprsJson params), argsJson hash,
      pairJson (blocks.map Entry.name) (blocksJson blocks)]
  | .component tag params hash blocks =>
    [tag.toJson, arrayOrNull (statementsJson params), argsJson hash,
      pairJson (blocks.map Entry.name) (blocksJson blocks)]
  | .openElement tag _ => [.str tag]
  | .flushElement | .closeElement => []
  | .staticAttr name value space _ => .str name :: .str value :: space.toList.map .str
  | .dynamicAttr name value space _ _ => .str name :: value.toJson :: space.toList.map .str
  | .attrSplat slot => [.nat slot]
  | .yield target params => [.nat target, arrayOrNull (exprsJson params)]
  | .partialCall target eval => [target.toJson, slotsJson eval]
  | .debugger eval => [slotsJson eval]
  | .inElement block guid destination insertBefore =>
    blockJson block :: .str guid :: destination.toJson ::
      (match insertBefore with
        | none => []
        | some e => [e.toJson])
  | .branch condition block inverse =>
    [condition.toJson, blockJson block, otherJson inverse]
  | .each value key block inverse =>
    [value.toJson, optionJson key, blockJson block, otherJson inverse]
  | .withValue value block inverse => [value.toJson, blockJson block, otherJson inverse]
  | .letValues positional block => [.arr (exprsJson positional), blockJson block]
  | .withDynamicVars hash block => [argsJson hash, blockJson block]
  | .invokeComponent definition params hash blocks =>
    [definition.toJson, arrayOrNull (exprsJson params), argsJson hash,
      hashJson (blocks.map Entry.name) (blocksJson blocks)]

/-- The JSON forms of statements. -/
def statementsJson : List Statement → List Json
  | [] => []
  | s :: rest => tagged s.opcode s.operands :: statementsJson rest

/-- The JSON form of a block. -/
def blockJson : Block Statement → Json
  | ⟨statements, params⟩ => .arr [.arr (statementsJson statements), slotsJson params]

/-- The JSON forms of blocks with names. -/
def blocksJson : List (Entry (Block Statement)) → List Json
  | [] => []
  | entry :: rest => blockJson entry.value :: blocksJson rest

/-- The JSON form of a block that may be missing. -/
def otherJson : Option (Block Statement) → Json
  | none => .null
  | some block => blockJson block

end

namespace Program

/-- The JSON form of a program. -/
def toJson (p : Program) : Json :=
  .arr [.arr (statementsJson p.statements), .strings p.symbols, .bool p.hasEval, .strings p.upvars]

/-- The text of a program, without blanks. -/
def text (p : Program) : String := p.toJson.compact

/-- The indented text of a program. -/
def prettyText (p : Program) : String := p.toJson.pretty

end Program

end TemplateCompiler.Wire
