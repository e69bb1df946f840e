/-
The words with a meaning of their own.

A callee that is a bare name, and that nothing in scope binds, may be one of
these words.  Which words count depends on the tag: a block, a call, or a tag
among content.

* `BlockKeyword` — words that open a block;
* `CallKeyword` — words that compute a value;
* `AppendKeyword` — words that stand among content.
-/
namespace TemplateCompiler

/-- What a call can be curried into. -/
inductive CurriedKind where
  | component
  | helper
  | modifier
deriving DecidableEq, Repr, Inhabited

/-- The number of a kind. -/
def CurriedKind.code : CurriedKind → Nat
  | component => 0
  | helper => 1
  | modifier => 2

/-- A word that opens a block. -/
inductive BlockKeyword where
  /-- `if`, or `unless` when negated. -/
  | branch (negated : Bool)
  | each
  | withValue
  | letValues
  | inElement
  | component
  | withDynamicVars
deriving DecidableEq, Repr, Inhabited

namespace BlockKeyword

/-- The word. -/
def name : BlockKeyword → String
  | branch false => "if"
  | branch true => "unless"
  | each => "each"
  | withValue => "with"
  | letValues => "let"
  | inElement => "in-element"
  | component => "component"
  | withDynamicVars => "-with-dynamic-vars"

/-- The keyword that a word is. -/
def ofName? : String → Option BlockKeyword
  | "if" => some (branch false)
  | "unless" => some (branch true)
  | "each" => some each
  | "with" => some withValue
  | "let" => some letValues
  | "in-element" => some inElement
  | "component" => some component
  | "-with-dynamic-vars" => some withDynamicVars
  | _ => none

/-- Every keyword is read back from its word. -/
theorem ofName?_name (k : BlockKeyword) : ofName? k.name = some k := by
  rcases k with (_ | _) | _ | _ | _ | _ | _ | _ <;> rfl

end BlockKeyword

/-- A word that computes a value. -/
inductive CallKeyword where
  /-- `if`, or `unless` when negated. -/
  | branch (negated : Bool)
  | hasBlock
  | hasBlockParams
  | curry (kind : CurriedKind)
  | log
  | getDynamicVar
deriving DecidableEq, Repr, Inhabited

namespace CallKeyword

/-- The word. -/
def name : CallKeyword → String
  | branch false => "if"
  | branch true => "unless"
  | hasBlock => "has-block"
  | hasBlockParams => "has-block-params"
  | curry .component => "component"
  | curry .helper => "helper"
  | curry .modifier => "modifier"
  | log => "log"
  | getDynamicVar => "-get-dynamic-var"

/-- The keyword that a word is. -/
def ofName? : String → Option CallKeyword
  | "if" => some (branch false)
  | "unless" => some (branch true)
  | "has-block" => some hasBlock
  | "has-block-params" => some hasBlockParams
  | "component" => some (curry .component)
  | "helper" => some (curry .helper)
  | "modifier" => some (curry .modifier)
  | "log" => some log
  | "-get-dynamic-var" => some getDynamicVar
  | _ => none

/-- Every keyword is read back from its word. -/
theorem ofName?_name (k : CallKeyword) : ofName? k.name = some k := by
  rcases k with (_ | _) | _ | _ | (_ | _ | _) | _ | _ <;> rfl

end CallKeyword

/-- A word that stands among content. -/
inductive AppendKeyword where
  | yield
  | partialCall
  | debugger
  /-- Among content, `component` invokes and does not curry. -/
  | component
  /-- A value is computed and written. -/
  | value (keyword : CallKeyword)
deriving DecidableEq, Repr, Inhabited

/-- The keyword that a word is. -/
def AppendKeyword.ofName? : String → Option AppendKeyword
  | "yield" => some yield
  | "partial" => some partialCall
  | "debugger" => some debugger
  | "component" => some component
  | word => (CallKeyword.ofName? word).map value

end TemplateCompiler
