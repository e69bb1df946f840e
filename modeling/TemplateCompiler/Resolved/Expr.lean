/-
Values with their names resolved.

* `Resolved.expr` — an expression at a site;
* `Resolved.callOf`, `Resolved.keywordCall` — the call of a value and the call
  of a keyword;
* `Resolved.attrValue` — the value of an attribute.
-/
import TemplateCompiler.Resolved.Walk

namespace TemplateCompiler.Resolved

open Template (Literal Pair Hash Call MustacheTag TextNode ConcatPart AttrValue)

/-- The keyword that a callee is. -/
def callKeyword? (o : Settings) (callee : Template.Expr) : Walk (Option CallKeyword) :=
  return (← keywordName? o callee).bind CallKeyword.ofName?

/-- The condition of `if` or `unless`. -/
def conditionOf (negated : Bool) (value : Expr) : Expr := if negated then .not value else value

/-- The slot of the block that `has-block` asks about. -/
def askedBlock (label : String) : List Template.Expr → Walk Nat
  | [] => onSymbols (·.namedBlock "default")
  | .literal (.string name) _ :: _ => onSymbols (·.namedBlock name)
  | other :: _ => throw (.ofStructure .E2011
      s!"`{label}` can only receive a string literal as its first argument" other.span)

mutual

/-- Resolves an expression at a site. -/
def expr (o : Settings) (site : Site) : Template.Expr → Walk Expr
  | .literal value span => pure (.literal value span)
  | .path p => path o site p
  | .sub call span => do
    match ← callKeyword? o call.callee with
    | some keyword => keywordCall o keyword s!"({keyword.name})" span call
    | none => callOf o .sub span call

/-- Resolves arguments in order. -/
def arguments (o : Settings) : List Template.Expr → Walk (List Expr)
  | [] => pure []
  | param :: rest => do
    let value ← expr o .argument param
    let values ← arguments o rest
    return value :: values

/-- Resolves named arguments in order. -/
def namedArguments (o : Settings) : List (Pair Template.Expr) → Walk (List (Named Expr))
  | [] => pure []
  | pair :: rest => do
    let value ← expr o .argument pair.value
    let values ← namedArguments o rest
    return ⟨pair.key, value, pair.span⟩ :: values

/-- Resolves the call of a value. -/
def callOf (o : Settings) (site : Site) (span : Span) : Call Template.Expr → Walk Expr
  | ⟨callee, params, hash⟩ => do
    let callee ← expr o site callee
    let positional ← arguments o params
    let named ← namedArguments o hash.pairs
    return .call callee ⟨positional, named, argsSpan params hash span⟩ span

/-- Resolves positional arguments of which the first is a definition, to which
the others are given. -/
def definitionOf (o : Settings) (label : String) (span : Span) :
    List Template.Expr → Walk (Expr × List Expr)
  | [] => throw (wrongCount label 1 none 0 span)
  | definition :: params => do
    if o.strict && definition.isLiteral then
      throw (.ofResolution .E3004
        s!"`{label}` cannot resolve a definition by name in strict mode templates; pass the definition itself"
        definition.span)
    let definition ← expr o .argument definition
    let positional ← arguments o params
    return (definition, positional)

/-- Resolves `if` or `unless` as a value: the condition, and one value or two. -/
def inlineBranch (o : Settings) (negated : Bool) (label : String) (span : Span)
    (hash : Hash Template.Expr) : List Template.Expr → Walk Expr
  | [condition, truthy] => do
    checkNamed label [] hash
    let condition ← expr o .argument condition
    let truthy ← expr o .argument truthy
    return .ifInline (conditionOf negated condition) truthy none span
  | [condition, truthy, falsy] => do
    checkNamed label [] hash
    let condition ← expr o .argument condition
    let truthy ← expr o .argument truthy
    let falsy ← expr o .argument falsy
    return .ifInline (conditionOf negated condition) truthy (some falsy) span
  | params => throw (wrongCount label 2 (some 3) params.length span)

/-- Resolves the reading of a dynamic variable by its name. -/
def dynamicVar (o : Settings) (label : String) (span : Span) (hash : Hash Template.Expr) :
    List Template.Expr → Walk Expr
  | [name] => do
    checkNamed label [] hash
    return .getDynamicVar (← expr o .argument name)
  | params => throw (wrongCount label 1 (some 1) params.length span)

/-- Resolves the call of a keyword, which messages name by its label. -/
def keywordCall (o : Settings) (keyword : CallKeyword) (label : String) (span : Span) :
    Call Template.Expr → Walk Expr
  | ⟨_, params, hash⟩ =>
    match keyword with
    | .branch negated => inlineBranch o negated label span hash params
    | .hasBlock => do
      if 1 < params.length then throw (wrongCount label 0 (some 1) params.length span)
      checkNamed label [] hash
      return .hasBlock (← askedBlock label params) span
    | .hasBlockParams => do
      if 1 < params.length then throw (wrongCount label 0 (some 1) params.length span)
      checkNamed label [] hash
      return .hasBlockParams (← askedBlock label params) span
    | .curry kind => do
      let (definition, positional) ← definitionOf o label span params
      let named ← namedArguments o hash.pairs
      return .curry definition kind ⟨positional, named, argsSpan params.tail hash span⟩ span
    | .log => do
      checkNamed label [] hash
      let positional ← arguments o params
      return .log ⟨positional, [], argsSpan params hash span⟩
    | .getDynamicVar => dynamicVar o label span hash params

end

/-- Resolves the call of a component that is given as the first argument. -/
def dynamicCall (o : Settings) (label : String) (span : Span) (call : Call Template.Expr) :
    Walk (Expr × Args Expr) := do
  let (definition, positional) ← definitionOf o label span call.params
  let named ← namedArguments o call.hash.pairs
  return (definition, ⟨positional, named, argsSpan call.params.tail call.hash span⟩)

/-! ### Attributes -/

/-- A text as a value. -/
def textLiteral (node : TextNode) : Expr := .literal (.string node.chars) node.span

/-- Resolves a tag in the value of an attribute. -/
def attrMustache (o : Settings) (tag : MustacheTag) : Walk Expr := do
  match ← callKeyword? o tag.call.callee with
  | some keyword => keywordCall o keyword (braced keyword.name) tag.span tag.call
  | none =>
    if tag.call.params.isEmpty && tag.call.hash.pairs.isEmpty then
      expr o (.attrValue false) tag.call.callee
    else
      callOf o (.attrValue true) tag.span tag.call

/-- Resolves a part of an attribute value in quotes. -/
def concatPart (o : Settings) : ConcatPart → Walk Expr
  | .text node => pure (textLiteral node)
  | .mustache tag => attrMustache o tag

/-- Resolves the value of an attribute. -/
def attrValue (o : Settings) : AttrValue → Walk Expr
  | .text node => pure (textLiteral node)
  | .mustache tag => attrMustache o tag
  | .concat parts span => return .interpolate (← parts.mapM (concatPart o)) span

end TemplateCompiler.Resolved
