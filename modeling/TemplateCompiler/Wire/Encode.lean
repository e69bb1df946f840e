/-
From the resolved tree to a program.

Every node becomes one statement, except that an element becomes a run — its
start, its attributes and modifiers, a flush, its body, its end — and that a
hidden comment becomes nothing.  Slots and upvars stay what they are.

* `Resolved.Expr.encode` — a value;
* `Resolved.ElementParams.encode` — attributes and modifiers;
* `Resolved.encodeContents` — content;
* `Resolved.Body.encode` — a whole template.
-/
import TemplateCompiler.Resolved.Syntax
import TemplateCompiler.Scope.Symbols
import TemplateCompiler.Wire.Program

namespace TemplateCompiler.Resolved

open Wire (Entry)

/-! ### Values -/

/-- Reads a variable and takes properties of it. -/
def Reference.encode (tail : List String) : Reference → Wire.Expr
  | .this => .getSymbol 0 tail
  | .blockParam slot | .argument slot => .getSymbol slot tail
  | .free upvar resolution => .getFree (.ofResolution resolution) upvar tail

mutual

/-- Encodes a value. -/
def Expr.encode : Expr → Wire.Expr
  | .literal value _ => .literal value
  | .path head tail _ => head.reference.encode tail
  | .call callee args _ =>
    .call callee.encode (encodeExprs args.positional) (encodeNamed args.named)
  | .interpolate parts _ => .concat (encodeExprs parts)
  | .hasBlock slot _ => .hasBlock slot
  | .hasBlockParams slot _ => .hasBlockParams slot
  | .curry definition kind args _ =>
    .curry definition.encode kind (encodeExprs args.positional) (encodeNamed args.named)
  | .not value => .not value.encode
  | .ifInline condition truthy falsy _ =>
    .ifInline condition.encode truthy.encode (encodeOption falsy)
  | .getDynamicVar name => .getDynamicVar name.encode
  | .log args => .log (encodeExprs args.positional)

/-- Encodes values in order. -/
def encodeExprs : List Expr → List Wire.Expr
  | [] => []
  | e :: rest => e.encode :: encodeExprs rest

/-- Encodes values with names in order. -/
def encodeNamed : List (Named Expr) → List (Entry Wire.Expr)
  | [] => []
  | named :: rest => ⟨named.name, named.value.encode⟩ :: encodeNamed rest

/-- Encodes a value that may be missing. -/
def encodeOption : Option Expr → Option Wire.Expr
  | none => none
  | some e => some e.encode

end

/-! ### Elements -/

/-- The namespace of an attribute that has one. -/
def attributeNamespace? (name : String) : Option String :=
  if ["xlink:actuate", "xlink:arcrole", "xlink:href", "xlink:role", "xlink:show", "xlink:title",
      "xlink:type"].contains name then
    some "http://www.w3.org/1999/xlink"
  else if ["xml:base", "xml:lang", "xml:space"].contains name then
    some "http://www.w3.org/XML/1998/namespace"
  else if ["xmlns", "xmlns:xlink"].contains name then
    some "http://www.w3.org/2000/xmlns/"
  else none

/-- Encodes an attribute.  A text is known beforehand and `true` is the empty
text; with `false` the attribute is left off. -/
def Attr.encode (onComponent : Bool) : Attr → Option Wire.Statement
  | .splat slot _ => some (.attrSplat slot)
  | .attr name value trusting _ =>
    match value with
    | .literal (.boolean false) _ => none
    | .literal (.boolean true) _ =>
      some (.staticAttr name "" (attributeNamespace? name) onComponent)
    | .literal (.string text) _ =>
      some (.staticAttr name text (attributeNamespace? name) onComponent)
    | value =>
      some (.dynamicAttr name value.encode (attributeNamespace? name) trusting onComponent)

/-- Whether an attribute is the `type` of an element. -/
def Attr.isType : Attr → Bool
  | .attr name _ _ _ => name == "type"
  | .splat _ _ => false

/-- Encodes a modifier. -/
def Modifier.encode (m : Modifier) : Wire.Statement :=
  .modifier m.callee.encode (encodeExprs m.args.positional) (encodeNamed m.args.named)

/-- Encodes attributes in order, then modifiers.  Unless the attributes of the
caller come among them, the `type` comes after the other attributes, and only
the last of several is kept. -/
def ElementParams.encode (onComponent : Bool) (p : ElementParams) : List Wire.Statement :=
  let attrs :=
    if p.hasSplat then p.attrs.filterMap (Attr.encode onComponent)
    else
      let (types, others) := p.attrs.partition Attr.isType
      others.filterMap (Attr.encode onComponent)
        ++ (types.filterMap (Attr.encode onComponent)).getLast?.toList
  attrs ++ p.modifiers.map Modifier.encode

/-! ### Content -/

mutual

/-- Encodes a piece of content. -/
def Content.encode : Content → List Wire.Statement
  | .text chars _ => [.append (.literal (.string chars)) false]
  | .comment text _ => [.comment text]
  | .hiddenComment _ _ => []
  | .append value trusting _ => [.append value.encode trusting]
  | .invokeBlock callee args blocks _ =>
    [.block callee.encode (encodeExprs args.positional) (encodeNamed args.named)
      (encodeBlocks blocks)]
  | .invokeDynamic callee args blocks _ =>
    [.invokeComponent callee.encode (encodeExprs args.positional) (encodeNamed args.named)
      (encodeBlocks blocks)]
  | .invokeComponent callee params args blocks _ =>
    [.component callee.encode (params.encode true) (encodeNamed args) (encodeBlocks blocks)]
  | .element tag params body _ =>
    .openElement tag params.hasSplat ::
      (params.encode false ++ .flushElement :: (encodeContents body ++ [.closeElement]))
  | .branch condition block inverse _ =>
    [.branch condition.encode (encodeBlock block) (encodeOther inverse)]
  | .each value key block inverse _ =>
    [.each value.encode (encodeOption key) (encodeBlock block) (encodeOther inverse)]
  | .withValue value block inverse _ =>
    [.withValue value.encode (encodeBlock block) (encodeOther inverse)]
  | .letValues positional block _ => [.letValues (encodeExprs positional) (encodeBlock block)]
  | .inElement guid destination insertBefore block _ =>
    [.inElement (encodeBlock block) guid destination.encode (encodeOption insertBefore)]
  | .withDynamicVars named block _ => [.withDynamicVars (encodeNamed named) (encodeBlock block)]
  | .yield target positional _ => [.yield target (encodeExprs positional)]
  | .debugger eval _ => [.debugger eval]
  | .partialCall target eval _ => [.partialCall target.encode eval]

/-- Encodes content in order. -/
def encodeContents : List Content → List Wire.Statement
  | [] => []
  | c :: rest => c.encode ++ encodeContents rest

/-- Encodes a block. -/
def encodeBlock : Block Content → Wire.Block Wire.Statement
  | ⟨params, body, _⟩ => ⟨encodeContents body, params⟩

/-- Encodes blocks with names in order. -/
def encodeBlocks : List (NamedBlock Content) → List (Entry (Wire.Block Wire.Statement))
  | [] => []
  | named :: rest => ⟨named.name, encodeBlock named.block⟩ :: encodeBlocks rest

/-- Encodes a block that may be missing. -/
def encodeOther : Option (Block Content) → Option (Wire.Block Wire.Statement)
  | none => none
  | some block => some (encodeBlock block)

end

/-- Encodes a template with the symbols that its slots and upvars refer to. -/
def Body.encode (b : Body) (symbols : Symbols) : Wire.Program :=
  { statements := encodeContents b.body
    symbols := symbols.names
    hasEval := symbols.hasEval
    upvars := symbols.upvars }

end TemplateCompiler.Resolved
