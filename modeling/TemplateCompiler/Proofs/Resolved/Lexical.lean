/-
Names by lexical scoping.

A second account of how a template is resolved: instead of keeping a table of
open scopes, it passes the scopes around a place down the tree.  The symbols `F`
at the end of the walk are given from outside; they say which name a slot holds
and which name an upvar stands for.

* `Scopes.find?` — the slot that the innermost block around a place gave to a
  name;
* `ResolvesName` — a bare name: a block parameter exactly when some block around
  it declares the name, and otherwise a free name;
* `keyword?` — a bare callee is a keyword exactly when nothing binds it and the
  table of its position has it;
* `ResolvesExpr`, `ResolvesStatement` — expressions and statements, one rule for
  each form.

The rules say nothing about the order in which numbers are given. What holds no
statements has rules of its own, so that only expressions and statements are
recursive.
-/
import Mathlib.Data.List.Forall2
import TemplateCompiler.Proofs.Scope.Symbols
import TemplateCompiler.Resolved.Content

namespace TemplateCompiler.Resolved

open Template (Path Pair Hash Call MustacheTag BlockTag StartTag ConcatPart AttrValue Statement)

/-! ### Scopes -/

/-- The blocks around a place, the innermost first: the names that each declares,
with the slots it gave them. -/
abbrev Scopes := List (List (String × Nat))

/-- The slot that the innermost block that declares a name gave to it. -/
def Scopes.find? (env : Scopes) (name : String) : Option Nat :=
  env.findSome? fun scope => scope.lookup name

/-- A name is found exactly when some block around the place declares it. -/
theorem Scopes.find?_isSome_iff {env : Scopes} {name : String} :
    (env.find? name).isSome ↔ ∃ scope ∈ env, name ∈ scope.map Prod.fst := by
  rw [Scopes.find?]
  rw [List.findSome?_isSome_iff]
  constructor
  · rintro ⟨scope, hmem, hsome⟩
    obtain ⟨slot, hslot⟩ := Option.isSome_iff_exists.mp hsome
    obtain ⟨l₁, l₂, heq, -⟩ := List.lookup_eq_some_iff.mp hslot
    exact ⟨scope, hmem, by rw [heq]; simp⟩
  · rintro ⟨scope, hmem, hname⟩
    obtain ⟨entry, hentry, rfl⟩ := List.mem_map.mp hname
    exact ⟨scope, hmem, by simpa using ⟨entry.2, hentry⟩⟩

/-- Whether something around a place binds a bare name: a block or, in a strict
template, surrounding code. -/
def Settings.binds (o : Settings) (env : Scopes) (name : String) : Bool :=
  (env.find? name).isSome || (o.strict && o.locals.contains name)

/-- The keyword that a callee is: a bare name that nothing binds and that the
table of its position has. -/
def keyword? {κ : Type} (o : Settings) (env : Scopes) (table : String → Option κ) :
    Template.Expr → Option κ
  | .path p => (p.simpleName?.filter fun name => !o.binds env name).bind table
  | _ => none

/-- The name under which a free component is registered. -/
def Settings.registered (o : Settings) (tag : String) : String :=
  match o.customize with
  | none => tag
  | some customize => customize tag

/-- Whether a tag invokes a component: its head is in scope or starts with an
upper-case letter. -/
def invokes (o : Settings) (env : Scopes) (tag : StartTag) : Bool :=
  let head := (tagPath tag.name).1
  isArgumentName head || head == "this" || o.binds env head ||
    head.toList.head?.any Text.isUpper

/-- The named arguments are among those that a form takes. -/
def Takes (allowed : List String) (hash : Hash Template.Expr) : Prop :=
  ∀ pair ∈ hash.pairs, pair.key ∈ allowed

section

variable (o : Settings) (F : Symbols)

/-! ### Names -/

/-- What a bare name refers to. -/
inductive ResolvesName (env : Scopes) (site : Site) (simple : Bool) (name : String) :
    Reference → Prop
  /-- Some block around the place declares the name. -/
  | bound {slot : Nat} (hfind : env.find? name = some slot) :
    ResolvesName env site simple name (.blockParam slot)
  /-- Surrounding code provides the name to a strict template. -/
  | provided {upvar : Nat} (hfind : env.find? name = none) (hstrict : o.strict = true)
    (hlocal : name ∈ o.locals) (hupvar : F.upvars[upvar]? = some name) :
    ResolvesName env site simple name (.free upvar .strict)
  /-- A loose template looks the name up as its site demands. -/
  | loose {upvar : Nat} {resolution : Resolution} (hfind : env.find? name = none)
    (hloose : o.strict = false) (hsite : site.resolution? simple = some resolution)
    (hupvar : F.upvars[upvar]? = some name) :
    ResolvesName env site simple name (.free upvar resolution)

/-- What the head of a path refers to. -/
inductive ResolvesHead (env : Scopes) (site : Site) (p : Path) : Variable → Prop
  | this (hhead : p.head = .this) : ResolvesHead env site p ⟨"this", .this, p.span⟩
  | argument {name : String} {slot : Nat} (hhead : p.head = .at name)
    (hslot : F.Holds slot ("@" ++ name)) :
    ResolvesHead env site p ⟨"@" ++ name, .argument slot, p.span⟩
  | bare {name : String} {reference : Reference} (hhead : p.head = .var name)
    (hname : ResolvesName o F env site p.tail.isEmpty name reference) :
    ResolvesHead env site p ⟨name, reference, p.span⟩

/-- What the head of a tag that invokes a component refers to. -/
inductive ResolvesTag (env : Scopes) (head : String) (span : Span) : Variable → Prop
  | argument {slot : Nat} (harg : isArgumentName head = true) (hslot : F.Holds slot head) :
    ResolvesTag env head span ⟨head, .argument slot, span⟩
  | this (harg : isArgumentName head = false) (hthis : head = "this") :
    ResolvesTag env head span ⟨head, .this, span⟩
  | bound {slot : Nat} (harg : isArgumentName head = false) (hthis : head ≠ "this")
    (hfind : env.find? head = some slot) :
    ResolvesTag env head span ⟨head, .blockParam slot, span⟩
  | provided {upvar : Nat} (harg : isArgumentName head = false) (hthis : head ≠ "this")
    (hfind : env.find? head = none) (hstrict : o.strict = true) (hlocal : head ∈ o.locals)
    (hupvar : F.upvars[upvar]? = some head) :
    ResolvesTag env head span ⟨head, .free upvar .strict, span⟩
  /-- A free tag is known under its registered name. -/
  | free {upvar : Nat} (harg : isArgumentName head = false) (hthis : head ≠ "this")
    (hfind : env.find? head = none) (hloose : o.strict = false)
    (hupvar : F.upvars[upvar]? = some (o.registered head)) :
    ResolvesTag env head span
      ⟨o.registered head, .free upvar (.loose { component := true } false), span⟩

/-- The slot of the block that `has-block` asks about. -/
inductive AsksFor : List Template.Expr → Nat → Prop
  | default {slot : Nat} (hslot : F.Holds slot "&default") : AsksFor [] slot
  | named {name : String} {span : Span} {rest : List Template.Expr} {slot : Nat}
    (hslot : F.Holds slot ("&" ++ Symbols.blockName name)) :
    AsksFor (.literal (.string name) span :: rest) slot

/-! ### Expressions -/

mutual

/-- An expression at a site. -/
inductive ResolvesExpr (env : Scopes) : Site → Template.Expr → Expr → Prop
  | literal {site : Site} {value : Template.Literal} {span : Span} :
    ResolvesExpr env site (.literal value span) (.literal value span)
  | path {site : Site} {p : Path} {head : Variable} (hhead : ResolvesHead o F env site p head) :
    ResolvesExpr env site (.path p) (.path head p.tail p.span)
  | keyword {site : Site} {call : Call Template.Expr} {span : Span} {k : CallKeyword} {e : Expr}
    (hkeyword : keyword? o env CallKeyword.ofName? call.callee = some k)
    (hcall : ResolvesKeyword env k span call e) : ResolvesExpr env site (.sub call span) e
  | call {site : Site} {call : Call Template.Expr} {span : Span} {e : Expr}
    (hkeyword : keyword? o env CallKeyword.ofName? call.callee = none)
    (hcall : ResolvesCall env .sub span call e) : ResolvesExpr env site (.sub call span) e

/-- Positional arguments in order. -/
inductive ResolvesExprs (env : Scopes) : List Template.Expr → List Expr → Prop
  | nil : ResolvesExprs env [] []
  | cons {param : Template.Expr} {value : Expr} {params : List Template.Expr} {values : List Expr}
    (hvalue : ResolvesExpr env .argument param value) (hvalues : ResolvesExprs env params values) :
    ResolvesExprs env (param :: params) (value :: values)

/-- Named arguments in order. -/
inductive ResolvesPairs (env : Scopes) : List (Pair Template.Expr) → List (Named Expr) → Prop
  | nil : ResolvesPairs env [] []
  | cons {pair : Pair Template.Expr} {value : Expr} {pairs : List (Pair Template.Expr)}
    {named : List (Named Expr)} (hvalue : ResolvesExpr env .argument pair.value value)
    (hnamed : ResolvesPairs env pairs named) :
    ResolvesPairs env (pair :: pairs) (⟨pair.key, value, pair.span⟩ :: named)

/-- The call of a value. -/
inductive ResolvesCall (env : Scopes) : Site → Span → Call Template.Expr → Expr → Prop
  | mk {site : Site} {span : Span} {callee : Template.Expr} {params : List Template.Expr}
    {hash : Hash Template.Expr} {callee' : Expr} {positional : List Expr}
    {named : List (Named Expr)} (hcallee : ResolvesExpr env site callee callee')
    (hparams : ResolvesExprs env params positional) (hpairs : ResolvesPairs env hash.pairs named) :
    ResolvesCall env site span ⟨callee, params, hash⟩
      (.call callee' ⟨positional, named, argsSpan params hash span⟩ span)

/-- The call of a keyword. -/
inductive ResolvesKeyword (env : Scopes) : CallKeyword → Span → Call Template.Expr → Expr → Prop
  | branch {negated : Bool} {span : Span} {callee condition truthy : Template.Expr}
    {hash : Hash Template.Expr} {condition' truthy' : Expr} (htakes : Takes [] hash)
    (hcondition : ResolvesExpr env .argument condition condition')
    (htruthy : ResolvesExpr env .argument truthy truthy') :
    ResolvesKeyword env (.branch negated) span ⟨callee, [condition, truthy], hash⟩
      (.ifInline (conditionOf negated condition') truthy' none span)
  | branchElse {negated : Bool} {span : Span} {callee condition truthy falsy : Template.Expr}
    {hash : Hash Template.Expr} {condition' truthy' falsy' : Expr} (htakes : Takes [] hash)
    (hcondition : ResolvesExpr env .argument condition condition')
    (htruthy : ResolvesExpr env .argument truthy truthy')
    (hfalsy : ResolvesExpr env .argument falsy falsy') :
    ResolvesKeyword env (.branch negated) span ⟨callee, [condition, truthy, falsy], hash⟩
      (.ifInline (conditionOf negated condition') truthy' (some falsy') span)
  | hasBlock {span : Span} {callee : Template.Expr} {params : List Template.Expr}
    {hash : Hash Template.Expr} {slot : Nat} (htakes : Takes [] hash)
    (hcount : params.length ≤ 1) (hasked : AsksFor F params slot) :
    ResolvesKeyword env .hasBlock span ⟨callee, params, hash⟩ (.hasBlock slot span)
  | hasBlockParams {span : Span} {callee : Template.Expr} {params : List Template.Expr}
    {hash : Hash Template.Expr} {slot : Nat} (htakes : Takes [] hash)
    (hcount : params.length ≤ 1) (hasked : AsksFor F params slot) :
    ResolvesKeyword env .hasBlockParams span ⟨callee, params, hash⟩ (.hasBlockParams slot span)
  | curry {kind : CurriedKind} {span : Span} {callee definition : Template.Expr}
    {params : List Template.Expr} {hash : Hash Template.Expr} {definition' : Expr}
    {positional : List Expr} {named : List (Named Expr)}
    (hdefinition : ResolvesExpr env .argument definition definition')
    (hparams : ResolvesExprs env params positional) (hpairs : ResolvesPairs env hash.pairs named) :
    ResolvesKeyword env (.curry kind) span ⟨callee, definition :: params, hash⟩
      (.curry definition' kind ⟨positional, named, argsSpan params hash span⟩ span)
  | log {span : Span} {callee : Template.Expr} {params : List Template.Expr}
    {hash : Hash Template.Expr} {positional : List Expr} (htakes : Takes [] hash)
    (hparams : ResolvesExprs env params positional) :
    ResolvesKeyword env .log span ⟨callee, params, hash⟩
      (.log ⟨positional, [], argsSpan params hash span⟩)
  | getDynamicVar {span : Span} {callee name : Template.Expr} {hash : Hash Template.Expr}
    {name' : Expr} (htakes : Takes [] hash) (hname : ResolvesExpr env .argument name name') :
    ResolvesKeyword env .getDynamicVar span ⟨callee, [name], hash⟩ (.getDynamicVar name')

end

/-- The call of a component that is given as the first argument. -/
inductive ResolvesDynamic (env : Scopes) (span : Span) :
    Call Template.Expr → Expr → Args Expr → Prop
  | mk {callee definition : Template.Expr} {params : List Template.Expr}
    {hash : Hash Template.Expr} {definition' : Expr} {positional : List Expr}
    {named : List (Named Expr)}
    (hdefinition : ResolvesExpr o F env .argument definition definition')
    (hparams : ResolvesExprs o F env params positional)
    (hpairs : ResolvesPairs o F env hash.pairs named) :
    ResolvesDynamic env span ⟨callee, definition :: params, hash⟩ definition'
      ⟨positional, named, argsSpan params hash span⟩

/-- A named argument that may be missing. -/
inductive ResolvesOptional (env : Scopes) (key : String) (hash : Hash Template.Expr) :
    Option Expr → Prop
  | none (hget : hash.get? key = none) : ResolvesOptional env key hash none
  | some {pair : Pair Template.Expr} {value : Expr} (hget : hash.get? key = some pair)
    (hvalue : ResolvesExpr o F env .argument pair.value value) :
    ResolvesOptional env key hash (some value)

/-! ### Tags among content -/

/-- The name of the block that `yield` yields to. -/
inductive YieldsTo (hash : Hash Template.Expr) : String → Prop
  | default (hget : hash.get? "to" = none) : YieldsTo hash "default"
  | named {key name : String} {span pairSpan : Span}
    (hget : hash.get? "to" = some ⟨key, .literal (.string name) span, pairSpan⟩) :
    YieldsTo hash name

/-- A tag with a keyword among content. -/
inductive ResolvesAppendForm (env : Scopes) (tag : MustacheTag) : AppendKeyword → Content → Prop
  | yield {name : String} {slot : Nat} {positional : List Expr}
    (htakes : Takes ["to"] tag.call.hash) (hto : YieldsTo tag.call.hash name)
    (hslot : F.Holds slot ("&" ++ Symbols.blockName name))
    (hparams : ResolvesExprs o F env tag.call.params positional) :
    ResolvesAppendForm env tag .yield (.yield slot positional tag.span)
  | partialCall {target : Template.Expr} {target' : Expr} {eval : List Nat}
    (hloose : o.strict = false) (htakes : Takes [] tag.call.hash)
    (hparams : tag.call.params = [target])
    (htarget : ResolvesExpr o F env .argument target target') :
    ResolvesAppendForm env tag .partialCall (.partialCall target' eval tag.span)
  | debugger {eval : List Nat} (htakes : Takes [] tag.call.hash) (hparams : tag.call.params = []) :
    ResolvesAppendForm env tag .debugger (.debugger eval tag.span)
  | component {callee : Expr} {args : Args Expr}
    (hcall : ResolvesDynamic o F env tag.span tag.call callee args) :
    ResolvesAppendForm env tag .component (.invokeDynamic callee args [] tag.span)
  | value {k : CallKeyword} {e : Expr} (hcall : ResolvesKeyword o F env k tag.span tag.call e) :
    ResolvesAppendForm env tag (.value k) (.append e tag.trusting tag.span)

/-- A tag among content. -/
inductive ResolvesAppend (env : Scopes) (tag : MustacheTag) : Content → Prop
  | keyword {k : AppendKeyword} {c : Content}
    (hkeyword : keyword? o env AppendKeyword.ofName? tag.call.callee = some k)
    (hform : ResolvesAppendForm o F env tag k c) : ResolvesAppend env tag c
  | bare {e : Expr} (hkeyword : keyword? o env AppendKeyword.ofName? tag.call.callee = none)
    (hparams : tag.call.params = []) (hpairs : tag.call.hash.pairs = [])
    (hcallee : ResolvesExpr o F env (.append tag.trusting false) tag.call.callee e) :
    ResolvesAppend env tag (.append e tag.trusting tag.span)
  | call {e : Expr} (hkeyword : keyword? o env AppendKeyword.ofName? tag.call.callee = none)
    (hcall : ResolvesCall o F env (.append tag.trusting true) tag.span tag.call e) :
    ResolvesAppend env tag (.append e tag.trusting tag.span)

/-! ### Attributes and modifiers -/

/-- A tag in the value of an attribute. -/
inductive ResolvesAttrTag (env : Scopes) (tag : MustacheTag) : Expr → Prop
  | keyword {k : CallKeyword} {e : Expr}
    (hkeyword : keyword? o env CallKeyword.ofName? tag.call.callee = some k)
    (hcall : ResolvesKeyword o F env k tag.span tag.call e) : ResolvesAttrTag env tag e
  | bare {e : Expr} (hkeyword : keyword? o env CallKeyword.ofName? tag.call.callee = none)
    (hparams : tag.call.params = []) (hpairs : tag.call.hash.pairs = [])
    (hcallee : ResolvesExpr o F env (.attrValue false) tag.call.callee e) :
    ResolvesAttrTag env tag e
  | call {e : Expr} (hkeyword : keyword? o env CallKeyword.ofName? tag.call.callee = none)
    (hcall : ResolvesCall o F env (.attrValue true) tag.span tag.call e) :
    ResolvesAttrTag env tag e

/-- A part of an attribute value in quotes. -/
inductive ResolvesPart (env : Scopes) : ConcatPart → Expr → Prop
  | text {node : Template.TextNode} : ResolvesPart env (.text node) (textLiteral node)
  | mustache {tag : MustacheTag} {e : Expr} (htag : ResolvesAttrTag o F env tag e) :
    ResolvesPart env (.mustache tag) e

/-- The value of an attribute. -/
inductive ResolvesAttrValue (env : Scopes) : AttrValue → Expr → Prop
  | text {node : Template.TextNode} : ResolvesAttrValue env (.text node) (textLiteral node)
  | mustache {tag : MustacheTag} {e : Expr} (htag : ResolvesAttrTag o F env tag e) :
    ResolvesAttrValue env (.mustache tag) e
  | concat {parts : List ConcatPart} {span : Span} {es : List Expr}
    (hparts : List.Forall₂ (ResolvesPart o F env) parts es) :
    ResolvesAttrValue env (.concat parts span) (.interpolate es span)

/-- An attribute of an element. -/
inductive ResolvesAttr (env : Scopes) (attr : Template.Attr) : Attr → Prop
  | splat {slot : Nat} (hname : isSplatName attr.name = true) (hslot : F.Holds slot "&attrs") :
    ResolvesAttr env attr (.splat slot attr.span)
  | attr {e : Expr} {trusting : Bool} (hname : isSplatName attr.name = false)
    (hvalue : ResolvesAttrValue o F env attr.value e) :
    ResolvesAttr env attr (.attr attr.name e trusting attr.span)

/-- The attributes of a component: arguments are told from other attributes. -/
inductive ResolvesAttrs (env : Scopes) :
    List Template.Attr → List Attr → List (Named Expr) → Prop
  | nil : ResolvesAttrs env [] [] []
  | argument {attr : Template.Attr} {e : Expr} {rest : List Template.Attr} {attrs : List Attr}
    {args : List (Named Expr)} (hname : isArgumentName attr.name = true)
    (hvalue : ResolvesAttrValue o F env attr.value e) (hrest : ResolvesAttrs env rest attrs args) :
    ResolvesAttrs env (attr :: rest) attrs (⟨attr.name, e, attr.span⟩ :: args)
  | attr {attr : Template.Attr} {a : Attr} {rest : List Template.Attr} {attrs : List Attr}
    {args : List (Named Expr)} (hname : isArgumentName attr.name = false)
    (hattr : ResolvesAttr o F env attr a) (hrest : ResolvesAttrs env rest attrs args) :
    ResolvesAttrs env (attr :: rest) (a :: attrs) args

/-- A modifier of an element. -/
inductive ResolvesModifier (env : Scopes) (m : Template.Modifier) : Modifier → Prop
  | mk {callee : Expr} {positional : List Expr} {named : List (Named Expr)}
    (hcallee : ResolvesExpr o F env .modifier m.call.callee callee)
    (hparams : ResolvesExprs o F env m.call.params positional)
    (hpairs : ResolvesPairs o F env m.call.hash.pairs named) :
    ResolvesModifier env m
      ⟨callee, ⟨positional, named, argsSpan m.call.params m.call.hash m.span⟩, m.span⟩

/-! ### Blocks -/

/-- The two branches of a block as blocks with names. -/
def branchBlocks (program : Template.Block Statement) (inverse : Option (Template.Block Statement))
    (block : Block Content) (other : Option (Block Content)) : List (NamedBlock Content) :=
  match inverse, other with
  | some inverse, some other =>
    [⟨"default", block, program.span⟩, ⟨"else", other, inverse.span⟩]
  | _, _ => [⟨"default", block, program.span⟩]

/-- A block with a keyword, given its branches. -/
inductive ResolvesBlockForm (env : Scopes) (tag : BlockTag) (program : Template.Block Statement)
    (inverse : Option (Template.Block Statement)) (block : Block Content)
    (other : Option (Block Content)) : BlockKeyword → Content → Prop
  | branch {negated : Bool} {condition : Template.Expr} {condition' : Expr}
    (htakes : Takes [] tag.call.hash) (hparams : tag.call.params = [condition])
    (hcondition : ResolvesExpr o F env .argument condition condition') :
    ResolvesBlockForm env tag program inverse block other (.branch negated)
      (.branch (conditionOf negated condition') block other tag.span)
  | each {value : Template.Expr} {value' : Expr} {key : Option Expr}
    (htakes : Takes ["key"] tag.call.hash) (hparams : tag.call.params = [value])
    (hvalue : ResolvesExpr o F env .argument value value')
    (hkey : ResolvesOptional o F env "key" tag.call.hash key) :
    ResolvesBlockForm env tag program inverse block other .each
      (.each value' key block other tag.span)
  | withValue {value : Template.Expr} {value' : Expr} (htakes : Takes [] tag.call.hash)
    (hparams : tag.call.params = [value])
    (hvalue : ResolvesExpr o F env .argument value value') :
    ResolvesBlockForm env tag program inverse block other .withValue
      (.withValue value' block other tag.span)
  | letValues {positional : List Expr} (htakes : Takes [] tag.call.hash) (hinverse : inverse = none)
    (hparams : ResolvesExprs o F env tag.call.params positional) :
    ResolvesBlockForm env tag program inverse block other .letValues
      (.letValues positional block tag.span)
  | inElement {guid : String} {destination : Template.Expr} {destination' : Expr}
    {insertBefore : Option Expr} (htakes : Takes ["insertBefore"] tag.call.hash)
    (hinverse : inverse = none) (hparams : tag.call.params = [destination])
    (hdestination : ResolvesExpr o F env .argument destination destination')
    (hinsert : ResolvesOptional o F env "insertBefore" tag.call.hash insertBefore) :
    ResolvesBlockForm env tag program inverse block other .inElement
      (.inElement guid destination' insertBefore block tag.span)
  | component {callee : Expr} {args : Args Expr}
    (hcall : ResolvesDynamic o F env tag.span tag.call callee args) :
    ResolvesBlockForm env tag program inverse block other .component
      (.invokeDynamic callee args (branchBlocks program inverse block other) tag.span)
  | withDynamicVars {named : List (Named Expr)} (hparams : tag.call.params = [])
    (hinverse : inverse = none) (hpairs : ResolvesPairs o F env tag.call.hash.pairs named) :
    ResolvesBlockForm env tag program inverse block other .withDynamicVars
      (.withDynamicVars named block tag.span)

/-! ### Statements -/

mutual

/-- A statement. -/
inductive ResolvesStatement : Scopes → Statement → Content → Prop
  | text {env : Scopes} {node : Template.TextNode} :
    ResolvesStatement env (.text node) (.text node.chars node.span)
  | comment {env : Scopes} {c : Template.Comment} :
    ResolvesStatement env (.comment c) (.comment c.value c.span)
  | hiddenComment {env : Scopes} {c : Template.Comment} :
    ResolvesStatement env (.mustacheComment c) (.hiddenComment c.value c.span)
  | mustache {env : Scopes} {tag : MustacheTag} {c : Content}
    (htag : ResolvesAppend o F env tag c) : ResolvesStatement env (.mustache tag) c
  | blockForm {env : Scopes} {tag : BlockTag} {program : Template.Block Statement}
    {inverse : Option (Template.Block Statement)} {block : Block Content}
    {other : Option (Block Content)} {k : BlockKeyword} {c : Content}
    (hkeyword : keyword? o env BlockKeyword.ofName? tag.call.callee = some k)
    (hblock : ResolvesBlock env program block) (hother : ResolvesOther env inverse other)
    (hform : ResolvesBlockForm o F env tag program inverse block other k c) :
    ResolvesStatement env (.block tag program inverse) c
  | invokeBlock {env : Scopes} {tag : BlockTag} {program : Template.Block Statement}
    {inverse : Option (Template.Block Statement)} {block : Block Content}
    {other : Option (Block Content)} {callee : Expr} {positional : List Expr}
    {named : List (Named Expr)}
    (hkeyword : keyword? o env BlockKeyword.ofName? tag.call.callee = none)
    (hcallee : ResolvesExpr o F env .block tag.call.callee callee)
    (hparams : ResolvesExprs o F env tag.call.params positional)
    (hpairs : ResolvesPairs o F env tag.call.hash.pairs named)
    (hblock : ResolvesBlock env program block) (hother : ResolvesOther env inverse other) :
    ResolvesStatement env (.block tag program inverse)
      (.invokeBlock callee
        ⟨positional, named, argsSpan tag.call.params tag.call.hash tag.span⟩
        (branchBlocks program inverse block other) tag.span)
  | element {env : Scopes} {tag : StartTag} {children : List Statement} {span : Span}
    {attrs : List Attr} {modifiers : List Modifier} {body : List Content}
    (hname : isBlockName tag.name = false) (hplain : invokes o env tag = false)
    (hattrs : List.Forall₂ (ResolvesAttr o F env) tag.attributes attrs)
    (hmodifiers : List.Forall₂ (ResolvesModifier o F env) tag.modifiers modifiers)
    (hbody : ResolvesStatements env children body) :
    ResolvesStatement env (.element tag children span)
      (.element tag.name ⟨attrs, modifiers⟩ body span)
  | component {env : Scopes} {tag : StartTag} {children : List Statement} {span : Span}
    {head : Variable} {attrs : List Attr} {args : List (Named Expr)} {modifiers : List Modifier}
    {blocks : List (NamedBlock Content)}
    (hname : isBlockName tag.name = false) (hinvokes : invokes o env tag = true)
    (hhead : ResolvesTag o F env (tagPath tag.name).1 (tagSpan tag span) head)
    (hattrs : ResolvesAttrs o F env tag.attributes attrs args)
    (hmodifiers : List.Forall₂ (ResolvesModifier o F env) tag.modifiers modifiers)
    (hblocks : ResolvesChildren env tag children span blocks) :
    ResolvesStatement env (.element tag children span)
      (.invokeComponent (.path head (tagPath tag.name).2 (tagSpan tag span)) ⟨attrs, modifiers⟩
        args blocks span)

/-- Statements in order. -/
inductive ResolvesStatements : Scopes → List Statement → List Content → Prop
  | nil {env : Scopes} : ResolvesStatements env [] []
  | cons {env : Scopes} {s : Statement} {c : Content} {rest : List Statement}
    {contents : List Content} (hfirst : ResolvesStatement env s c)
    (hrest : ResolvesStatements env rest contents) :
    ResolvesStatements env (s :: rest) (c :: contents)

/-- A block: its parameters are in scope in its body, the innermost of all. -/
inductive ResolvesBlock : Scopes → Template.Block Statement → Block Content → Prop
  | mk {env : Scopes} {body : List Statement} {params : List String} {chained : Bool}
    {span : Span} {slots : List Nat} {content : List Content}
    (hlength : slots.length = params.length)
    (hslots : ∀ entry ∈ params.zip slots, F.Holds entry.2 entry.1)
    (hbody : ResolvesStatements (params.zip slots :: env) body content) :
    ResolvesBlock env ⟨body, params, chained, span⟩ ⟨slots, content, span⟩

/-- The other branch of a block, if there is one. -/
inductive ResolvesOther :
    Scopes → Option (Template.Block Statement) → Option (Block Content) → Prop
  | none {env : Scopes} : ResolvesOther env none none
  | some {env : Scopes} {inverse : Template.Block Statement} {other : Block Content}
    (hblock : ResolvesBlock env inverse other) : ResolvesOther env (some inverse) (some other)

/-- The children of a component: blocks with names, or its one default block. -/
inductive ResolvesChildren :
    Scopes → StartTag → List Statement → Span → List (NamedBlock Content) → Prop
  | named {env : Scopes} {tag : StartTag} {children : List Statement} {span : Span}
    {blocks : List (NamedBlock Content)} (hnamed : children.any isNamedBlock = true)
    (hparams : tag.blockParams = []) (hblocks : ResolvesNamedBlocks env [] children blocks) :
    ResolvesChildren env tag children span blocks
  | selfClosing {env : Scopes} {tag : StartTag} {children : List Statement} {span : Span}
    (hnamed : children.any isNamedBlock = false) (hclosing : tag.selfClosing = true) :
    ResolvesChildren env tag children span []
  | default {env : Scopes} {tag : StartTag} {children : List Statement} {span : Span}
    {block : Block Content} (hnamed : children.any isNamedBlock = false)
    (hclosing : tag.selfClosing = false)
    (hblock : ResolvesBlock env ⟨children, tag.blockParams, false, span⟩ block) :
    ResolvesChildren env tag children span [⟨"default", block, span⟩]

/-- Blocks with names; `seen` are the names of those before them. -/
inductive ResolvesNamedBlocks :
    Scopes → List String → List Statement → List (NamedBlock Content) → Prop
  | nil {env : Scopes} {seen : List String} : ResolvesNamedBlocks env seen [] []
  | block {env : Scopes} {seen : List String} {tag : StartTag} {children : List Statement}
    {span : Span} {rest : List Statement} {name : String} {block : Block Content}
    {blocks : List (NamedBlock Content)} (htag : isBlockName tag.name = true)
    (hname : name = Symbols.blockName (String.ofList tag.name.toList.tail))
    (hlower : tag.name.toList.tail.head?.any Char.isLower = true)
    (hattributes : tag.attributes = []) (hmodifiers : tag.modifiers = [])
    (hnew : name ∉ seen)
    (hblock : ResolvesBlock env ⟨children, tag.blockParams, false, span⟩ block)
    (hrest : ResolvesNamedBlocks env (name :: seen) rest blocks) :
    ResolvesNamedBlocks env seen (.element tag children span :: rest)
      (⟨name, block, span⟩ :: blocks)
  | between {env : Scopes} {seen : List String} {s : Statement} {rest : List Statement}
    {blocks : List (NamedBlock Content)} (hbetween : isBetweenBlocks s = true)
    (hrest : ResolvesNamedBlocks env seen rest blocks) :
    ResolvesNamedBlocks env seen (s :: rest) blocks

end

end

end TemplateCompiler.Resolved
