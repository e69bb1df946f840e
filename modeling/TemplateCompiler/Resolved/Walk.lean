/-
The walk that resolves names.

The walk goes through a template in the order in which it is written.  Slots,
upvars and the numbers of cursors are given at first use, so the order of the
steps is part of the answer; the first fault ends the walk.

* `Resolved.Walk` — a step of the walk: it may fail, and it changes `Progress`;
* `Resolved.resolveName` — what a bare name refers to at its site;
* `Resolved.keywordName?` — the name that may be a keyword;
* `Resolved.inBlock` — a step in a scope of its own.
-/
import TemplateCompiler.Diagnostic.Failure
import TemplateCompiler.Resolved.Syntax
import TemplateCompiler.Scope.Symbols

namespace TemplateCompiler.Resolved

open Template (Head Path Hash)

/-- How a template is to be resolved. -/
structure Settings where
  /-- Free names must be among `locals`. -/
  strict : Bool := false
  /-- The names that surrounding code provides to a strict template. -/
  locals : List String := []
  /-- The registered name for the tag of a component. -/
  customize : Option (String → String) := none

/-- What the walk has come to. -/
structure Progress where
  symbols : Symbols := {}
  /-- The tags that were customized, in order, each with its name. -/
  componentNames : List (String × String) := []
  /-- The number of cursors handed out. -/
  cursorCount : Nat := 0
deriving Inhabited

/-- A step of the walk. -/
abbrev Walk : Type → Type := EStateM Fault Progress

/-- Runs an operation on the symbols. -/
def onSymbols {α : Type} (f : Symbols → α × Symbols) : Walk α :=
  modifyGet fun p => let (a, symbols) := f p.symbols; (a, { p with symbols })

/-- The symbols so far. -/
def getSymbols : Walk Symbols := return (← get).symbols

/-! ### Scopes -/

/-- Takes a step in the scope of a block with the given parameters; the step is
given their slots. -/
def inBlock {α : Type} (params : List String) (step : List Nat → Walk α) : Walk α := do
  let slots ← onSymbols (·.openBlock params)
  let result ← step slots
  onSymbols fun s => ((), s.closeBlock)
  return result

/-! ### Names -/

/-- Whether a bare name is bound: by a block around it or, in a strict
template, by surrounding code. -/
def isBound (o : Settings) (s : Symbols) (name : String) : Bool :=
  (s.lookup? name).isSome || (o.strict && s.isTemplateLocal name)

/-- The name of a callee that may be a keyword: a bare name that is not bound. -/
def keywordName? (o : Settings) (callee : Template.Expr) : Walk (Option String) := do
  let symbols ← getSymbols
  match callee with
  | .path p => return p.simpleName?.filter fun name => !isBound o symbols name
  | _ => return none

/-- What a bare name refers to: a block parameter, a name that surrounding code
provides, or a name to look up as its site demands.  `written` is the path
that the name heads. -/
def resolveName (o : Settings) (site : Site) (simple : Bool) (written name : String)
    (span : Span) : Walk Variable := do
  let symbols ← getSymbols
  if let some slot := symbols.lookup? name then
    return ⟨name, .blockParam slot, span⟩
  if o.strict then
    if symbols.isTemplateLocal name then
      let upvar ← onSymbols (·.useLocal name)
      return ⟨name, .free upvar .strict, span⟩
    else
      throw (.ofResolution .E3001
        s!"Attempted to resolve a value in a strict mode template, but that value was not in scope: {name}"
        span)
  match site.resolution? simple with
  | some resolution =>
    let upvar ← onSymbols (·.free name)
    return ⟨name, .free upvar resolution, span⟩
  | none =>
    throw (.ofResolution .E3002
      s!"You attempted to invoke a path (`{written}`) but `{name}` was not in scope" span)

/-- Resolves a path at a site. -/
def path (o : Settings) (site : Site) (p : Path) : Walk Expr := do
  let head ← match p.head with
    | .this => pure ⟨"this", .this, p.span⟩
    | .at name => do
      let slot ← onSymbols (·.argument ("@" ++ name))
      pure ⟨"@" ++ name, .argument slot, p.span⟩
    | .var name => resolveName o site p.tail.isEmpty p.written name p.span
  return .path head p.tail p.span

/-- The registered name for the tag of a component.  Each tag is customized
once. -/
def componentName (o : Settings) (tag : String) : Walk String := do
  match o.customize with
  | none => return tag
  | some customize =>
    let p ← get
    match p.componentNames.lookup tag with
    | some name => return name
    | none =>
      let name := customize tag
      set { p with componentNames := p.componentNames ++ [(tag, name)] }
      return name

/-- The next cursor. -/
def nextCursor : Walk String :=
  modifyGet fun p => (s!"%cursor:{p.cursorCount}%", { p with cursorCount := p.cursorCount + 1 })

/-! ### Forms of calls -/

/-- A text between double braces. -/
def braced (text : String) : String := "\x7b\x7b" ++ text ++ "\x7d\x7d"

/-- The fault of a keyword with too few or too many positional arguments. -/
def wrongCount (label : String) (least : Nat) (most : Option Nat) (count : Nat) (span : Span) :
    Fault :=
  let expected := match most with
    | none => s!"at least {least}"
    | some most => if most == least then s!"exactly {least}" else s!"between {least} and {most}"
  let noun := if least == 1 && most.all (· == 1) then "argument" else "arguments"
  .ofStructure .E2011
    s!"`{label}` requires {expected} positional {noun}, but received {count}" span

/-- Refuses named arguments that a keyword does not take. -/
def checkNamed (label : String) (allowed : List String) (hash : Hash Template.Expr) : Walk Unit :=
  match hash.pairs.find? fun pair => !allowed.contains pair.key with
  | none => pure ()
  | some pair =>
    let reason := match allowed with
      | [] => s!"does not take any named arguments, but received `{pair.key}`"
      | _ :: _ =>
        let list := String.intercalate "`, `" allowed
        s!"does not take a named argument `{pair.key}`; it only accepts `{list}`"
    throw (.ofStructure .E2011 s!"`{label}` {reason}" pair.span)

/-- The span of the arguments of a call, or the given one if it has none. -/
def argsSpan (params : List Template.Expr) (hash : Hash Template.Expr) (fallback : Span) : Span :=
  match params.map Template.Expr.span ++ (if hash.pairs.isEmpty then [] else [hash.span]) with
  | [] => fallback
  | first :: rest => rest.foldl Span.merge first

end TemplateCompiler.Resolved
