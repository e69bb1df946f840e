/-
Plugins made of rules.

A rule says what to do with the nodes of a kind, or with those of them that
have a certain key: the name of an element, the chars of a text, the path of a
call.  The first rule that fits a node acts on it.  A rule acts at most twenty
times, so the nodes it puts in cannot make a walk endless.

* `Rule`, `Rule.Action` — rules;
* `RuleRun` — the state of a walk: how often each rule has acted, and the log
  of the nodes that were visited;
* `Rule.visitor` — the visitor that applies rules;
* `Plugin.ofRules` — the plugin that does so.
-/
import TemplateCompiler.Plugin.Basic
import TemplateCompiler.Template.Parse

namespace TemplateCompiler

/-- Where the visited node is put among the nodes that replace it. -/
inductive SelfPlace where
  | nowhere
  | first
  | last
deriving DecidableEq, Repr, Inhabited

/-- What a rule does with a node. -/
inductive Rule.Action where
  | keep
  /-- The walk fails with a message. -/
  | fail (message : String)
  | remove
  /-- The key becomes another. -/
  | rename (text : String)
  /-- The declared names become others. -/
  | params (names : List String)
  /-- The nodes of a template of its own come in the place of the node. -/
  | replace (source : String) (self : SelfPlace)
deriving DecidableEq, Repr, Inhabited

/-- A rule for the nodes of one kind. -/
structure Rule where
  /-- The kind of node. -/
  kind : String
  /-- The key that a node must have, if only some are meant. -/
  key? : Option String
  action : Rule.Action
deriving DecidableEq, Repr, Inhabited

/-- The state of a walk with rules. -/
structure RuleRun where
  /-- The rules, each with the number of times it has acted. -/
  rules : List (Rule × Nat)
  /-- The nodes that were visited. -/
  log : List String := []
deriving Inhabited

namespace Rule

/-- How often a rule acts at most. -/
def limit : Nat := 20

/-- Whether a rule acts on a node of a kind with a key. -/
def fits (kind key : String) (r : Rule) : Bool :=
  r.kind == kind && r.key?.all (· == key)

/-- The action of the first rule that fits and may still act, which is counted. -/
def choose (kind key : String) : List (Rule × Nat) → Option Action × List (Rule × Nat)
  | [] => (none, [])
  | (r, count) :: rest =>
    if r.fits kind key && count < limit then (some r.action, (r, count + 1) :: rest)
    else
      let (action, rest) := choose kind key rest
      (action, (r, count) :: rest)

/-- Logs a node, and finds what to do with it. -/
def consult (kind key : String) : EStateM String RuleRun Action := do
  let run ← get
  let (action, rules) := choose kind key run.rules
  set { rules, log := run.log ++ [s!"{kind} {key}"] : RuleRun }
  return action.getD .keep

open Template

/-- How rules see the nodes of a kind. -/
structure View (ν α : Type) where
  kind : String
  key : ν → String
  rename : String → ν → ν
  params : List String → ν → ν := fun _ node => node
  /-- The node as one of those that can come in its place. -/
  node : ν → α
  /-- What a template of a rule's own puts in the place of a node. -/
  nodes : Template → List α

/-- The hook that applies rules to the nodes of a kind. -/
def hook {ν α : Type} (view : View ν α) : Hook RuleRun ν α := fun node => do
  match ← consult view.kind (view.key node) with
  | .keep => return (node, .keep)
  | .fail message => throw message
  | .remove => return (node, .replace [])
  | .rename text => return (view.rename text node, .keep)
  | .params names => return (view.params names node, .keep)
  | .replace source self =>
    match Template.parse ⟨source, ""⟩ .precompile with
    | .error fault => throw fault.message
    | .ok (t, _) =>
      let nodes := view.nodes t
      return (node, .replace (match self with
        | .nowhere => nodes
        | .first => view.node node :: nodes
        | .last => nodes ++ [view.node node]))

/-! ### Keys and names -/

/-- The key of a callee: the path, a parenthesis, or the literal. -/
def calleeKey : Expr → String
  | .path p => p.written
  | .sub _ _ => "("
  | .literal value _ => Mustache.literalText value

/-- Makes a path a bare name. -/
def renamePath (text : String) (p : Path) : Path :=
  { p with head := .var text, tail := [], written := text }

/-- Makes a callee that is a path a bare name. -/
def renameCallee (text : String) (call : Call Expr) : Call Expr :=
  match call.callee with
  | .path p => { call with callee := .path (renamePath text p) }
  | _ => call

/-- The first mustache that no other statement holds. -/
def firstMustache? (t : Template) : Option MustacheTag :=
  t.body.findSome? fun
    | .mustache tag => some tag
    | _ => none

/-- The start tag of the first element that no other statement holds. -/
def firstTag? (t : Template) : Option StartTag :=
  t.body.findSome? fun
    | .element tag _ _ => some tag
    | _ => none

/-- The positional arguments of the first mustache. -/
def firstParams (t : Template) : List Expr := ((firstMustache? t).map (·.call.params)).getD []

/-! ### The visitor -/

/-- The visitor that applies rules. -/
def visitor : Visitor RuleRun where
  mustache := hook
    { kind := "mustache"
      key := fun tag => calleeKey tag.call.callee
      rename := fun text tag => { tag with call := renameCallee text tag.call }
      node := .mustache
      nodes := Template.body }
  block := hook
    { kind := "block"
      key := fun node => calleeKey node.tag.call.callee
      rename := fun text node => { node with tag.call := renameCallee text node.tag.call }
      params := fun names node => { node with program.params := names }
      node := fun node => .block node.tag node.program node.inverse
      nodes := Template.body }
  partialCall := hook
    { kind := "partial"
      key := fun tag => calleeKey tag.call.callee
      rename := fun text tag => { tag with call := renameCallee text tag.call }
      node := .partialCall
      nodes := Template.body }
  comment := hook
    { kind := "comment"
      key := Comment.value
      rename := fun text c => { c with value := text }
      node := .comment
      nodes := Template.body }
  mustacheComment := hook
    { kind := "mustache_comment"
      key := Comment.value
      rename := fun text c => { c with value := text }
      node := .mustacheComment
      nodes := Template.body }
  text := hook
    { kind := "text"
      key := TextNode.chars
      rename := fun text node => { node with chars := text }
      node := .text
      nodes := Template.body }
  element := hook
    { kind := "element"
      key := fun node => node.tag.name
      rename := fun text node => { node with tag.name := text }
      params := fun names node => { node with tag.blockParams := names }
      node := fun node => .element node.tag node.children node.span
      nodes := Template.body }
  attr := hook
    { kind := "attribute"
      key := Attr.name
      rename := fun text attr => { attr with name := text }
      node := id
      nodes := fun t => ((firstTag? t).map StartTag.attributes).getD [] }
  modifier := hook
    { kind := "modifier"
      key := fun m => calleeKey m.call.callee
      rename := fun text m => { m with call := renameCallee text m.call }
      node := id
      nodes := fun t => ((firstTag? t).map StartTag.modifiers).getD [] }
  path := hook
    { kind := "path"
      key := Path.written
      rename := renamePath
      node := .path
      nodes := firstParams }
  sub := hook
    { kind := "sub_expression"
      key := fun node => calleeKey node.call.callee
      rename := fun text node => { node with call := renameCallee text node.call }
      node := fun node => .sub node.call node.span
      nodes := firstParams }
  literal := hook
    { kind := "literal"
      key := fun node => Mustache.literalText node.value
      rename := fun text node => { node with value := .string text }
      node := fun node => .literal node.value node.span
      nodes := firstParams }
  pair := hook
    { kind := "hash_pair"
      key := Pair.key
      rename := fun text pair => { pair with key := text }
      node := id
      nodes := fun t => ((firstMustache? t).map (·.call.hash.pairs)).getD [] }

/-- A bound on the levels that an action adds to the nesting of a template. -/
def Action.growth : Action → Nat
  | .replace source _ => source.length + 1
  | _ => 0

/-- A bound on the levels that rules add to the nesting of a template. -/
def growth (rules : List Rule) : Nat :=
  rules.foldr (fun r levels => limit * r.action.growth + levels) 0

/-- The state before a walk with rules. -/
def start (rules : List Rule) (log : List String) : RuleRun :=
  { rules := rules.map fun r => (r, 0), log }

/-- Applies rules to a template, and reports the nodes that were visited. -/
def applyAll (rules : List Rule) (t : Template) : Except VisitError Template × List String :=
  match (t.traverse visitor (t.depth + growth rules)).run (start rules []) with
  | .ok t run => (.ok t, run.log)
  | .error e run => (.error e, run.log)

end Rule

namespace Plugin

/-- The plugin that applies rules.  Its log starts with what it was told. -/
def ofRules (name : String) (rules : List Rule) : Plugin :=
  ofVisitor name Rule.visitor (Rule.growth rules)
    (fun env =>
      let strict := if env.strict then "true" else "false"
      Rule.start rules [s!"begin {name} {env.moduleName} {strict}"])
    RuleRun.log

/-- The plugin that changes nothing. -/
def idle (name : String) : Plugin :=
  ofVisitor name { : Template.Visitor Unit } 0 (fun _ => ()) fun _ => []

end Plugin

end TemplateCompiler
