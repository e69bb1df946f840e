/-
Plugins.

A plugin changes the tree of a template before its names are resolved.

* `Plugin` — a name and what it does to a template;
* `Plugin.ofVisitor` — the plugin that runs a visitor;
* `Plugin.runAll` — several plugins, one after the other.
-/
import TemplateCompiler.Diagnostic.Failure
import TemplateCompiler.Template.Visitor

namespace TemplateCompiler

/-- What a plugin is told about a template. -/
structure PluginEnv where
  moduleName : String
  strict : Bool
deriving DecidableEq, Repr, Inhabited

/-- A change to the tree of a template. -/
structure Plugin where
  /-- The name of the plugin in messages. -/
  name : String
  /-- Changes a template, and reports what was done. -/
  apply : PluginEnv → Template → Except Template.VisitError Template × List String

namespace Plugin

/-- The plugin that runs a visitor.  `growth` is the number of levels that the
visitor's own nodes can add to the nesting of a template. -/
def ofVisitor {σ : Type} (name : String) (visitor : Template.Visitor σ) (growth : Nat)
    (start : PluginEnv → σ) (log : σ → List String) : Plugin where
  name := name
  apply env t :=
    match (t.traverse visitor (t.depth + growth)).run (start env) with
    | .ok t s => (.ok t, log s)
    | .error e s => (.error e, log s)

/-- The fault that a plugin has caused. -/
def fault (p : Plugin) (e : Template.VisitError) : Fault :=
  match e with
  | .hook message =>
    { code := .E4001
      kind := .plugin
      message := s!"Plugin `{p.name}` failed: {message}"
      span := e.span
      cause := some message }
  | _ => { code := .E4002, kind := .plugin, message := e.message, span := e.span }

/-- Runs plugins one after the other, up to the first that fails.  The answer
has the log of all that ran. -/
def runAll (env : PluginEnv) : List Plugin → Template → Except Fault Template × List String
  | [], t => (.ok t, [])
  | p :: rest, t =>
    match p.apply env t with
    | (.error e, log) => (.error (p.fault e), log)
    | (.ok t, log) =>
      let (result, more) := runAll env rest t
      (result, log ++ more)

end Plugin

end TemplateCompiler
