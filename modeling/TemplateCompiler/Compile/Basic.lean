/-
Compiling templates.

A template is parsed, changed by plugins, resolved and encoded.

* `CompileOptions` — how a template is to be compiled;
* `Compiled` — a program, with the warnings and the names it used;
* `compile` — a template;
* `compileBatch` — several templates with the same options.
-/
import TemplateCompiler.Plugin.Basic
import TemplateCompiler.Resolved.Content
import TemplateCompiler.Template.Parse
import TemplateCompiler.Wire.Encode

namespace TemplateCompiler

/-- The name of a module that has none. -/
def defaultModuleName : String := "an unknown module"

/-- How a template is to be compiled. -/
structure CompileOptions where
  moduleName : String := defaultModuleName
  /-- Free names must be among `locals`. -/
  strict : Bool := false
  /-- The names that surrounding code provides to a strict template. -/
  locals : List String := []
  /-- The registered name for the tag of a component. -/
  customize : Option (String → String) := none
  plugins : List Plugin := []
  mode : Markup.Mode := .precompile

namespace CompileOptions

/-- How the names of a template are to be resolved. -/
def settings (o : CompileOptions) : Resolved.Settings :=
  { strict := o.strict, locals := o.locals, customize := o.customize }

/-- What plugins are told. -/
def pluginEnv (o : CompileOptions) : PluginEnv := { moduleName := o.moduleName, strict := o.strict }

end CompileOptions

/-- A compiled template. -/
structure Compiled where
  program : Wire.Program
  /-- The provided names that the template used. -/
  usedLocals : List String
  warnings : List Diagnostic
deriving Inhabited

/-- What came of a compile. -/
structure CompileOutcome where
  result : Except Fault Compiled
  /-- What plugins logged. -/
  log : List String := []
  /-- The tags of components that were customized. -/
  customized : List String := []

/-- Compiles a parsed template. -/
def compileTemplate (o : CompileOptions) (t : Template) (warnings : List Diagnostic) :
    CompileOutcome :=
  match Plugin.runAll o.pluginEnv o.plugins t with
  | (.error fault, log) => { result := .error fault, log }
  | (.ok t, log) =>
    let (resolved, progress) := t.resolve o.settings
    { result := resolved.map fun body =>
        { program := body.encode progress.symbols
          usedLocals := progress.symbols.usedLocals
          warnings }
      log
      customized := progress.componentNames.map Prod.fst }

/-- Compiles a template. -/
def compile (o : CompileOptions) (text : String) : CompileOutcome :=
  match Template.parse ⟨text, o.moduleName⟩ o.mode with
  | .error fault => { result := .error fault }
  | .ok (t, warnings) => compileTemplate o t warnings

/-- Compiles templates, each with the name of its module. -/
def compileBatch (o : CompileOptions) (sources : List (String × String)) : List CompileOutcome :=
  sources.map fun (moduleName, text) => compile { o with moduleName } text

end TemplateCompiler
