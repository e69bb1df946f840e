/-
The command line.

`run` answers a list of arguments: what is printed, what is complained about,
and whether all went well.

* `Reply` — the answer;
* `run` — the commands `compile`, `tokens`, `ast`, `help` and `version`.

Design notes: files are read through an argument of `run` in any monad, so that
the same definition serves the program, which reads a disk, and statements
about it, which read a given folder (`Folder.read`).
-/
import TemplateCompiler.Command.Arguments
import TemplateCompiler.Command.Folder
import TemplateCompiler.Command.Report
import TemplateCompiler.Compile.Precompiled
import TemplateCompiler.Template.Outline

namespace TemplateCompiler.Command

/-! ### Replies -/

/-- The answer to a command. -/
structure Reply where
  succeeded : Bool := true
  /-- The lines that are printed. -/
  printed : List String := []
  /-- The lines of complaints. -/
  complaints : List String := []
deriving DecidableEq, Repr, Inhabited

namespace Reply

/-- The exit status. -/
def exitStatus (r : Reply) : UInt32 := if r.succeeded then 0 else 1

/-- One reply and then another; all is well if both went well. -/
def andThen (first second : Reply) : Reply :=
  { succeeded := first.succeeded && second.succeeded
    printed := first.printed ++ second.printed
    complaints := first.complaints ++ second.complaints }

/-- Lines as a text in which each is ended. -/
def linesText (lines : List String) : String := String.join (lines.map (· ++ "\n"))

/-- The text that is printed. -/
def output (r : Reply) : String := linesText r.printed

/-- The text of the complaints. -/
def errors (r : Reply) : String := linesText r.complaints

end Reply

/-! ### Compiling -/

/-- How a request wants the file at a path to be compiled. -/
def CompileRequest.options (r : CompileRequest) (path : String) : CompileOptions :=
  { moduleName := r.moduleName.getD path, strict := r.strict, locals := r.locals }

/-- The text that a request wants of a compiled template. -/
def CompileRequest.render (r : CompileRequest) (o : CompileOptions) (c : Compiled) : String :=
  let json := if r.precompile then (Precompiled.ofCompiled o c).toJson else c.program.toJson
  if r.pretty then json.pretty else json.compact

/-- The complaint about a file that was not compiled. -/
def compileComplaint (path : String) (report : List String) : Reply :=
  { succeeded := false, complaints := s!"error compiling '{path}':" :: report }

/-- Compiles the text of a file.  The object to be embedded comes without
warnings. -/
def compileText (r : CompileRequest) (path : String) (text : String) : Reply :=
  let o := r.options path
  let source : Source := ⟨text, o.moduleName⟩
  match (compile o text).result with
  | .error fault => compileComplaint path (fault.toDiagnostic.report source)
  | .ok compiled =>
    { printed := [r.render o compiled]
      complaints := if r.precompile then [] else compiled.warnings.flatMap (·.report source) }

/-- Compiles a file. -/
def compileFile (r : CompileRequest) (path : String) : FileText → Reply
  | .error problem => compileComplaint path [problem.message path]
  | .ok text => compileText r path text

/-! ### Looking at a file -/

/-- Lists the tokens of a file. -/
def showTokens (path : String) : FileText → Reply
  | .error problem => { succeeded := false, complaints := ["error: " ++ problem.message path] }
  | .ok text => { printed := tokenListing path text }

/-- Shows the tree of a file. -/
def showTree (path : String) : FileText → Reply
  | .error problem => { succeeded := false, complaints := ["error: " ++ problem.message path] }
  | .ok text =>
    let source : Source := ⟨text, path⟩
    match Template.parse source .precompile with
    | .error fault => { succeeded := false, complaints := fault.toDiagnostic.report source }
    | .ok (template, warnings) =>
      { printed := [s!"Template for '{path}':", template.outline.text]
        complaints := warnings.flatMap (·.report source) }

/-! ### Commands -/

/-- The text of the help command. -/
def usage : List String := [
  "Stencil template compiler",
  "",
  "Usage: stencil <command> [options]",
  "",
  "Commands:",
  "  compile <file.hbs>...  Compile templates to wire-format JSON",
  "  tokens <file.hbs>      Show HTML tokens (debugging)",
  "  ast <file.hbs>         Show the parsed template tree (debugging)",
  "  help                   Show this help message",
  "  version                Show version",
  "",
  "Compile options:",
  "  --strict               Strict mode: free names must be listed in --locals",
  "  --locals a,b           Names provided by the embedding scope",
  "  --module-name N        Module name used in error messages",
  "  --precompile           Print the embeddable wrapper object",
  "  --pretty               Indent the JSON output",
  "",
  "Logging: RUST_LOG=stencil_normalize=trace, STENCIL_LOG_TREE=1 for tree output"]

/-- How the compile command is used. -/
def compileUsage : String :=
  "Usage: stencil compile [--strict] [--locals a,b] [--module-name N] [--precompile] [--pretty] " ++
    "<file.hbs>..."

/-- The version. -/
def version : String := "stencil 0.1.0-alpha.1"

section Commands

variable {m : Type → Type} [Monad m] (read : String → m FileText)

/-- Compiles files one after another. -/
def runCompile (r : CompileRequest) : List String → m Reply
  | [] => pure {}
  | path :: rest => do
    let reply := compileFile r path (← read path)
    return reply.andThen (← runCompile r rest)

/-- Looks at the first file named; there must be one. -/
def runShow (command : String) (show' : String → FileText → Reply) : List String → m Reply
  | [] => pure { succeeded := false, complaints := [s!"Usage: stencil {command} <file.hbs>"] }
  | path :: _ => return show' path (← read path)

/-- Answers the arguments of the program. -/
def run : List String → m Reply
  | [] => pure { succeeded := false, printed := usage }
  | "compile" :: rest =>
    match CompileRequest.ofArguments rest with
    | .ok request => runCompile read request request.files
    | .error e =>
      pure { succeeded := false, complaints := ["error: " ++ e.message, compileUsage] }
  | "tokens" :: rest => runShow read "tokens" showTokens rest
  | "ast" :: rest => runShow read "ast" showTree rest
  | "help" :: _ | "--help" :: _ | "-h" :: _ => pure { printed := usage }
  | "version" :: _ | "--version" :: _ | "-V" :: _ => pure { printed := [version] }
  | other :: _ =>
    pure
      { succeeded := false
        printed := usage
        complaints := [s!"error: unknown command '{other}'"] }

end Commands

end TemplateCompiler.Command
