/-
Fatal problems.

* `Fault` — what stopped a phase and where, as a span of the source;
* `Failure` — a fault located in a source: with module name, line, column and
  the text it quotes;
* `Fault.locate` — the failure that a fault is in a given source.

The phases of a compile only know spans, so they report faults. The source is
consulted once, when the compile as a whole fails.
-/
import TemplateCompiler.Diagnostic.Basic
import TemplateCompiler.Source.Index

namespace TemplateCompiler

/-- What sort of fault stopped a compile. -/
inductive FaultKind where
  /-- A tag has a token that its grammar does not take there: what it would
  have taken, and what was found. -/
  | parse (expected : List String) (found : String)
  /-- The structure of the template, or the use of a keyword, is wrong. -/
  | structural
  /-- A name could not be resolved. -/
  | resolution
  /-- A plugin failed. -/
  | plugin
deriving DecidableEq, Repr, Inhabited

/-- What stopped a phase of a compile, and where. -/
structure Fault where
  code : Code
  kind : FaultKind
  message : String
  span : Span
  /-- Other places worth pointing at. -/
  related : List (Span × String) := []
  /-- The text of the problem that caused this one. -/
  cause : Option String := none
deriving DecidableEq, Repr, Inhabited

namespace Fault

/-- A fault in the structure of the template. -/
def ofStructure (code : Code) (message : String) (span : Span) : Fault :=
  { code, kind := .structural, message, span }

/-- A fault in the resolution of a name. -/
def ofResolution (code : Code) (message : String) (span : Span) : Fault :=
  { code, kind := .resolution, message, span }

/-- Points at a second place. -/
def withRelated (f : Fault) (span : Span) (message : String) : Fault :=
  { f with related := f.related ++ [(span, message)] }

/-- The remark at the place of a fault. -/
def remark (f : Fault) : String :=
  match f.kind with
  | .parse [] found => s!"unexpected {found}"
  | .parse expected found =>
    let list := String.intercalate ", " expected
    s!"expected {list}, found {found}"
  | .structural | .resolution => ""
  | .plugin => "while running a plugin"

/-- The diagnostic form of a fault. -/
def toDiagnostic (f : Fault) : Diagnostic :=
  { code := f.code
    severity := .error
    message := f.message
    labels := ⟨f.span, f.remark, true⟩ :: f.related.map fun (span, text) => ⟨span, text, false⟩
    notes := f.cause.toList }

end Fault

/-- A fault located in its source. -/
structure Failure where
  fault : Fault
  moduleName : String
  position : Position
  snippet : String
deriving DecidableEq, Repr, Inhabited

/-- Locates a fault in its source. -/
def Fault.locate (f : Fault) (source : Source) : Failure :=
  { fault := f
    moduleName := source.moduleName
    position := source.position f.span.start
    snippet := source.snippet f.span }

/-- Puts a bar in front of the second and later lines of a text. -/
def guttered : List Char → List Char
  | [] => []
  | '\n' :: rest => '\n' :: '|' :: ' ' :: ' ' :: guttered rest
  | c :: rest => c :: guttered rest

/-- The full text of a failure: the message, the quoted source and the place. -/
def Failure.text (f : Failure) : String :=
  let quotedSource := String.ofList (guttered f.snippet.toList)
  f.fault.message ++ ": \n\n|\n|  " ++ quotedSource ++ "\n|\n\n(error occurred in '"
    ++ f.moduleName ++ "' @ line " ++ Nat.repr f.position.line ++ " : column "
    ++ Nat.repr f.position.column ++ ")"

end TemplateCompiler
