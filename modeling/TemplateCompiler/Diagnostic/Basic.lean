/-
Diagnostics: what a compile tells its user.

A diagnostic has a code, a severity, a message, labelled places in the source
and notes.  Problems of the markup reader become warnings; a fatal fault
becomes an error (see `Failure`).
-/
import TemplateCompiler.Diagnostic.Code
import TemplateCompiler.Source.Span

namespace TemplateCompiler

/-- How grave a diagnostic is. -/
inductive Severity where
  | error
  | warning
deriving DecidableEq, Repr, Inhabited

/-- The word for a severity. -/
def Severity.text : Severity → String
  | .error => "error"
  | .warning => "warning"

/-- A place in the source with a remark; the primary labels are where the
problem is. -/
structure Label where
  span : Span
  message : String
  isPrimary : Bool
deriving DecidableEq, Repr, Inhabited

/-- A problem as it is shown to the user. -/
structure Diagnostic where
  code : Code
  severity : Severity
  message : String := ""
  labels : List Label := []
  notes : List String := []
deriving DecidableEq, Repr, Inhabited

namespace Diagnostic

/-- Adds a label where the problem is. -/
def withLabel (d : Diagnostic) (span : Span) (message : String) : Diagnostic :=
  { d with labels := d.labels ++ [⟨span, message, true⟩] }

/-- Adds a label for context. -/
def withSecondaryLabel (d : Diagnostic) (span : Span) (message : String) : Diagnostic :=
  { d with labels := d.labels ++ [⟨span, message, false⟩] }

/-- Adds a note. -/
def withNote (d : Diagnostic) (note : String) : Diagnostic :=
  { d with notes := d.notes ++ [note] }

/-- Whether the diagnostic is an error. -/
def isError (d : Diagnostic) : Bool := d.severity == .error

/-- The span of the first primary label. -/
def primarySpan? (d : Diagnostic) : Option Span :=
  (d.labels.find? (·.isPrimary)).map (·.span)

/-- The heading line `severity[code]: message`. -/
def heading (d : Diagnostic) : String :=
  s!"{d.severity.text}[{d.code.text}]: {d.message}"

end Diagnostic

end TemplateCompiler
