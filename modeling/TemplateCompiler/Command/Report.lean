/-
What the command line shows of tokens and problems.

* `Markup.Token.line` — a token on a line;
* `tokenListing` — all tokens of a text, and its problems;
* `Diagnostic.report` — a diagnostic with the places it points at.
-/
import TemplateCompiler.Diagnostic.Failure
import TemplateCompiler.Markup.Token
import TemplateCompiler.Text.Quoted

namespace TemplateCompiler

/-- A token on a line. -/
def Markup.Token.line (token : Markup.Token) : String :=
  let shown : String := match token with
    | .startTag name attributes selfClosing _ =>
      let slash := if selfClosing then " /" else ""
      let names := String.intercalate ", " (attributes.map Markup.Attribute.name)
      s!"StartTag <{name}{slash}> [{names}]"
    | .endTag name _ => s!"EndTag </{name}>"
    | .chars text _ => "Chars " ++ Text.quoted text
    | .comment text _ => "Comment " ++ Text.quoted text
  s!"  {shown} @ {token.span.start}..{token.span.stop}"

/-- The lines that list the tokens of a text and its problems. -/
def tokenListing (path : String) (text : String) : List String :=
  let (tokens, problems) := Markup.tokenize .precompile text.toList
  let problemLine : Markup.LocatedProblem → String := fun (problem, pos) =>
    s!"  {problem.message} @ {pos}"
  s!"Tokens for '{path}' ({tokens.length} tokens):" :: tokens.map Markup.Token.line ++
    if problems.isEmpty then [] else "" :: "Errors:" :: problems.map problemLine

/-- The word for a severity at the head of a report. -/
def Severity.title : Severity → String
  | .error => "Error"
  | .warning => "Warning"

/-- The lines that show a diagnostic: its heading, the places it points at with
their remarks, and its notes. -/
def Diagnostic.report (d : Diagnostic) (source : Source) : List String :=
  let placeLine : Label → String := fun label =>
    let place := source.moduleName ++ ":" ++ (source.position label.span.start).text
    if label.message.isEmpty then s!"  at {place}" else s!"  at {place}: {label.message}"
  s!"[{d.code.text}] {d.severity.title}: {d.message}" :: d.labels.map placeLine ++
    d.notes.map fun note => s!"  note: {note}"

end TemplateCompiler
