/-
From source text to the tree of a template.

`Template.parse` cuts the text into tokens, reads the program they spell,
applies whitespace control when the template is to be run, and reads the text
of the program as markup.
-/
import TemplateCompiler.Mustache.Whitespace
import TemplateCompiler.Template.Builder

namespace TemplateCompiler.Template

/-- The tree of a template, and the warnings of its markup. -/
def parse (source : Source) (mode : Markup.Mode) : Except Fault (Template × List Diagnostic) := do
  let program ← Mustache.parseProgram (Mustache.lex source.text)
  let program := match mode with
    | .precompile => Mustache.stripProgram program
    | .codemod => program
  build source mode program

end TemplateCompiler.Template
