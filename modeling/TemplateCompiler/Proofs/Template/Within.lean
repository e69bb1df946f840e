/-
What is in a tree, at any depth.

* `Mustache.nodesWithin` — all statements of a program before its markup is read;
* `Template.statementsWithin` — all statements of a template.
-/
import TemplateCompiler.Mustache.Program

namespace TemplateCompiler.Mustache

mutual

/-- A statement and all statements in it. -/
def Node.within : Node → List Node
  | .content c => [.content c]
  | .comment value strip span => [.comment value strip span]
  | .mustache tag => [.mustache tag]
  | .partialCall tag => [.partialCall tag]
  | .block tag program other =>
    .block tag program other :: (programWithin program ++ otherWithin other)

/-- Statements and all statements in them. -/
def nodesWithin : List Node → List Node
  | [] => []
  | n :: rest => n.within ++ nodesWithin rest

/-- All statements in a program. -/
def programWithin : Program → List Node
  | ⟨body, _, _, _⟩ => nodesWithin body

/-- All statements in a program that may be missing. -/
def otherWithin : Option Program → List Node
  | none => []
  | some program => programWithin program

end

theorem programWithin_eq (program : Program) :
    programWithin program = nodesWithin program.body := by
  cases program
  simp only [programWithin]

end TemplateCompiler.Mustache

namespace TemplateCompiler.Template

mutual

/-- A statement and all statements in it. -/
def Statement.within : Statement → List Statement
  | .mustache tag => [.mustache tag]
  | .partialCall tag => [.partialCall tag]
  | .comment c => [.comment c]
  | .mustacheComment c => [.mustacheComment c]
  | .text node => [.text node]
  | .block tag program other =>
    .block tag program other :: (blockWithin program ++ otherWithin other)
  | .element tag children span => .element tag children span :: statementsWithin children

/-- Statements and all statements in them. -/
def statementsWithin : List Statement → List Statement
  | [] => []
  | s :: rest => s.within ++ statementsWithin rest

/-- All statements in a block. -/
def blockWithin : Block Statement → List Statement
  | ⟨body, _, _, _⟩ => statementsWithin body

/-- All statements in a block that may be missing. -/
def otherWithin : Option (Block Statement) → List Statement
  | none => []
  | some block => blockWithin block

end

theorem statementsWithin_append (a b : List Statement) :
    statementsWithin (a ++ b) = statementsWithin a ++ statementsWithin b := by
  induction a with
  | nil => simp [statementsWithin]
  | cons s rest ih => simp only [List.cons_append, statementsWithin, ih, List.append_assoc]

theorem statementsWithin_singleton (s : Statement) : statementsWithin [s] = s.within := by
  simp [statementsWithin]

end TemplateCompiler.Template
