/-
Indented outlines of trees.

An `Outline` is what is left of a tree when it is to be read by people: texts,
lists, records with named fields, and values under the name of their kind.
`Outline.text` writes one item a line, four blanks a level, with a comma after
every item; an empty list is closed at once.
-/
import TemplateCompiler.Text.Quoted

namespace TemplateCompiler

/-- A tree as it is printed. -/
inductive Outline where
  /-- A value that fits on a line. -/
  | leaf (text : String)
  | list (items : List Outline)
  | record (name : String) (fields : List (String × Outline))
  /-- A value under the name of its kind. -/
  | tagged (name : String) (item : Outline)
deriving Inhabited

namespace Outline

/-- A truth value. -/
def bool (value : Bool) : Outline := .leaf (if value then "true" else "false")

/-- A text in quotes. -/
def string (text : String) : Outline := .leaf (Text.quoted text)

/-- Texts in quotes. -/
def strings (texts : List String) : Outline := .list (texts.map string)

/-- A value that may be missing. -/
def option : Option Outline → Outline
  | none => .leaf "None"
  | some item => .tagged "Some" item

/-- A line break and the indentation of a level. -/
def newline (level : Nat) (rest : List Char) : List Char :=
  '\n' :: (List.replicate (4 * level) ' ' ++ rest)

mutual

/-- The text of an outline at a level, in front of `rest`. -/
def write (level : Nat) : Outline → List Char → List Char
  | .leaf text, rest => text.toList ++ rest
  | .list [], rest => '[' :: ']' :: rest
  | .list items, rest => '[' :: writeItems (level + 1) items (newline level (']' :: rest))
  | .record name fields, rest =>
    name.toList ++ ' ' :: '{' :: writeFields (level + 1) fields (newline level ('}' :: rest))
  | .tagged name item, rest =>
    name.toList ++
      '(' :: newline (level + 1) (write (level + 1) item (',' :: newline level (')' :: rest)))

/-- The items of a list, each on its own line. -/
def writeItems (level : Nat) : List Outline → List Char → List Char
  | [], rest => rest
  | item :: items, rest =>
    newline level (write level item (',' :: writeItems level items rest))

/-- The fields of a record, each on its own line. -/
def writeFields (level : Nat) : List (String × Outline) → List Char → List Char
  | [], rest => rest
  | (name, value) :: fields, rest =>
    newline level (name.toList ++
      ':' :: ' ' :: write level value (',' :: writeFields level fields rest))

end

/-- The text of an outline. -/
def text (outline : Outline) : String := String.ofList (outline.write 0 [])

end Outline

end TemplateCompiler
