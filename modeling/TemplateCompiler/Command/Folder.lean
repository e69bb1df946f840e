/-
Files that are read by path.

A path is walked name by name, starting in the folder that holds the files:

* `ReadProblem` — why a file could not be read, and the message for it;
* `Folder` — the files in a folder and below it;
* `Folder.enter` — one step of a path;
* `Folder.read` — the text at the end of a path.

A step up is taken from where the path has led, never by cutting the path short,
so every name before it has to lead to a folder that is there. Of the folders
around the given one nothing is known but that they are folders.
-/
namespace TemplateCompiler.Command

/-- Why a file could not be read. -/
inductive ReadProblem where
  | notFound
  | denied
  /-- The bytes of the file spell no text. -/
  | notText
  /-- The path leads to a folder. -/
  | isFolder
  /-- The path goes on behind a file. -/
  | notFolder
  /-- A name of the path, or the path itself, is too long. -/
  | nameTooLong
  /-- Any other refusal of the system, in its own words. -/
  | refused (reason : String)
deriving DecidableEq, Repr, Inhabited

namespace ReadProblem

/-- The message for a file that the system refuses to hand out. -/
def refusal (path reason : String) : String := s!"error reading '{path}': {reason}"

/-- The message for a file that could not be read. -/
def message (path : String) : ReadProblem → String
  | notFound => s!"cannot find file '{path}'"
  | denied => s!"permission denied reading '{path}'"
  | notText => s!"'{path}' contains invalid UTF-8 data"
  | isFolder => refusal path "Is a directory (os error 21)"
  | notFolder => refusal path "Not a directory (os error 20)"
  | nameTooLong => refusal path "File name too long (os error 36)"
  | refused reason => refusal path reason

end ReadProblem

/-- The text of a file, or why there is none. -/
abbrev FileText := Except ReadProblem String

/-- A folder: the files in it and below it, each under the names that lead to
it. -/
structure Folder where
  files : List (List String × FileText)

/-- Where a path has led. -/
inductive Place where
  /-- A folder, given by the names that lead to it. -/
  | folder (names : List String)
  /-- A folder around the one that holds the files. -/
  | outside
  | file (text : FileText)
deriving Inhabited

namespace Folder

/-- The most bytes that a name can have. -/
def maxNameBytes : Nat := 255

/-- The most bytes that a path can have. -/
def maxPathBytes : Nat := 4095

/-- Whether names lead to a folder with something in it. -/
def holds (d : Folder) (names : List String) : Bool :=
  d.files.any fun (place, _) => names.isPrefixOf place && names != place

/-- Where a name leads in a folder that is itself reached by names. -/
def find (d : Folder) (names : List String) : Except ReadProblem Place :=
  match d.files.lookup names with
  | some text => .ok (.file text)
  | none => if d.holds names then .ok (.folder names) else .error .notFound

/-- The folder around a folder. -/
def above : List String → Place
  | [] => .outside
  | names => .folder names.dropLast

/-- One step of a path. -/
def enter (d : Folder) : Place → String → Except ReadProblem Place
  | .file _, _ => .error .notFolder
  | place, "" | place, "." => .ok place
  | .outside, ".." => .ok .outside
  | .folder names, ".." => .ok (above names)
  | place, name =>
    if maxNameBytes < name.utf8ByteSize then .error .nameTooLong
    else
      match place with
      | .folder names => d.find (names ++ [name])
      | _ => .error .notFound

/-- The names that a path leads through.  Two slashes in a row enclose an empty
name. -/
def steps (path : String) : List String := (path.toList.splitOn '/').map String.ofList

/-- Where a path starts: with a slash in front it starts outside. -/
def start (path : String) : Place :=
  if path.toList.head? = some '/' then .outside else .folder []

/-- The text at the end of a path. -/
def read (d : Folder) (path : String) : FileText := do
  if path.isEmpty then throw .notFound
  if maxPathBytes < path.utf8ByteSize then throw .nameTooLong
  match ← (steps path).foldlM d.enter (start path) with
  | .file text => text
  | _ => throw .isFolder

end Folder

end TemplateCompiler.Command
