/-
The arguments of the compile command.

Arguments are flags, settings with a value, and the paths of template files, in
any order.  The value of a setting is joined to it by an equals sign, or is the
next argument, whatever that looks like.  A later value of a setting takes the
place of an earlier one.

* `Argument.ofText` — what one argument is;
* `CompileRequest.ofArguments` — what the arguments ask for;
* `UsageError` — why they ask for nothing.
-/
import TemplateCompiler.Text.Blank

namespace TemplateCompiler.Command

/-- What is asked of the compile command. -/
structure CompileRequest where
  files : List String := []
  strict : Bool := false
  locals : List String := []
  /-- The name of the module, in place of the path of the file. -/
  moduleName : Option String := none
  /-- Print the object to be embedded, not the bare program. -/
  precompile : Bool := false
  pretty : Bool := false
deriving DecidableEq, Repr, Inhabited

/-- An option that stands alone. -/
inductive Flag where
  | strict
  | precompile
  | pretty
deriving DecidableEq, Repr, Inhabited

/-- An option with a value. -/
inductive Setting where
  | locals
  | moduleName
deriving DecidableEq, Repr, Inhabited

/-- How an option is written. -/
def Setting.text : Setting → String
  | .locals => "--locals"
  | .moduleName => "--module-name"

/-- Why arguments cannot be followed. -/
inductive UsageError where
  | missingValue (setting : Setting)
  | unknownOption (text : String)
  | noFiles
deriving DecidableEq, Repr, Inhabited

/-- The message for arguments that cannot be followed. -/
def UsageError.message : UsageError → String
  | .missingValue .locals => "--locals needs a comma-separated list"
  | .missingValue .moduleName => "--module-name needs a value"
  | .unknownOption text => s!"unknown option '{text}'"
  | .noFiles => "missing template file"

/-- What an argument is. -/
inductive Argument where
  | flag (flag : Flag)
  /-- A setting, with its value if that is joined to it. -/
  | setting (setting : Setting) (value : Option String)
  | unknown (text : String)
  | file (path : String)
deriving DecidableEq, Repr, Inhabited

namespace Argument

/-- The value that an argument joins to a setting by an equals sign. -/
def joinedValue? (setting : Setting) (text : String) : Option String :=
  ((setting.text.toList ++ ['=']).isPrefixOf? text.toList).map String.ofList

/-- What an argument is that is no option without a value of its own. -/
def ofOther (text : String) : Argument :=
  match joinedValue? .locals text, joinedValue? .moduleName text with
  | some list, _ => .setting .locals (some list)
  | none, some name => .setting .moduleName (some name)
  | none, none => if text.toList.head? == some '-' then .unknown text else .file text

/-- What an argument is. -/
def ofText (text : String) : Argument :=
  match text with
  | "--strict" => .flag .strict
  | "--precompile" => .flag .precompile
  | "--pretty" => .flag .pretty
  | "--locals" => .setting .locals none
  | "--module-name" => .setting .moduleName none
  | _ => ofOther text

end Argument

/-- The names in a list that commas divide, without blanks around them. -/
def namesInList (list : String) : List String :=
  (((list.toList.splitOn ',').map Text.trim).filter (!·.isEmpty)).map String.ofList

namespace CompileRequest

/-- Raises a flag. -/
def raise (r : CompileRequest) : Flag → CompileRequest
  | .strict => { r with strict := true }
  | .precompile => { r with precompile := true }
  | .pretty => { r with pretty := true }

/-- Gives a setting a value. -/
def assign (r : CompileRequest) (value : String) : Setting → CompileRequest
  | .locals => { r with locals := namesInList value }
  | .moduleName => { r with moduleName := some value }

/-- Follows the arguments from the first to the last. -/
def follow (r : CompileRequest) : List String → Except UsageError CompileRequest
  | [] => .ok r
  | text :: rest =>
    match Argument.ofText text with
    | .flag flag => follow (r.raise flag) rest
    | .setting setting (some value) => follow (r.assign value setting) rest
    | .setting setting none =>
      match rest with
      | [] => .error (.missingValue setting)
      | value :: rest => follow (r.assign value setting) rest
    | .unknown text => .error (.unknownOption text)
    | .file path => follow { r with files := r.files ++ [path] } rest

/-- What the arguments ask for. -/
def ofArguments (arguments : List String) : Except UsageError CompileRequest := do
  let r ← follow {} arguments
  if r.files.isEmpty then throw .noFiles
  return r

end CompileRequest

end TemplateCompiler.Command
