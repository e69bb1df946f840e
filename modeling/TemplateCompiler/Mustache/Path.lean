/-
Paths from their segments.

A path is written as names with dots between them, possibly after an at sign.
`Segment.toPath` puts the segments together and refuses what a template path
cannot be: slashes, `.` and `..`, and `this` anywhere but in front.
-/
import TemplateCompiler.Diagnostic.Failure
import TemplateCompiler.Template.Syntax

namespace TemplateCompiler.Mustache

open Template (Head Path)

/-- A name of a path, with the separator before it. -/
structure Segment where
  separator : Option Char
  raw : String
deriving DecidableEq, Repr, Inhabited

/-- A name without the brackets around it. -/
def unbracket : List Char → List Char
  | '[' :: rest => if rest.getLast? = some ']' then rest.dropLast else '[' :: rest
  | name => name

/-- The name that an identifier token stands for. -/
def idName (raw : String) : String := String.ofList (unbracket raw.toList)

/-- What is wrong with a path. -/
inductive PathProblem where
  /-- `this`, `.` or `..` stands after another segment. -/
  | misplaced (written : String)
  | currentContext
  | parentContext
  | mixedSeparators
  | loneDot
  | emptyArgumentName
  | emptyName
deriving DecidableEq, Repr

/-- The message for a problem. -/
def PathProblem.message : PathProblem → String
  | .misplaced written => s!"Invalid path: {written}"
  | .currentContext => "Using \"./\" is not supported in Glimmer and unnecessary"
  | .parentContext => "Changing context using \"../\" is not supported in Glimmer"
  | .mixedSeparators =>
    "Mixing '.' and '/' in paths is not supported in Glimmer; use only '.' to separate property paths"
  | .loneDot => "'.' is not a supported path in Glimmer; check for a path with a trailing '.'"
  | .emptyArgumentName =>
    "Attempted to parse a path expression, but it was not valid. Paths beginning with @ must start with a-z."
  | .emptyName =>
    "Attempted to parse a path expression, but it was not valid. Paths must start with a-z or A-Z."

namespace Segment

/-- Whether a segment is one of the words that may only stand in front. -/
def isContextWord (s : Segment) : Bool := s.raw == ".." || s.raw == "." || s.raw == "this"

/-- Joins segments: the path as it is written, and its names.  Words for a
context add no name. -/
def join : List Char → List String → List Segment → Except PathProblem (List Char × List String)
  | written, parts, [] => .ok (written, parts)
  | written, parts, s :: rest =>
    let part := unbracket s.raw.toList
    let written := written ++ s.separator.toList ++ part
    if s.isContextWord then
      if parts.isEmpty then join written parts rest
      else .error (.misplaced (String.ofList written))
    else join written (parts ++ [String.ofList part]) rest

/-- The names of a path, after the rules for slashes and dots. -/
def checkSeparators (written : List Char) (parts : List String) :
    Except PathProblem (List String) :=
  if written.contains '/' then
    if "./".toList.isPrefixOf written then .error .currentContext
    else if "../".toList.isPrefixOf written then .error .parentContext
    else if written.contains '.' then .error .mixedSeparators
    else .ok [String.intercalate "/" parts]
  else if written = ['.'] then .error .loneDot
  else .ok parts

/-- Whether a path, as it is written, starts from `this`. -/
def startsWithThis (written : List Char) : Bool :=
  written == "this".toList
    || ("this.".toList.isPrefixOf written && 5 < Text.byteLength written)

/-- Splits the names of a path into its head and the rest. -/
def splitHead (data : Bool) (written : List Char) (parts : List String) :
    Except PathProblem (Head × List String) :=
  if startsWithThis written then .ok (.this, parts)
  else
    match parts with
    | name :: tail =>
      if name.isEmpty then .error (if data then .emptyArgumentName else .emptyName)
      else .ok (if data then .at name else .var name, tail)
    | [] => .error (if data then .emptyArgumentName else .emptyName)

/-- The head, tail and spelling of a path with the given segments. -/
def assemble (data : Bool) (segments : List Segment) :
    Except PathProblem (Head × List String × String) := do
  let (written, parts) ← join (if data then ['@'] else []) [] segments
  let parts ← checkSeparators written parts
  let (head, tail) ← splitHead data written parts
  return (head, tail, String.ofList written)

/-- The path with the given segments. -/
def toPath (data : Bool) (segments : List Segment) (span : Span) : Except Fault Path :=
  match assemble data segments with
  | .ok (head, tail, written) => .ok { head, tail, written, span }
  | .error problem => .error (Fault.ofStructure .E1003 problem.message span)

end Segment

end TemplateCompiler.Mustache
