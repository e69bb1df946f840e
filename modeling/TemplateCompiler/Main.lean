/-
The program: reads files from the disk, and answers its arguments.
-/
import TemplateCompiler.Command.Run

namespace TemplateCompiler

open Command in
/-- What is wrong when the system refuses to hand out a file. -/
def readProblemOf : IO.Error → ReadProblem
  | .noFileOrDirectory .. => .notFound
  | .permissionDenied .. => .denied
  | .inappropriateType _ code reason => .refused s!"{reason} (os error {code})"
  | e => .refused (toString e)

open Command in
/-- Reads a file of text. -/
def readFile (path : String) : IO FileText := do
  match ← (IO.FS.readBinFile path).toBaseIO with
  | .error e => return .error (readProblemOf e)
  | .ok bytes =>
    match String.fromUTF8? bytes with
    | some text => return .ok text
    | none => return .error .notText

end TemplateCompiler

/-- Answers the arguments of the program. -/
def main (arguments : List String) : IO UInt32 := do
  let reply ← TemplateCompiler.Command.run TemplateCompiler.readFile arguments
  IO.print reply.output
  IO.eprint reply.errors
  return reply.exitStatus
