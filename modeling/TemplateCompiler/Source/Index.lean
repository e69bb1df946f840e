/-
Lines and columns of a source text.

A `Source` is a template text with the name of its module.  It answers, for
byte offsets, which line and column they have, and gives back pieces of the
text for messages:

* `Source.position` — line and column of an offset; lines count from one,
  columns from zero and in characters;
* `Source.offset?` — the offset of a position, when the text has it;
* `Source.lineText?` — a line without its end;
* `Source.snippet` — the text that a message quotes for a span.
-/
import TemplateCompiler.Source.Span
import TemplateCompiler.Text.Bytes

namespace TemplateCompiler

/-- A place in a text: lines count from one, columns from zero. -/
structure Position where
  line : Nat
  column : Nat
deriving DecidableEq, Repr, Inhabited

/-- The text `line:column`. -/
def Position.text (p : Position) : String := s!"{p.line}:{p.column}"

/-- A template text and the name of its module. -/
structure Source where
  text : String
  moduleName : String
deriving DecidableEq, Repr, Inhabited

namespace Source

/-- The offsets just after each line feed of a text that begins at `offset`. -/
def startsAfterFeeds (offset : Nat) : List Char → List Nat
  | [] => []
  | c :: rest =>
    let next := offset + c.utf8Size
    if c == '\n' then next :: startsAfterFeeds next rest else startsAfterFeeds next rest

/-- The offsets at which the lines begin; the first line begins at zero. -/
def lineStarts (source : Source) : List Nat := 0 :: startsAfterFeeds 0 source.text.toList

/-- The number of lines. -/
def lineCount (source : Source) : Nat := source.lineStarts.length

/-- The number of bytes of the text. -/
def length (source : Source) : Nat := Text.byteLength source.text.toList

/-- The line and column of an offset.  An offset past the end counts as the
end, and one inside a character counts bytes from the start of its line. -/
def position (source : Source) (offset : Nat) : Position :=
  let offset := min offset source.length
  let starts := source.lineStarts.takeWhile (· ≤ offset)
  let lineStart := starts.getLastD 0
  let column := match Text.slice? source.text.toList lineStart offset with
    | some part => part.length
    | none => offset - lineStart
  ⟨starts.length, column⟩

/-- Where the line with a zero-based index ends, before its line feed. -/
def lineStop (source : Source) (index : Nat) : Nat :=
  match source.lineStarts[index + 1]? with
  | some next => next - 1
  | none => source.length

/-- The characters of the line with a zero-based index, and where it begins. -/
def lineAt? (source : Source) (index : Nat) : Option (Nat × List Char) := do
  let start ← source.lineStarts[index]?
  let part ← Text.slice? source.text.toList start (source.lineStop index)
  some (start, part)

/-- The offset of a position.  The column after the last character is the end
of its line. -/
def offset? (source : Source) (p : Position) : Option Nat :=
  match p.line with
  | 0 => none
  | index + 1 => do
    let (start, part) ← source.lineAt? index
    if p.column ≤ part.length then some (start + Text.byteLength (part.take p.column))
    else none

/-- The text of a line, counted from one, without its line end. -/
def lineText? (source : Source) (line : Nat) : Option String :=
  match line with
  | 0 => none
  | index + 1 => do
    let (_, part) ← source.lineAt? index
    some (String.ofList (if part.getLast? == some '\r' then part.dropLast else part))

/-- The text that a span covers; empty for a dummy span and for one that does
not lie on characters of the text. -/
def slice (source : Source) (span : Span) : String :=
  if span.isDummy then ""
  else
    match Text.slice? source.text.toList span.start span.stop with
    | some part => String.ofList part
    | none => ""

/-- The text that a message quotes: what the span covers, or the line on which
it starts when it covers nothing. -/
def snippet (source : Source) (span : Span) : String :=
  let part := source.slice span
  if part.isEmpty then (source.lineText? (source.position span.start).line).getD ""
  else part

end Source

end TemplateCompiler
