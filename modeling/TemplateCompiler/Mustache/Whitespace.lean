/-
Whitespace control.

Two rules remove blanks from the text around tags:

* a tilde at the edge of a tag removes all blanks on that side;
* a block tag, an `else`, a comment or a partial that stands alone on its line
  takes its indentation and the line break after it away, so that control flow
  leaves no empty lines behind.

`stripProgram` applies both to a program.

Design notes: whether a tag stands alone is decided on the text as it was read,
which no rule changes.  So each run of text can be stripped knowing only its
neighbours: first as the tag before it asks, then as the tag after it asks.
The tags around a block strip the first and last runs of its branches after
these have been stripped on the inside.
-/
import TemplateCompiler.Mustache.Program
import TemplateCompiler.Text.Blank
import TemplateCompiler.Text.Bytes

namespace TemplateCompiler.Mustache

open Template (Block BlockTag)

/-! ### One run of text -/

/-- A blank that indents a line. -/
def isIndent (c : Char) : Bool := c == ' ' || c == '\t'

/-- The text without its indentation and one line break, if it begins so. -/
def dropLineStart (cs : List Char) : List Char :=
  match cs.dropWhile isIndent with
  | '\r' :: '\n' :: rest => rest
  | '\r' :: rest => rest
  | '\n' :: rest => rest
  | rest => rest

namespace Content

/-- Removes blanks at the start: all of them, or, once, the rest of a line. -/
def stripStart (c : Content) (all : Bool) : Content :=
  if !all && c.rightStripped then c
  else
    let kept := if all then Text.trimStart c.value else dropLineStart c.value
    { c with
      value := kept
      valueStart := c.valueStart + (Text.byteLength c.value - Text.byteLength kept)
      rightStripped := kept.length < c.value.length }

/-- Removes blanks at the end: all of them, or, once, the indentation. -/
def stripEnd (c : Content) (all : Bool) : Content :=
  if !all && c.leftStripped then c
  else
    let kept := if all then Text.trimEnd c.value else Text.dropEndWhile isIndent c.value
    { c with value := kept, leftStripped := kept.length < c.value.length }

end Content

/-- Changes the first statement if it is text. -/
def onFirst (f : Content → Content) : List Node → List Node
  | .content c :: rest => .content (f c) :: rest
  | body => body

/-- Changes the last statement if it is text. -/
def onLast (f : Content → Content) : List Node → List Node
  | [] => []
  | [.content c] => [.content (f c)]
  | node :: rest => node :: onLast f rest

/-- Applies a change when it is asked for. -/
def applyIf {α : Type} (asked : Bool) (f : α → α) (a : α) : α := if asked then f a else a

/-! ### Standing alone -/

/-- Whether the statements before a place, the nearest first, end a line there.
The start of a template counts as a line's start. -/
def endsLine (root : Bool) : List Node → Bool
  | [] => root
  | .content c :: rest =>
    let trailing := c.written.reverse.takeWhile Text.isBlank
    trailing.contains '\n'
      || (rest.isEmpty && root && trailing.length == c.written.length)
  | _ => false

/-- Whether the statements after a place begin a new line there.  The end of a
template counts as a line's end. -/
def startsLine (root : Bool) : List Node → Bool
  | [] => root
  | .content c :: rest =>
    let leading := c.written.takeWhile Text.isBlank
    leading.contains '\n'
      || (rest.isEmpty && root && leading.length == c.written.length)
  | _ => false

/-- The program whose text an `else` touches: the other branch itself, or the
body of the first link of a chain. -/
def inverseTarget (inverse : Program) : Program :=
  match inverse.chained, inverse.body with
  | true, .block _ program _ :: _ => program
  | _, _ => inverse

/-- Changes the program whose text an `else` touches. -/
def onInverseTarget (f : List Node → List Node) (inverse : Program) : Program :=
  match inverse.chained, inverse.body with
  | true, .block tag program other :: rest =>
    { inverse with body := .block tag { program with body := f program.body } other :: rest }
  | _, _ => { inverse with body := f inverse.body }

/-- What a statement asks of the text around it. -/
structure Edges where
  /-- Tildes. -/
  strip : Strip
  /-- A new line begins inside a block after its opening tag. -/
  openStandalone : Bool := false
  /-- A line ends inside a block before its closing tag. -/
  closeStandalone : Bool := false
  /-- The statement is one tag that may stand alone. -/
  inlineStandalone : Bool := false
deriving DecidableEq, Repr

/-- What a statement asks of the text around it; text asks nothing. -/
def Node.edges : Node → Option Edges
  | .content _ => none
  | .mustache tag => some { strip := tag.strip }
  | .comment _ strip _ => some { strip, inlineStandalone := true }
  | .partialCall tag => some { strip := tag.strip, inlineStandalone := true }
  | .block tag program inverse =>
    some
      { strip := ⟨tag.openStrip.before, tag.closeStrip.after⟩
        openStandalone := startsLine false program.body
        closeStandalone := endsLine false ((inverse.map inverseTarget).getD program).body.reverse }

/-- What a statement asks in its place: the tags of a block ask for a line only
where there is one on their other side too. -/
def Node.edgesAt (root : Bool) (before : List Node) (node : Node) (after : List Node) :
    Option Edges :=
  node.edges.map fun e =>
    { e with
      openStandalone := e.openStandalone && endsLine root before
      closeStandalone := e.closeStandalone && startsLine root after
      inlineStandalone := e.inlineStandalone && endsLine root before && startsLine root after }

/-- Strips the run of text after a statement as the statement asks. -/
def Edges.stripFollowing (e : Edges) (c : Content) : Content :=
  let c := applyIf e.strip.after (·.stripStart true) c
  let c := applyIf e.inlineStandalone (·.stripStart false) c
  applyIf e.closeStandalone (·.stripStart false) c

/-- Strips the run of text before a statement as the statement asks. -/
def Edges.stripPreceding (e : Edges) (c : Content) : Content :=
  let c := applyIf e.strip.before (·.stripEnd true) c
  let c := applyIf e.inlineStandalone (·.stripEnd false) c
  applyIf e.openStandalone (·.stripEnd false) c

/-! ### Blocks -/

/-- Strips the branches of a block at its own tags. -/
def stripBranches (tag : BlockTag) (program : Program) (inverse : Option Program) :
    Program × Option Program :=
  let body := applyIf tag.openStrip.after (onFirst (·.stripStart true)) program.body
  match inverse with
  | none =>
    ({ program with body := applyIf tag.closeStrip.before (onLast (·.stripEnd true)) body }, none)
  | some other =>
    let target := (inverseTarget other).body
    -- An `else` on its own line: the text on both sides gives its blanks up.
    let alone := endsLine false body.reverse && startsLine false target
    let body := applyIf tag.inverseStrip.before (onLast (·.stripEnd true)) body
    let body := applyIf alone (onLast (·.stripEnd false)) body
    let change := fun (nodes : List Node) =>
      let nodes := applyIf tag.inverseStrip.after (onFirst (·.stripStart true)) nodes
      let nodes := applyIf tag.closeStrip.before (onLast (·.stripEnd true)) nodes
      applyIf alone (onFirst (·.stripStart false)) nodes
    ({ program with body }, some (onInverseTarget change other))

/-- Takes the lines of a block's opening and closing tags out of its branches,
where they stand alone. -/
def stripStandalone (e : Edges) (branches : Program × Option Program) :
    Program × Option Program :=
  let (program, inverse) := branches
  let program :=
    { program with body := applyIf e.openStandalone (onFirst (·.stripStart false)) program.body }
  match inverse with
  | none =>
    ({ program with body := applyIf e.closeStandalone (onLast (·.stripEnd false)) program.body },
      none)
  | some other =>
    (program,
      some { other with body := applyIf e.closeStandalone (onLast (·.stripEnd false)) other.body })

/-! ### Programs -/

/-- Strips a run of text between its neighbours: `before` has the statements
before it, the nearest first. -/
def stripContent (root : Bool) (before : List Node) (c : Content) (after : List Node) : Content :=
  let c := match before with
    | [] => c
    | node :: rest =>
      match node.edgesAt root rest (.content c :: after) with
      | some e => e.stripFollowing c
      | none => c
  match after with
  | [] => c
  | node :: rest =>
    match node.edgesAt root (.content c :: before) rest with
    | some e => e.stripPreceding c
    | none => c

mutual

/-- Strips a statement in its place. -/
def stripNode (root : Bool) (before : List Node) (node : Node) (after : List Node) : Node :=
  match node with
  | .content c => .content (stripContent root before c after)
  | .block tag ⟨body, names, chained, span⟩ none =>
    let program : Program := ⟨stripBody false [] body, names, chained, span⟩
    let e := (Node.block tag ⟨body, names, chained, span⟩ none).edgesAt root before after
    let branches := stripStandalone (e.getD { strip := {} }) (stripBranches tag program none)
    .block tag branches.1 branches.2
  | .block tag ⟨body, names, chained, span⟩ (some ⟨other, otherNames, otherChained, otherSpan⟩) =>
    let program : Program := ⟨stripBody false [] body, names, chained, span⟩
    let inverse : Program := ⟨stripBody false [] other, otherNames, otherChained, otherSpan⟩
    let e := (Node.block tag ⟨body, names, chained, span⟩
      (some ⟨other, otherNames, otherChained, otherSpan⟩)).edgesAt root before after
    let branches := stripStandalone (e.getD { strip := {} })
      (stripBranches tag program (some inverse))
    .block tag branches.1 branches.2
  | node => node
  termination_by structural node

/-- Strips a list of statements; `before` has those before it, the nearest
first. -/
def stripBody (root : Bool) (before : List Node) : List Node → List Node
  | [] => []
  | node :: rest =>
    stripNode root before node rest :: stripBody root (node :: before) rest
  termination_by structural body => body

end

/-- A program after whitespace control. -/
def stripProgram (program : Program) : Program :=
  { program with body := stripBody true [] program.body }

end TemplateCompiler.Mustache
