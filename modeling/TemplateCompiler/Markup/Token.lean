/-
Markup as a list of tokens.

A `Tokenizer` reads markup in pieces and gathers what the reader reports into
tokens: start tags with their attributes, end tags, runs of text and comments.

* `Collector.observe` — what one event adds;
* `Tokenizer.feed`, `Tokenizer.finish` — read a piece, and the end of the text;
* `tokenize` — the tokens and problems of a whole text.
-/
import TemplateCompiler.Markup.Machine

namespace TemplateCompiler.Markup

/-- An attribute of a start tag. -/
structure Attribute where
  name : String
  value : String
  quoted : Bool
  span : Span
deriving DecidableEq, Repr, Inhabited

/-- A token of markup. -/
inductive Token where
  | startTag (name : String) (attributes : List Attribute) (selfClosing : Bool) (span : Span)
  | endTag (name : String) (span : Span)
  | chars (text : String) (span : Span)
  | comment (text : String) (span : Span)
deriving DecidableEq, Repr, Inhabited

namespace Token

/-- The bytes that a token stands for. -/
def span : Token → Span
  | startTag _ _ _ span | endTag _ span | chars _ span | comment _ span => span

/-- The token, ended at a position. -/
def endAt (pos : Nat) : Token → Token
  | startTag name attributes selfClosing span =>
    startTag name attributes selfClosing { span with stop := pos }
  | endTag name span => endTag name { span with stop := pos }
  | chars text span => chars text { span with stop := pos }
  | comment text span => comment text { span with stop := pos }

/-- The token with one more character of its name or text. -/
def push (c : Char) : Token → Token
  | startTag name attributes selfClosing span =>
    startTag (name.push c) attributes selfClosing span
  | endTag name span => endTag (name.push c) span
  | chars text span => chars (text.push c) span
  | comment text span => comment (text.push c) span

/-- The token marked as a tag that closes itself. -/
def markSelfClosing : Token → Token
  | startTag name attributes _ span => startTag name attributes true span
  | token => token

/-- The token with one more attribute, if it can have any. -/
def addAttribute (a : Attribute) : Token → Token
  | startTag name attributes selfClosing span =>
    startTag name (attributes ++ [a]) selfClosing span
  | token => token

end Token

/-- A problem with the position at which it was found. -/
abbrev LocatedProblem := Problem × Nat

/-- The tokens gathered so far, and the token and attribute still open. -/
structure Collector where
  tokens : List Token := []
  current : Option Token := none
  pending : Option Attribute := none
  problems : List LocatedProblem := []
deriving DecidableEq, Repr, Inhabited

namespace Collector

/-- Opens a token. -/
def begin (c : Collector) (token : Token) : Collector := { c with current := some token }

/-- Ends the open token. -/
def close (c : Collector) (pos : Nat) : Collector :=
  match c.current with
  | some token => { c with tokens := c.tokens ++ [token.endAt pos], current := none }
  | none => c

/-- Ends the open attribute, which joins the open start tag. -/
def closeAttribute (c : Collector) (pos : Nat) : Collector :=
  match c.pending with
  | some a =>
    { c with
      pending := none
      current := c.current.map (Token.addAttribute { a with span := { a.span with stop := pos } }) }
  | none => c

/-- What an event adds. -/
def observe (c : Collector) : Event → Collector
  | .reset => {}
  | .tagOpen _ => c
  | .beginData pos => c.begin (.chars "" (.point pos))
  | .beginComment pos => c.begin (.comment "" (.point pos))
  | .beginStartTag pos => c.begin (.startTag "" [] false (.point pos))
  | .beginEndTag pos => c.begin (.endTag "" (.point pos))
  | .data ch | .commentData ch | .tagName ch => { c with current := c.current.map (·.push ch) }
  | .selfClosing => { c with current := c.current.map (·.markSelfClosing) }
  | .finishData pos | .finishComment pos | .finishTag pos => c.close pos
  | .beginAttribute pos => { c with pending := some ⟨"", "", false, .point pos⟩ }
  | .attributeName ch =>
    { c with pending := c.pending.map fun a => { a with name := a.name.push ch } }
  | .beginAttributeValue quoted _ =>
    { c with pending := c.pending.map fun a => { a with quoted } }
  | .attributeValue ch _ =>
    { c with pending := c.pending.map fun a => { a with value := a.value.push ch } }
  | .finishAttributeValue pos => c.closeAttribute pos
  | .problem p pos => { c with problems := c.problems ++ [(p, pos)] }

/-- What a list of events adds. -/
def observeAll (c : Collector) (events : List Event) : Collector := events.foldl observe c

end Collector

/-- A reader that gathers tokens. -/
structure Tokenizer where
  machine : Machine
  collector : Collector := {}

namespace Tokenizer

/-- A tokenizer that has read nothing. -/
def ofMode (mode : Mode) : Tokenizer := { machine := { mode } }

/-- Takes over a machine and the events that led to it, and hands out the
tokens completed. -/
def advance (t : Tokenizer) (result : Machine × List Event) : Tokenizer × List Token :=
  let collector := t.collector.observeAll result.2
  ({ machine := result.1, collector := { collector with tokens := [] } }, collector.tokens)

/-- Reads a piece of text; gives the tokens that it completes. -/
def feed (t : Tokenizer) (text : List Char) : Tokenizer × List Token :=
  t.advance (t.machine.read text)

/-- Ends the text; gives the token that this completes. -/
def finish (t : Tokenizer) : Tokenizer × List Token := t.advance t.machine.flush

/-- Hands out the problems found since the last time. -/
def takeProblems (t : Tokenizer) : Tokenizer × List LocatedProblem :=
  ({ t with collector := { t.collector with problems := [] } }, t.collector.problems)

/-- Forgets everything read so far. -/
def reset (t : Tokenizer) : Tokenizer := (t.advance t.machine.reset).1

/-- Reads a whole text from the start. -/
def tokenize (t : Tokenizer) (text : List Char) :
    Tokenizer × List Token × List LocatedProblem :=
  let (t, first) := t.reset.feed text
  let (t, last) := t.finish
  let (t, problems) := t.takeProblems
  (t, first ++ last, problems)

end Tokenizer

/-- The tokens and problems of a whole text. -/
def tokenize (mode : Mode) (text : List Char) : List Token × List LocatedProblem :=
  ((Tokenizer.ofMode mode).tokenize text).2

end TemplateCompiler.Markup
