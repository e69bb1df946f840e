/-
A template before its markup is read.

At this level a template is text with tags among it: text is still raw, while
tags are parsed and blocks hold programs of their own.  Whitespace control
works on this tree; after it the text is read as markup.
-/
import TemplateCompiler.Template.Syntax

namespace TemplateCompiler.Mustache

open Template (MustacheTag PartialTag BlockTag Block)

/-- A run of text between tags. -/
structure Content where
  /-- The text that whitespace control leaves. -/
  value : List Char
  /-- The text as it was read. -/
  written : List Char
  /-- Where the first character of `value` stands. -/
  valueStart : Nat
  span : Span
  /-- Whether whitespace control last removed something at the end. -/
  leftStripped : Bool := false
  /-- Whether whitespace control last removed something at the start. -/
  rightStripped : Bool := false
deriving DecidableEq, Repr, Inhabited

/-- A run of text as it was read. -/
def Content.ofText (text : String) (span : Span) : Content :=
  { value := text.toList, written := text.toList, valueStart := span.start, span }

/-- A statement of a template before its markup is read. -/
inductive Node where
  | content (content : Content)
  | comment (value : String) (strip : Strip) (span : Span)
  | mustache (tag : MustacheTag)
  | partialCall (tag : PartialTag)
  | block (tag : BlockTag) (program : Block Node) (inverse : Option (Block Node))
deriving Inhabited

/-- A list of statements with the names it declares. -/
abbrev Program := Block Node

end TemplateCompiler.Mustache
