/-
Tokens of tags in double braces.

A template is text with tags in it.  The lexer cuts it into runs of text, whole
comments and the tokens inside tags; the last token is always `eof`.

A tilde at the edge of a tag asks for the text on that side to be stripped.  The
tokens that open or close a tag carry the mark of their edge, and those that are
a whole tag carry both.
-/
import TemplateCompiler.Number.Binary
import TemplateCompiler.Source.Span

namespace TemplateCompiler

/-- Whether a tag strips the text before it and the text after it. -/
structure Strip where
  before : Bool := false
  after : Bool := false
deriving DecidableEq, Repr, Inhabited

namespace Mustache

/-- What a token is. -/
inductive TokenKind where
  | content (value : String)
  | comment (value : String) (strip : Strip)
  /-- Two braces, with an ampersand for trusted output or without. -/
  | open (strip : Bool) (ampersand : Bool)
  | openUnescaped (strip : Bool)
  | openBlock (strip : Bool)
  | openEndBlock (strip : Bool)
  | openInverse (strip : Bool)
  /-- `else` with more after it. -/
  | openInverseChain (strip : Bool)
  /-- A whole `else` tag. -/
  | inverse (strip : Strip)
  | openPartial (strip : Bool)
  | openPartialBlock
  | openDecorator
  | openDecoratorBlock
  | openRawBlock
  | close (strip : Bool)
  | closeUnescaped (strip : Bool)
  | openSexpr
  | closeSexpr
  | equals
  /-- The at sign. -/
  | data
  /-- A dot or slash between the segments of a path. -/
  | sep (mark : Char)
  /-- An identifier; a segment in brackets keeps its brackets. -/
  | id (name : String)
  | string (value : String)
  | number (value : Binary64)
  | boolean (value : Bool)
  | undefined
  | null
  /-- `as` and a bar. -/
  | openBlockParams
  /-- A bar. -/
  | closeBlockParams
  | invalid (c : Char)
  | eof
deriving DecidableEq, Repr, Inhabited

/-- The name of a kind of token in messages. -/
def TokenKind.name : TokenKind → String
  | .content _ => "CONTENT"
  | .comment _ _ => "COMMENT"
  | .open _ _ => "OPEN"
  | .openUnescaped _ => "OPEN_UNESCAPED"
  | .openBlock _ => "OPEN_BLOCK"
  | .openEndBlock _ => "OPEN_ENDBLOCK"
  | .openInverse _ => "OPEN_INVERSE"
  | .openInverseChain _ => "OPEN_INVERSE_CHAIN"
  | .inverse _ => "INVERSE"
  | .openPartial _ => "OPEN_PARTIAL"
  | .openPartialBlock => "OPEN_PARTIAL_BLOCK"
  | .openDecorator => "OPEN_DECORATOR"
  | .openDecoratorBlock => "OPEN_DECORATOR_BLOCK"
  | .openRawBlock => "OPEN_RAW_BLOCK"
  | .close _ => "CLOSE"
  | .closeUnescaped _ => "CLOSE_UNESCAPED"
  | .openSexpr => "OPEN_SEXPR"
  | .closeSexpr => "CLOSE_SEXPR"
  | .equals => "EQUALS"
  | .data => "DATA"
  | .sep _ => "SEP"
  | .id _ => "ID"
  | .string _ => "STRING"
  | .number _ => "NUMBER"
  | .boolean _ => "BOOLEAN"
  | .undefined => "UNDEFINED"
  | .null => "NULL"
  | .openBlockParams => "OPEN_BLOCK_PARAMS"
  | .closeBlockParams => "CLOSE_BLOCK_PARAMS"
  | .invalid _ => "INVALID"
  | .eof => "EOF"

/-- A token and the bytes that it stands for. -/
structure Token where
  kind : TokenKind
  span : Span
deriving DecidableEq, Repr, Inhabited

end Mustache

end TemplateCompiler
