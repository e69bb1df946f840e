/-
The states of the markup reader.

A reader of markup is between tags, inside a tag or inside a comment; its state
says exactly where.  Tags in double braces are placed by the state in which the
text before them leaves the reader.
-/
namespace TemplateCompiler.Markup

/-- What the reader is used for. -/
inductive Mode where
  /-- For running: character references are decoded, and the line break right
  after a preformatted element's start tag is dropped. -/
  | precompile
  /-- For printing back: text is kept as it stands. -/
  | codemod
deriving DecidableEq, Repr, Inhabited

/-- Where the reader is. -/
inductive State where
  | beforeData
  | data
  | tagOpen
  | markupDeclarationOpen
  | commentStart
  | commentStartDash
  | comment
  | commentEndDash
  | commentEnd
  | tagName
  | endTagName
  | beforeAttributeName
  | attributeName
  | afterAttributeName
  | beforeAttributeValue
  | attributeValueDoubleQuoted
  | attributeValueSingleQuoted
  | attributeValueUnquoted
  | afterAttributeValueQuoted
  | selfClosingStartTag
  | endTagOpen
deriving DecidableEq, Repr, Inhabited

namespace State

/-- All states. -/
def all : List State :=
  [beforeData, data, tagOpen, markupDeclarationOpen, commentStart, commentStartDash, comment,
    commentEndDash, commentEnd, tagName, endTagName, beforeAttributeName, attributeName,
    afterAttributeName, beforeAttributeValue, attributeValueDoubleQuoted,
    attributeValueSingleQuoted, attributeValueUnquoted, afterAttributeValueQuoted,
    selfClosingStartTag, endTagOpen]

/-- The name of a state in messages. -/
def name : State → String
  | beforeData => "beforeData"
  | data => "data"
  | tagOpen => "tagOpen"
  | markupDeclarationOpen => "markupDeclarationOpen"
  | commentStart => "commentStart"
  | commentStartDash => "commentStartDash"
  | comment => "comment"
  | commentEndDash => "commentEndDash"
  | commentEnd => "commentEnd"
  | tagName => "tagName"
  | endTagName => "endTagName"
  | beforeAttributeName => "beforeAttributeName"
  | attributeName => "attributeName"
  | afterAttributeName => "afterAttributeName"
  | beforeAttributeValue => "beforeAttributeValue"
  | attributeValueDoubleQuoted => "attributeValueDoubleQuoted"
  | attributeValueSingleQuoted => "attributeValueSingleQuoted"
  | attributeValueUnquoted => "attributeValueUnquoted"
  | afterAttributeValueQuoted => "afterAttributeValueQuoted"
  | selfClosingStartTag => "selfClosingStartTag"
  | endTagOpen => "endTagOpen"

/-- The state with a given name. -/
def ofName? (text : String) : Option State := all.find? fun s => s.name == text

/-- Between tags, where text and blocks may stand. -/
def isData : State → Bool
  | beforeData | data => true
  | _ => false

/-- Inside an attribute value. -/
def isAttributeValue : State → Bool
  | attributeValueDoubleQuoted | attributeValueSingleQuoted | attributeValueUnquoted => true
  | _ => false

/-- Inside a comment. -/
def isComment : State → Bool
  | commentStart | commentStartDash | comment | commentEndDash | commentEnd => true
  | _ => false

/-- How many states can still be passed through before a character is read.
Every step that reads nothing lowers the rank. -/
def rank : State → Nat
  | afterAttributeValueQuoted | selfClosingStartTag => 2
  | beforeAttributeName | beforeData => 1
  | _ => 0

theorem rank_le (s : State) : s.rank ≤ 2 := by
  cases s <;> decide

/-- The state with a state's name is that state. -/
theorem ofName?_name (s : State) : ofName? s.name = some s := by
  cases s <;> decide

end State

end TemplateCompiler.Markup
