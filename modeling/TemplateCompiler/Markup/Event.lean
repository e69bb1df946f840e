/-
What the markup reader reports.

Reading a text yields a list of events: where tags, comments, texts and
attributes begin and end, and their characters one by one.  Positions are byte
offsets.  The beginning of a tag or comment is where its `<` stands, and an end
is just past the last byte.
-/
namespace TemplateCompiler.Markup

/-- A mistake in the markup that does not stop the reader. -/
inductive Problem where
  /-- An attribute name starts with an equals sign. -/
  | leadingEquals
  /-- A quote or an angle bracket stands in an attribute name. -/
  | strayInName (c : Char)
deriving DecidableEq, Repr, Inhabited

/-- The message for a mistake. -/
def Problem.message : Problem → String
  | .leadingEquals => "attribute name cannot start with equals sign"
  | .strayInName c => String.singleton c ++ " is not a valid character within attribute names"

/-- What the reader reports while it reads. -/
inductive Event where
  | reset
  | tagOpen (pos : Nat)
  | beginData (pos : Nat)
  | data (c : Char)
  | finishData (pos : Nat)
  | beginComment (pos : Nat)
  | commentData (c : Char)
  | finishComment (pos : Nat)
  | beginStartTag (pos : Nat)
  | beginEndTag (pos : Nat)
  | tagName (c : Char)
  | selfClosing
  | finishTag (pos : Nat)
  | beginAttribute (pos : Nat)
  | attributeName (c : Char)
  | beginAttributeValue (quoted : Bool) (pos : Nat)
  | attributeValue (c : Char) (pos : Nat)
  | finishAttributeValue (pos : Nat)
  | problem (p : Problem) (pos : Nat)
deriving DecidableEq, Repr, Inhabited

end TemplateCompiler.Markup
