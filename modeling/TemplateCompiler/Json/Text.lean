/-
JSON values and their two text forms.

* `Json.write` — the compact form: no blanks at all;
* `Json.writePretty` — the indented form: one element a line, two blanks a
  level, and empty collections closed at once.

Design notes: both writers take the text that follows and put their own in
front of it, so that writing takes time linear in the text, and so that "no
value's text runs on into another's" can be said of any continuation.  Fields
of an object keep the order in which they are given.
-/
import TemplateCompiler.Number.Layout

namespace TemplateCompiler

/-- A JSON value. -/
inductive Json where
  | null
  | bool (value : Bool)
  | int (value : Int)
  | float (value : Binary64)
  | str (value : String)
  | arr (items : List Json)
  | obj (fields : List (String × Json))
deriving Inhabited

namespace Json

/-- The natural numbers as JSON numbers. -/
def nat (n : Nat) : Json := .int n

/-- An array of strings. -/
def strings (values : List String) : Json := .arr (values.map .str)

/-- The two hexadecimal digits of a number below 256. -/
def hexPair (n : Nat) : List Char :=
  [Nat.digitChar (n / 16 % 16), Nat.digitChar (n % 16)]

/-- One character inside a JSON string: quotes, backslashes and control
characters are escaped, everything else stands for itself. -/
def escapedChar (c : Char) : List Char :=
  if c == '"' then ['\\', '"']
  else if c == '\\' then ['\\', '\\']
  else if c == '\n' then ['\\', 'n']
  else if c == '\r' then ['\\', 'r']
  else if c == '\t' then ['\\', 't']
  else if c == '\x08' then ['\\', 'b']
  else if c == '\x0c' then ['\\', 'f']
  else if c.toNat < 0x20 then ['\\', 'u', '0', '0'] ++ hexPair c.toNat
  else [c]

/-- The characters of a JSON string after its opening quote, and the closing
quote. -/
def writeEscaped (rest : List Char) : List Char → List Char
  | [] => '"' :: rest
  | c :: cs => escapedChar c ++ writeEscaped rest cs

/-- A JSON string. -/
def writeString (text : String) (rest : List Char) : List Char :=
  '"' :: writeEscaped rest text.toList

/-- A value that holds no others. -/
def leafText : Json → List Char
  | .null => "null".toList
  | .bool value => (if value then "true" else "false").toList
  | .int value => (toString value).toList
  | .float value =>
    (if value.isFinite then Number.render .wire value else "null").toList
  | .str _ | .arr _ | .obj _ => []

mutual

/-- The compact text of a value, in front of `rest`. -/
def write : Json → List Char → List Char
  | .str value, rest => writeString value rest
  | .arr items, rest => '[' :: writeItems items (']' :: rest)
  | .obj fields, rest => '{' :: writeFields fields ('}' :: rest)
  | leaf, rest => leafText leaf ++ rest

/-- The items of an array, separated by commas. -/
def writeItems : List Json → List Char → List Char
  | [], rest => rest
  | item :: items, rest =>
    write item (match items with
      | [] => rest
      | _ :: _ => ',' :: writeItems items rest)

/-- The fields of an object, separated by commas. -/
def writeFields : List (String × Json) → List Char → List Char
  | [], rest => rest
  | (key, value) :: fields, rest =>
    writeString key (':' :: write value (match fields with
      | [] => rest
      | _ :: _ => ',' :: writeFields fields rest))

end

/-- A line break and the indentation of a level. -/
def newline (level : Nat) (rest : List Char) : List Char :=
  '\n' :: (List.replicate (2 * level) ' ' ++ rest)

mutual

/-- The indented text of a value at a level, in front of `rest`. -/
def writePretty (level : Nat) : Json → List Char → List Char
  | .str value, rest => writeString value rest
  | .arr [], rest => '[' :: ']' :: rest
  | .arr items, rest => '[' :: writePrettyItems (level + 1) items (newline level (']' :: rest))
  | .obj [], rest => '{' :: '}' :: rest
  | .obj fields, rest =>
    '{' :: writePrettyFields (level + 1) fields (newline level ('}' :: rest))
  | leaf, rest => leafText leaf ++ rest

/-- The items of an array, each on its own line. -/
def writePrettyItems (level : Nat) : List Json → List Char → List Char
  | [], rest => rest
  | item :: items, rest =>
    newline level (writePretty level item (match items with
      | [] => rest
      | _ :: _ => ',' :: writePrettyItems level items rest))

/-- The fields of an object, each on its own line. -/
def writePrettyFields (level : Nat) : List (String × Json) → List Char → List Char
  | [], rest => rest
  | (key, value) :: fields, rest =>
    newline level (writeString key (':' :: ' ' :: writePretty level value (match fields with
      | [] => rest
      | _ :: _ => ',' :: writePrettyFields level fields rest)))

end

/-- The compact text of a value. -/
def compact (value : Json) : String := String.ofList (value.write [])

/-- The indented text of a value. -/
def pretty (value : Json) : String := String.ofList (value.writePretty 0 [])

end Json

end TemplateCompiler
