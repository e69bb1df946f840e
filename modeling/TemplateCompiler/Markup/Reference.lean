/-
Character references.

Between an ampersand and a semicolon stands the body of a reference: `#` and a
decimal number, `#x` and a hexadecimal one, or a name.  A `Resolver` gives the
text that a body stands for; a body without one leaves the ampersand as it is.

* `Resolver.html` — numbers and the common names;
* `Resolver.none` — nothing is decoded;
* `Resolver.shouting` — every body is answered, in capitals and brackets, which
  shows where references were read.
-/
import TemplateCompiler.Markup.State

namespace TemplateCompiler.Markup

/-- Gives the text that the body of a reference stands for. -/
abbrev Resolver := List Char → Option (List Char)

namespace Reference

/-- The named characters, by code point. -/
def named : List (String × Nat) := [
  ("AElig", 0xc6), ("Aacute", 0xc1), ("Agrave", 0xc0), ("Alpha", 0x391), ("Beta", 0x392),
  ("Ccedil", 0xc7), ("Delta", 0x394), ("Eacute", 0xc9), ("Gamma", 0x393), ("Ntilde", 0xd1),
  ("Omega", 0x3a9), ("Ouml", 0xd6), ("Uuml", 0xdc), ("aacute", 0xe1), ("acute", 0xb4),
  ("aelig", 0xe6), ("agrave", 0xe0), ("alpha", 0x3b1), ("amp", 0x26), ("apos", 0x27),
  ("auml", 0xe4), ("beta", 0x3b2), ("brvbar", 0xa6), ("bull", 0x2022), ("ccedil", 0xe7),
  ("cent", 0xa2), ("check", 0x2713), ("copy", 0xa9), ("darr", 0x2193), ("deg", 0xb0),
  ("delta", 0x3b4), ("divide", 0xf7), ("eacute", 0xe9), ("egrave", 0xe8), ("emsp", 0x2003),
  ("ensp", 0x2002), ("euml", 0xeb), ("euro", 0x20ac), ("frac12", 0xbd), ("frac14", 0xbc),
  ("frac34", 0xbe), ("gamma", 0x3b3), ("ge", 0x2265), ("gt", 0x3e), ("harr", 0x2194),
  ("hearts", 0x2665), ("hellip", 0x2026), ("iacute", 0xed), ("iexcl", 0xa1), ("infin", 0x221e),
  ("iquest", 0xbf), ("laquo", 0xab), ("larr", 0x2190), ("ldquo", 0x201c), ("le", 0x2264),
  ("lsaquo", 0x2039), ("lsquo", 0x2018), ("lt", 0x3c), ("mdash", 0x2014), ("micro", 0xb5),
  ("middot", 0xb7), ("nbsp", 0xa0), ("ndash", 0x2013), ("ne", 0x2260), ("not", 0xac),
  ("ntilde", 0xf1), ("oacute", 0xf3), ("omega", 0x3c9), ("ouml", 0xf6), ("para", 0xb6),
  ("pi", 0x3c0), ("plusmn", 0xb1), ("pound", 0xa3), ("quot", 0x22), ("raquo", 0xbb),
  ("rarr", 0x2192), ("rdquo", 0x201d), ("reg", 0xae), ("rsaquo", 0x203a), ("rsquo", 0x2019),
  ("sect", 0xa7), ("shy", 0xad), ("sup2", 0xb2), ("szlig", 0xdf), ("thinsp", 0x2009),
  ("times", 0xd7), ("trade", 0x2122), ("uacute", 0xfa), ("uarr", 0x2191), ("uuml", 0xfc),
  ("yen", 0xa5), ("zwj", 0x200d), ("zwnj", 0x200c)]

/-- The value of a hexadecimal digit. -/
def hexValue? (c : Char) : Option Nat :=
  if '0' ≤ c ∧ c ≤ '9' then some (c.toNat - '0'.toNat)
  else if 'a' ≤ c ∧ c ≤ 'f' then some (c.toNat - 'a'.toNat + 10)
  else if 'A' ≤ c ∧ c ≤ 'F' then some (c.toNat - 'A'.toNat + 10)
  else none

/-- The value of a decimal digit. -/
def decimalValue? (c : Char) : Option Nat :=
  if '0' ≤ c ∧ c ≤ '9' then some (c.toNat - '0'.toNat) else none

/-- The number that digits spell in a base; `none` when one of them is no
digit. -/
def spelled? (base : Nat) (digit? : Char → Option Nat) : Nat → List Char → Option Nat
  | value, [] => some value
  | value, c :: rest => do
    let d ← digit? c
    spelled? base digit? (base * value + d) rest

/-- The number of a numeric body: at least one digit, and at most
32 bits. -/
def number? (base : Nat) (digit? : Char → Option Nat) (digits : List Char) : Option Nat :=
  if digits.isEmpty then none
  else (spelled? base digit? 0 digits).filter (· ≤ 0xffffffff)

/-- The character with a code; codes of no character, and zero, give the
replacement character. -/
def charOfCode (code : Nat) : Char :=
  if code ≠ 0 ∧ code.isValidChar then Char.ofNat code else Char.ofNat 0xfffd

/-- The code of a numeric body, after its `#`. -/
def code? : List Char → Option Nat
  | 'x' :: digits | 'X' :: digits => number? 16 hexValue? digits
  | digits => number? 10 decimalValue? digits

/-- The text that a reference stands for. -/
def resolve? : Resolver
  | '#' :: body => (code? body).map fun code => [charOfCode code]
  | body => (named.lookup (String.ofList body)).map fun code => [Char.ofNat code]

end Reference

/-- Decodes numbers and the common names. -/
def Resolver.html : Resolver := Reference.resolve?

/-- Decodes nothing. -/
def Resolver.none : Resolver := fun _ => Option.none

/-- Answers every body that is not empty, in capitals and in brackets. -/
def Resolver.shouting : Resolver
  | [] => Option.none
  | body => some ('[' :: body.map Char.toUpper ++ [']'])

/-- What a mode decodes. -/
def Resolver.ofMode : Mode → Resolver
  | .precompile => Resolver.html
  | .codemod => Resolver.none

end TemplateCompiler.Markup
