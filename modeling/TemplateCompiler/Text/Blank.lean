/-
Classes of characters.

* `inRanges` — a class that is given by ranges of code points;
* `isBlank` — the 25 characters that Unicode gives the property `White_Space`.
  Tags skip blanks between their parts, and whitespace control removes them at
  the edges of text.
-/
namespace TemplateCompiler.Text

/-- Whether a character lies in one of the ranges `(first, last)`. -/
def inRanges (ranges : List (Nat × Nat)) (c : Char) : Bool :=
  ranges.any fun (first, last) => first ≤ c.toNat && c.toNat ≤ last

/-- Whether a character is blank: tab, the line and page breaks, the space, the
no-break spaces and the typographic spaces. -/
def isBlank (c : Char) : Bool :=
  let n := c.toNat
  (0x9 ≤ n && n ≤ 0xd) || n == 0x20 || n == 0x85 || n == 0xa0 || n == 0x1680 ||
    (0x2000 ≤ n && n ≤ 0x200a) || n == 0x2028 || n == 0x2029 || n == 0x202f ||
    n == 0x205f || n == 0x3000

/-- The text without the blanks at its start. -/
def trimStart (cs : List Char) : List Char := cs.dropWhile isBlank

/-- The text without the blanks at its end. -/
def trimEnd (cs : List Char) : List Char := (cs.reverse.dropWhile isBlank).reverse

/-- The text without the blanks at either end. -/
def trim (cs : List Char) : List Char := trimEnd (trimStart cs)

end TemplateCompiler.Text
