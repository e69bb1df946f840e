/-
How a double is written.

A `Layout` records the decisions of one text format for numbers; `render`
writes a double by it.  Three formats are used:

* `Layout.wire` — program texts: positional for exponents from -5 to 15, always
  with a fraction, an explicit sign on other exponents, and no infinity;
* `Layout.plain` — messages: always positional and without a needless fraction;
* `Layout.outline` — printed trees: positional from 10 ^ -4 up to 10 ^ 16.
-/
import TemplateCompiler.Number.Shortest

namespace TemplateCompiler.Number

/-- The decisions of a text format for numbers. -/
structure Layout where
  /-- Exponents from the first to the second are written positionally; all are
  when there are no bounds. -/
  positional : Option (Int × Int)
  /-- Whether an integer is written with `.0`. -/
  pointZero : Bool
  /-- What stands before a positive exponent. -/
  positiveMark : String
  /-- Which of two equally near decimals is taken. -/
  tie : DecimalTie
  /-- The text of infinity. -/
  infinity : String

/-- Program texts. -/
def Layout.wire : Layout := ⟨some (-5, 15), true, "+", .toEven, "null"⟩

/-- Messages. -/
def Layout.plain : Layout := ⟨none, false, "", .up, "inf"⟩

/-- Printed trees. -/
def Layout.outline : Layout := ⟨some (-4, 15), true, "", .up, "inf"⟩

/-- A run of zeros. -/
def zeros (n : Nat) : String := String.ofList (List.replicate n '0')

/-- A decimal in positional form. -/
def positionalText (layout : Layout) (d : Decimal) : String :=
  let digits := Nat.repr d.digits
  if 0 ≤ d.exponent then
    digits ++ zeros d.exponent.toNat ++ if layout.pointZero then ".0" else ""
  else
    let places := (-d.exponent).toNat
    let padded := zeros (places + 1 - digits.length) ++ digits
    let cut := padded.length - places
    String.ofList (padded.toList.take cut) ++ "." ++ String.ofList (padded.toList.drop cut)

/-- A decimal as one digit, a fraction and an exponent. -/
def exponentText (layout : Layout) (d : Decimal) (exponent : Int) : String :=
  let digits := (Nat.repr d.digits).toList
  let fraction := digits.drop 1
  String.ofList (digits.take 1)
    ++ (if fraction.isEmpty then "" else "." ++ String.ofList fraction)
    ++ "e" ++ (if exponent < 0 then "-" else layout.positiveMark)
    ++ Nat.repr exponent.natAbs

/-- The text of a double. -/
def render (layout : Layout) (x : Binary64) : String :=
  let sign := if x.isNegative then "-" else ""
  if x.isFinite then
    let d := x.shortest layout.tie
    let exponent : Int := d.exponent + (Nat.repr d.digits).length - 1
    match layout.positional with
    | none => sign ++ positionalText layout d
    | some (low, high) =>
      if low ≤ exponent ∧ exponent ≤ high then sign ++ positionalText layout d
      else sign ++ exponentText layout d exponent
  else sign ++ layout.infinity

end TemplateCompiler.Number
