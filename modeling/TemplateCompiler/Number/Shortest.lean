/-
The fewest decimal digits that read back as a given double.

A finite double stands for the interval of reals that round to it.  `shortest`
tries 1, 2, … 17 significant digits; for each count it tests the two
neighbours of the value on that decimal grid, and the first grid with a
neighbour in the interval gives the answer.  When both neighbours lie in the
interval the nearer one is taken, and an exact tie goes as asked.

Design notes: all comparisons are between integers.  Values are quotients
`num / den`; the interval has its ends a quarter of a significand step apart
from multiples of a step, so everything is scaled by four.
-/
import TemplateCompiler.Number.Binary

namespace TemplateCompiler

/-- The number `digits * 10 ^ exponent`. -/
structure Decimal where
  digits : Nat
  exponent : Int
deriving DecidableEq, Repr

namespace Decimal

/-- The number of decimal digits of a natural number; zero has none. -/
def digitCount (n : Nat) : Nat := if n = 0 then 0 else (Nat.toDigits 10 n).length

/-- Moves the zeros at the end of the digits into the exponent, at most `bound`
of them. -/
def dropZeros : Nat → Decimal → Decimal
  | 0, d => d
  | bound + 1, d =>
    if d.digits ≠ 0 ∧ d.digits % 10 = 0 then
      dropZeros bound ⟨d.digits / 10, d.exponent + 1⟩
    else d

/-- The greatest power of ten that is at most `num / den`, for positive
numbers. -/
def floorLog10 (num den : Nat) : Int :=
  if den ≤ num then digitCount (num / den) - 1
  else -(digitCount ((den - 1) / num) : Int)

end Decimal

/-- Which of two equally near decimals is taken. -/
inductive DecimalTie where
  /-- The larger one. -/
  | up
  /-- The one whose last digit is even. -/
  | toEven
deriving DecidableEq, Repr

namespace Binary64

/-- The reals that round to a double, as quotients over one denominator. -/
structure Rounding where
  low : Nat
  value : Nat
  high : Nat
  den : Nat
  /-- Whether the ends themselves round to the double. -/
  closed : Bool

/-- The reals that round to a finite nonzero double.  Below a power of two the
neighbour is half as far. -/
def rounding (x : Binary64) : Rounding :=
  let m := 4 * x.significand
  let below := if x.fractionField = 0 ∧ 1 < x.exponentField then 1 else 2
  let unit := x.scale - 2
  let up := if 0 ≤ unit then 1 <<< unit.toNat else 1
  { low := (m - below) * up
    value := m * up
    high := (m + 2) * up
    den := if 0 ≤ unit then 1 else 1 <<< (-unit).toNat
    closed := x.significand % 2 == 0 }

/-- Whether the quotient `num / den` rounds to the double. -/
def Rounding.holds (r : Rounding) (num den : Nat) : Bool :=
  if r.closed then r.low * den ≤ num * r.den && num * r.den ≤ r.high * den
  else r.low * den < num * r.den && num * r.den < r.high * den

/-- The decimal of the given exponent that reads back as the double and is
nearest to it, if there is one. -/
def Rounding.onGrid (r : Rounding) (tie : DecimalTie) (exponent : Int) : Option Decimal :=
  let gridNum := if 0 ≤ exponent then Nat.pow 10 exponent.toNat else 1
  let gridDen := if 0 ≤ exponent then 1 else Nat.pow 10 (-exponent).toNat
  let num := r.value * gridDen
  let den := r.den * gridNum
  let d := num / den
  let lower := r.holds (d * gridNum) gridDen
  let upper := r.holds ((d + 1) * gridNum) gridDen
  let twice := 2 * (num % den)
  let takeUpper :=
    if lower && upper then
      den < twice || (twice == den && (tie == .up || d % 2 == 1))
    else upper
  if takeUpper then some ⟨d + 1, exponent⟩
  else if lower then some ⟨d, exponent⟩
  else none

/-- The fewest digits that read back as the magnitude of a finite double, the
nearest such decimal. -/
def shortest (tie : DecimalTie) (x : Binary64) : Decimal :=
  if x.significand = 0 then ⟨0, 0⟩
  else
    let r := x.rounding
    let top := Decimal.floorLog10 r.value r.den
    let found := (List.range 17).findSome? fun (n : Nat) => r.onGrid tie (top - n)
    Decimal.dropZeros 17 (found.getD ⟨0, 0⟩)

end Binary64

end TemplateCompiler
