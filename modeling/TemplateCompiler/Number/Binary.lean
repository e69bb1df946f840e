/-
Double-precision binary numbers, as exact data.

A number literal denotes the double nearest to its decimal spelling.  This file
reads decimals into doubles and takes doubles apart, in integer arithmetic
only:

* `Binary64` — the 64 bits of a double;
* `Binary64.ofRatio` — the double nearest to a quotient, a half going to the
  even neighbour, and infinity past the largest double;
* `Binary64.significand`, `Binary64.scale` — a finite double is
  `significand * 2 ^ scale` up to its sign;
* `Binary64.toInt?` — the integer that a double stands for, when it is one.

The bits of a magnitude, read as an integer, are `(scale + 1074) * 2 ^ 52 +
significand`, for subnormal numbers too, so a carry out of the significand moves
into the exponent by itself.
-/
namespace TemplateCompiler

/-- A double-precision number, given by its bits. -/
structure Binary64 where
  bits : UInt64
deriving DecidableEq, Repr, Inhabited

namespace Binary64

/-- The quotient rounded to the nearest integer, a half to the even neighbour. -/
def roundDiv (num den : Nat) : Nat :=
  let twice := 2 * (num % den)
  if den < twice || (twice == den && num / den % 2 == 1) then num / den + 1 else num / den

/-- The greatest power of two that is at most the quotient of two positive
numbers. -/
def floorLog2 (num den : Nat) : Int :=
  let guess : Int := num.log2 - den.log2
  if 0 ≤ guess then
    if num < den <<< guess.toNat then guess - 1 else guess
  else
    if num <<< (-guess).toNat < den then guess - 1 else guess

/-- The place of the exponent field, and the bit that normal numbers leave out. -/
def exponentUnit : Nat := 1 <<< 52

/-- The sign bit. -/
def signBit : Nat := 1 <<< 63

/-- The magnitude bits of infinity. -/
def infinityBits : Nat := 0x7ff * exponentUnit

/-- The magnitude bits of the double nearest to `num / den`. -/
def magnitudeOfRatio (num den : Nat) : Nat :=
  if num = 0 then 0
  else
    let scale := max (floorLog2 num den - 52) (-1074)
    let significand :=
      if 0 ≤ scale then roundDiv num (den <<< scale.toNat)
      else roundDiv (num <<< (-scale).toNat) den
    min ((scale + 1074).toNat * exponentUnit + significand) infinityBits

/-- The double nearest to `num / den`, with the given sign. -/
def ofRatio (negative : Bool) (num den : Nat) : Binary64 :=
  ⟨UInt64.ofNat (magnitudeOfRatio num den + if negative then signBit else 0)⟩

/-- Whether the sign bit is set; negative zero has it too. -/
def isNegative (x : Binary64) : Bool := signBit ≤ x.bits.toNat

/-- The bits without the sign. -/
def magnitude (x : Binary64) : Nat := x.bits.toNat % signBit

/-- The exponent field. -/
def exponentField (x : Binary64) : Nat := x.magnitude / exponentUnit

/-- The fraction field. -/
def fractionField (x : Binary64) : Nat := x.magnitude % exponentUnit

/-- Whether the magnitude is neither infinity nor a NaN. -/
def isFinite (x : Binary64) : Bool := x.magnitude < infinityBits

/-- The integer part of the representation of a finite double. -/
def significand (x : Binary64) : Nat :=
  if x.exponentField = 0 then x.fractionField else x.fractionField + exponentUnit

/-- The power of two that scales the significand. -/
def scale (x : Binary64) : Int := max x.exponentField 1 - 1075

/-- The magnitude of a finite double, when it is an integer. -/
def integralMagnitude? (x : Binary64) : Option Nat :=
  if x.isFinite then
    if 0 ≤ x.scale then some (x.significand <<< x.scale.toNat)
    else
      let unit := 1 <<< (-x.scale).toNat
      if x.significand % unit = 0 then some (x.significand / unit) else none
  else none

/-- The integer that a double stands for; negative zero stands for none. -/
def toInt? (x : Binary64) : Option Int :=
  match x.integralMagnitude? with
  | none => none
  | some 0 => if x.isNegative then none else some 0
  | some (n + 1) => some (if x.isNegative then -(n + 1 : Int) else n + 1)

end Binary64

end TemplateCompiler
