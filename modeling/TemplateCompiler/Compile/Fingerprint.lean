/-
Fingerprints of texts.

The fingerprint of a text is a 64-bit hash of its bytes, written as sixteen
hexadecimal digits.  Equal programs have equal fingerprints, on every machine,
so a program can be recognised by it.

* `Fingerprint.ofBytes` — the hash of bytes;
* `Fingerprint.ofText` — the sixteen digits.

Texts up to sixteen bytes are read as two overlapping words.  Of longer texts,
the blocks of sixteen bytes that have more behind them are folded into two words
of state, and the last sixteen bytes are read at the end.  All arithmetic is
modulo `2 ^ 64`, except for products, whose two halves are both used
(`foldedProduct`).
-/
namespace TemplateCompiler.Fingerprint

/-- The product of two words, its lower half mixed with its upper half. -/
def foldedProduct (x y : UInt64) : UInt64 :=
  let product := x.toNat * y.toNat
  UInt64.ofNat product ^^^ UInt64.ofNat (product >>> 64)

/-- The word that bytes spell, the least significant byte first. -/
def littleEndian (bytes : List UInt8) : UInt64 :=
  bytes.foldr (fun byte word => word * 256 + byte.toUInt64) 0

/-- The first word of state. -/
def seed₁ : UInt64 := 0x243f6a8885a308d3

/-- The second word of state. -/
def seed₂ : UInt64 := 0x13198a2e03707344

/-- What blocks are kept from cancelling by. -/
def guardWord : UInt64 := 0xa4093822299f31d0

/-- The odd factor of the final spreading. -/
def spread : UInt64 := 0xf1357aea2e62a9c5

/-- The words at the two ends of a text of at most sixteen bytes. -/
def endWords (bytes : List UInt8) : UInt64 × UInt64 :=
  let count := bytes.length
  if 8 ≤ count then
    (littleEndian (bytes.take 8), littleEndian (bytes.drop (count - 8)))
  else if 4 ≤ count then
    (littleEndian (bytes.take 4), littleEndian (bytes.drop (count - 4)))
  else
    let at' (i : Nat) : UInt64 := ((bytes[i]?).getD 0).toUInt64
    (at' 0, (at' (count - 1) <<< 8) ||| at' (count / 2))

/-- Folds the given number of blocks of sixteen bytes into two words of state. -/
def foldBlocks : Nat → List UInt8 → UInt64 × UInt64 → UInt64 × UInt64
  | 0, _, state => state
  | blocks + 1, bytes, (s₁, s₂) =>
    let x := littleEndian (bytes.take 8)
    let y := littleEndian ((bytes.drop 8).take 8)
    foldBlocks blocks (bytes.drop 16) (s₂, foldedProduct (s₁ ^^^ x) (guardWord ^^^ y))

/-- The hash of bytes before it is spread. -/
def mixBytes (bytes : List UInt8) : UInt64 :=
  let count := bytes.length
  let (s₁, s₂) :=
    if count ≤ 16 then
      let (x, y) := if count = 0 then (0, 0) else endWords bytes
      (seed₁ ^^^ x, seed₂ ^^^ y)
    else
      let (s₁, s₂) := foldBlocks ((count - 1) / 16) bytes (seed₁, seed₂)
      let tail := bytes.drop (count - 16)
      (s₁ ^^^ littleEndian (tail.take 8), s₂ ^^^ littleEndian (tail.drop 8))
  foldedProduct s₁ s₂ ^^^ UInt64.ofNat count

/-- A word turned left. -/
def rotateLeft (word : UInt64) (count : UInt64) : UInt64 :=
  (word <<< count) ||| (word >>> (64 - count))

/-- The hash of bytes. -/
def ofBytes (bytes : List UInt8) : UInt64 := rotateLeft (mixBytes bytes * spread) 26

/-- The sixteen hexadecimal digits of a word. -/
def digits (word : UInt64) : String :=
  let digits := Nat.toDigits 16 word.toNat
  String.ofList (List.replicate (16 - digits.length) '0' ++ digits)

/-- The fingerprint of a text. -/
def ofText (text : String) : String := digits (ofBytes text.toUTF8.toList)

end TemplateCompiler.Fingerprint
