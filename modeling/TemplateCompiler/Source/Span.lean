/-
Spans of source text.

A span is a half-open range of byte offsets.  Offsets are 32-bit words; an
offset past the last word is held at the last word (`Span.ofOffsets`).  The
span `0..0` marks a node that no source text stands for; merging absorbs it.
-/
namespace TemplateCompiler

/-- The largest offset that a span can hold. -/
def maxOffset : Nat := 0xffffffff

/-- The bytes of the source from `start` up to `stop`. -/
structure Span where
  start : Nat
  stop : Nat
deriving DecidableEq, Repr, Inhabited

namespace Span

/-- The span of a node without source text. -/
def dummy : Span := ⟨0, 0⟩

/-- The span between two offsets, each held at the largest offset. -/
def ofOffsets (start stop : Nat) : Span := ⟨min start maxOffset, min stop maxOffset⟩

/-- The empty span at an offset. -/
def point (offset : Nat) : Span := ⟨offset, offset⟩

/-- The number of bytes covered. -/
def length (s : Span) : Nat := s.stop - s.start

/-- Whether no byte is covered. -/
def isEmpty (s : Span) : Bool := s.stop ≤ s.start

/-- Whether this is the span of a node without source text. -/
def isDummy (s : Span) : Bool := s.start == 0 && s.stop == 0

/-- Whether an offset is covered. -/
def contains (s : Span) (offset : Nat) : Bool := s.start ≤ offset && offset < s.stop

/-- The smallest span that covers both; a dummy span adds nothing. -/
def merge (a b : Span) : Span :=
  if a.isDummy then b
  else if b.isDummy then a
  else ⟨min a.start b.start, max a.stop b.stop⟩

/-- The text `start..stop`. -/
def text (s : Span) : String := s!"{s.start}..{s.stop}"

/-- Offsets that fit are kept. -/
theorem ofOffsets_of_le {start stop : Nat} (h₁ : start ≤ maxOffset) (h₂ : stop ≤ maxOffset) :
    ofOffsets start stop = ⟨start, stop⟩ := by
  simp [ofOffsets, Nat.min_eq_left h₁, Nat.min_eq_left h₂]

end Span

end TemplateCompiler
