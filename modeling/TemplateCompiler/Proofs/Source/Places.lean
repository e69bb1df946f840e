/-
Places in a source text.

* `Text.Cut` — an offset between two characters of a text;
* `Span.LiesIn` — a span starts at such an offset, and ends in the text;
* `Fault.LiesIn` — so do all places that a fault points at;
* `Fault.OrElse` — a result that is as said, or a fault that lies in the text;
* `Source.position_cut` — the line and column of an offset between two characters.
-/
import Mathlib.Data.List.TakeWhile
import TemplateCompiler.Diagnostic.Failure

namespace TemplateCompiler

/-! ### Offsets and spans -/

/-- An offset between two characters of a text, or at one of its ends. -/
def Text.Cut (text : List Char) (offset : Nat) : Prop :=
  ∃ before after, text = before ++ after ∧ Text.byteLength before = offset

theorem Text.Cut.le {text : List Char} {offset : Nat} (h : Text.Cut text offset) :
    offset ≤ Text.byteLength text := by
  obtain ⟨before, after, rfl, rfl⟩ := h
  rw [Text.byteLength_append]
  exact Nat.le_add_right _ _

theorem Text.Cut.zero (text : List Char) : Text.Cut text 0 := ⟨[], text, rfl, rfl⟩

/-- A span lies in a text: it starts between two characters, and ends in the text. -/
structure Span.LiesIn (text : List Char) (span : Span) : Prop where
  cut : Text.Cut text span.start
  start_le : span.start ≤ span.stop
  stop_le : span.stop ≤ Text.byteLength text

/-- The empty span at an offset between two characters. -/
theorem Span.LiesIn.point {text : List Char} {offset : Nat} (h : Text.Cut text offset) :
    (Span.point offset).LiesIn text :=
  ⟨h, Nat.le_refl _, h.le⟩

/-- What covers two spans lies in the text if they do. -/
theorem Span.LiesIn.merge {text : List Char} {a b : Span} (ha : a.LiesIn text)
    (hb : b.LiesIn text) : (a.merge b).LiesIn text := by
  obtain ⟨hcut, hle, hstop⟩ := ha
  obtain ⟨hcut', hle', hstop'⟩ := hb
  rw [Span.merge]
  split
  · exact ⟨hcut', hle', hstop'⟩
  split
  · exact ⟨hcut, hle, hstop⟩
  refine ⟨?_, by simp only; omega, Nat.max_le.mpr ⟨hstop, hstop'⟩⟩
  rcases Nat.le_total a.start b.start with hstart | hstart
  · rwa [Nat.min_eq_left hstart]
  · rwa [Nat.min_eq_right hstart]

/-! ### Faults -/

/-- All places that a fault points at lie in a text. -/
structure Fault.LiesIn (text : List Char) (f : Fault) : Prop where
  span : f.span.LiesIn text
  related : ∀ place ∈ f.related, place.1.LiesIn text

theorem Fault.LiesIn.ofStructure {text : List Char} {code : Code} {message : String} {span : Span}
    (h : span.LiesIn text) : (Fault.ofStructure code message span).LiesIn text :=
  ⟨h, by simp [Fault.ofStructure]⟩

theorem Fault.LiesIn.ofResolution {text : List Char} {code : Code} {message : String} {span : Span}
    (h : span.LiesIn text) : (Fault.ofResolution code message span).LiesIn text :=
  ⟨h, by simp [Fault.ofResolution]⟩

section

variable {α β : Type} {text : List Char} {P : α → Prop} {Q : β → Prop}

/-- What is said of a result: a value is as `P` says, and a fault lies in the text. -/
def Fault.OrElse (text : List Char) (P : α → Prop) : Except Fault α → Prop
  | .ok a => P a
  | .error f => f.LiesIn text

theorem Fault.OrElse.bind {x : Except Fault α} {k : α → Except Fault β}
    (h : Fault.OrElse text P x) (hk : ∀ a, P a → Fault.OrElse text Q (k a)) :
    Fault.OrElse text Q (x >>= k) := by
  cases x with
  | ok a => exact hk a h
  | error f => exact h

theorem Fault.OrElse.ite {c : Prop} [Decidable c] {x y : Except Fault α}
    (h : c → Fault.OrElse text P x) (h' : ¬c → Fault.OrElse text P y) :
    Fault.OrElse text P (if c then x else y) := by
  split
  · next hc => exact h hc
  · next hc => exact h' hc

/-- What holds of every value may be added. -/
theorem Fault.OrElse.and {P' : α → Prop} {x : Except Fault α} (h : Fault.OrElse text P x)
    (h' : ∀ a, x = .ok a → P' a) : Fault.OrElse text (fun a => P a ∧ P' a) x := by
  cases x with
  | ok a => exact ⟨h, h' a rfl⟩
  | error f => exact h

theorem Fault.OrElse.imp {P' : α → Prop} {x : Except Fault α} (h : Fault.OrElse text P x)
    (himp : ∀ a, P a → P' a) : Fault.OrElse text P' x := by
  cases x with
  | ok a => exact himp a h
  | error f => exact h

end

/-! ### Lines and columns -/

namespace Source

/-- The lines that begin in a text, and those that begin after it. -/
theorem startsAfterFeeds_append (offset : Nat) (before after : List Char) :
    startsAfterFeeds offset (before ++ after)
      = startsAfterFeeds offset before
        ++ startsAfterFeeds (offset + Text.byteLength before) after := by
  induction before generalizing offset with
  | nil => simp [startsAfterFeeds]
  | cons c rest ih =>
    have hnext : offset + Text.byteLength (c :: rest)
        = offset + c.utf8Size + Text.byteLength rest := by
      rw [Text.byteLength_cons, Nat.add_assoc]
    simp only [List.cons_append, startsAfterFeeds, ih, hnext]
    split <;> simp

theorem mem_startsAfterFeeds {offset start : Nat} {text : List Char}
    (h : start ∈ startsAfterFeeds offset text) :
    offset < start ∧ start ≤ offset + Text.byteLength text := by
  induction text generalizing offset with
  | nil => simp [startsAfterFeeds] at h
  | cons c rest ih =>
    have hpos := c.utf8Size_pos
    simp only [startsAfterFeeds] at h
    rw [Text.byteLength_cons]
    split at h
    · rcases List.mem_cons.mp h with rfl | h
      · omega
      · have := ih h
        omega
    · have := ih h
      omega

theorem length_startsAfterFeeds (offset : Nat) (text : List Char) :
    (startsAfterFeeds offset text).length = text.count '\n' := by
  induction text generalizing offset with
  | nil => rfl
  | cons c rest ih =>
    simp only [startsAfterFeeds, List.count_cons]
    split <;> simp [ih]

/-- The lines that begin up to an offset are those that begin in the text before it. -/
theorem takeWhile_startsAfterFeeds (before after : List Char) :
    (startsAfterFeeds 0 (before ++ after)).takeWhile (· ≤ Text.byteLength before)
      = startsAfterFeeds 0 before := by
  have hbefore : ∀ start ∈ startsAfterFeeds 0 before,
      decide (start ≤ Text.byteLength before) = true := by
    intro start hstart
    have := (mem_startsAfterFeeds hstart).2
    exact decide_eq_true (by omega)
  rw [startsAfterFeeds_append, List.takeWhile_append_of_pos hbefore]
  cases hafter : startsAfterFeeds (0 + Text.byteLength before) after with
  | nil => simp
  | cons start rest =>
    have hlt := (mem_startsAfterFeeds (hafter ▸ List.mem_cons_self)).1
    rw [List.takeWhile_cons_of_neg (by simpa using hlt), List.append_nil]

/-- The part of a text after its last line feed. -/
def lastLine (text : List Char) : List Char := (text.reverse.takeWhile (· ≠ '\n')).reverse

/-- A text is what its lines but the last are, and its last line. -/
theorem exists_lastLine (text : List Char) :
    ∃ front, text = front ++ lastLine text ∧
      (startsAfterFeeds 0 text).getLastD 0 = Text.byteLength front := by
  refine ⟨(text.reverse.dropWhile (· ≠ '\n')).reverse, ?_, ?_⟩
  · rw [lastLine, ← List.reverse_append, List.takeWhile_append_dropWhile, List.reverse_reverse]
  have htext : text = (text.reverse.dropWhile (· ≠ '\n')).reverse ++ lastLine text := by
    rw [lastLine, ← List.reverse_append, List.takeWhile_append_dropWhile, List.reverse_reverse]
  -- No line begins in the last one, so the last to begin is at the end of the front.
  have hline : ∀ offset, startsAfterFeeds offset (lastLine text) = [] := by
    intro offset
    rw [← List.length_eq_zero_iff, length_startsAfterFeeds, List.count_eq_zero, lastLine,
      List.mem_reverse]
    intro hmem
    simpa using List.mem_takeWhile_imp hmem
  conv => lhs; rw [htext]
  rw [startsAfterFeeds_append, hline, List.append_nil]
  cases hdrop : text.reverse.dropWhile (· ≠ '\n') with
  | nil => rfl
  | cons c rest =>
    have hc := List.head?_dropWhile_not (fun c : Char => decide (c ≠ '\n')) text.reverse
    rw [hdrop] at hc
    obtain rfl : c = '\n' := by simpa using hc
    rw [List.reverse_cons, startsAfterFeeds_append]
    simp [startsAfterFeeds]

/-- The line of an offset between two characters is told by the line feeds before it,
and its column by the characters since the last of them. -/
theorem position_cut {source : Source} {before after : List Char}
    (h : source.text.toList = before ++ after) :
    source.position (Text.byteLength before)
      = ⟨before.count '\n' + 1, (lastLine before).length⟩ := by
  have hle : Text.byteLength before ≤ source.length := by
    rw [length, h, Text.byteLength_append]
    exact Nat.le_add_right _ _
  -- The lines that start in front of the offset are the first and one for each line feed.
  have hstarts : source.lineStarts.takeWhile (· ≤ Text.byteLength before)
      = 0 :: startsAfterFeeds 0 before := by
    rw [lineStarts, List.takeWhile_cons_of_pos (by simp), h, takeWhile_startsAfterFeeds]
  obtain ⟨front, hfront, hlast⟩ := exists_lastLine before
  -- The text between the start of the line and the offset is the last line.
  have hslice : Text.slice? source.text.toList (Text.byteLength front) (Text.byteLength before)
      = some (lastLine before) := by
    have hbytes : Text.byteLength before
        = Text.byteLength front + Text.byteLength (lastLine before) := by
      conv => lhs; rw [hfront]
      rw [Text.byteLength_append]
    rw [h, hbytes]
    conv in before ++ after => rw [hfront]
    rw [List.append_assoc]
    exact Text.slice?_between front (lastLine before) after
  have hlineStart : (0 :: startsAfterFeeds 0 before).getLastD 0 = Text.byteLength front := by
    rw [← hlast]
    cases startsAfterFeeds 0 before <;> rfl
  simp only [position, Nat.min_eq_left hle, hstarts, hlineStart, hslice, List.length_cons,
    length_startsAfterFeeds]

end Source

end TemplateCompiler
