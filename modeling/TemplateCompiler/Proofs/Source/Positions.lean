/-
Offsets and positions of a source are two ways to say one thing.

* `SplitsAt` — a text cut into the lines before a line, the line, and what follows it;
* `lineAt?_of_splitsAt`, `exists_splitsAt` — the lines that a source knows are those;
* `offset?_eq_some_iff` — the offset of a position, told by the line it is on;
* `position_mono` — a later offset has a later position;
* `offset?_position_inverse` — offsets between characters and positions of the text
  correspond to each other, in their order.
-/
import Mathlib.Data.List.TakeWhile
import Mathlib.Data.Prod.Lex
import Mathlib.Order.Monotone.Defs
import TemplateCompiler.Proofs.Source.Places

namespace TemplateCompiler

/-- A position by its line first, and by its column on the same line. -/
def Position.place (p : Position) : ℕ ×ₗ ℕ := toLex (p.line, p.column)

namespace Source

open Text (byteLength byteLength_append)

/-! ### The last line of a text -/

theorem no_feed_lastLine (text : List Char) : '\n' ∉ lastLine text := by
  rw [lastLine, List.mem_reverse]
  intro hmem
  simpa using List.mem_takeWhile_imp hmem

theorem lastLine_of_no_feed {text : List Char} (h : '\n' ∉ text) : lastLine text = text := by
  have hall : ∀ c ∈ text.reverse, decide (c ≠ '\n') = true := by
    intro c hc
    exact decide_eq_true fun heq => h (heq ▸ List.mem_reverse.mp hc)
  rw [lastLine, List.takeWhile_eq_self_iff.mpr hall, List.reverse_reverse]

/-- Without a line feed in it, more text goes on with the last line. -/
theorem lastLine_append_of_no_feed (text : List Char) {more : List Char} (h : '\n' ∉ more) :
    lastLine (text ++ more) = lastLine text ++ more := by
  have hall : ∀ c ∈ more.reverse, decide (c ≠ '\n') = true := by
    intro c hc
    exact decide_eq_true fun heq => h (heq ▸ List.mem_reverse.mp hc)
  rw [lastLine, List.reverse_append, List.takeWhile_append_of_pos hall, List.reverse_append,
    List.reverse_reverse, lastLine]

/-- With a line feed in it, more text has the last line. -/
theorem lastLine_append_of_feed (text : List Char) {more : List Char} (h : '\n' ∈ more) :
    lastLine (text ++ more) = lastLine more := by
  rw [lastLine, List.reverse_append, List.takeWhile_append, if_neg, lastLine]
  intro hlength
  have hself := (List.takeWhile_prefix _).eq_of_length hlength
  have hfeed := List.takeWhile_eq_self_iff.mp hself '\n' (List.mem_reverse.mpr h)
  simp at hfeed

/-- A text ends with a line feed, or is empty, when it has no last line. -/
theorem lastLine_cons_eq_nil {c : Char} {text : List Char} (h : lastLine text = [])
    (hc : '\n' ∈ c :: text) : lastLine (c :: text) = [] := by
  by_cases htext : '\n' ∈ text
  · rw [← List.singleton_append, lastLine_append_of_feed _ htext, h]
  · obtain rfl : text = [] := (lastLine_of_no_feed htext).symm.trans h
    obtain rfl := List.mem_singleton.mp hc
    rfl

/-! ### Lines -/

/-- A text cut into the lines before a line, the line itself, and what follows it. -/
structure SplitsAt (text front line rest : List Char) : Prop where
  text_eq : text = front ++ (line ++ rest)
  front_ends : lastLine front = []
  line_whole : '\n' ∉ line
  rest_begins : rest = [] ∨ ∃ more, rest = '\n' :: more

/-- The lines that begin in a text without line feeds. -/
theorem startsAfterFeeds_of_no_feed (offset : Nat) {text : List Char} (h : '\n' ∉ text) :
    startsAfterFeeds offset text = [] := by
  rw [← List.length_eq_zero_iff, length_startsAfterFeeds]
  exact List.count_eq_zero.mpr h

/-- The lines up to a place where one begins: the last of them begins there. -/
theorem starts_getElem? {front : List Char} (hfront : lastLine front = []) (later : List Nat) :
    (0 :: startsAfterFeeds 0 front ++ later)[front.count '\n']? = some (byteLength front) := by
  obtain ⟨before, hbefore, hlast⟩ := exists_lastLine front
  rw [hfront, List.append_nil] at hbefore
  subst hbefore
  have hlength := length_startsAfterFeeds 0 front
  generalize startsAfterFeeds 0 front = starts at hlast hlength
  have hend : (0 :: starts)[starts.length]? = (0 :: starts).getLast? := by
    rw [List.getLast?_eq_getElem?, List.length_cons, Nat.add_sub_cancel]
  rw [List.getElem?_append_left (by simp [hlength]), ← hlength, hend, List.getLast?_cons,
    ← List.getLastD_eq_getLast?, hlast]

variable {source : Source} {front line rest : List Char}

/-- The lines of a source are the lines of its text. -/
theorem lineAt?_of_splitsAt (h : SplitsAt source.text.toList front line rest) :
    source.lineAt? (front.count '\n') = some (byteLength front, line) := by
  have hline := startsAfterFeeds_of_no_feed (0 + byteLength front) h.line_whole
  have hstarts : source.lineStarts = 0 :: startsAfterFeeds 0 front
      ++ startsAfterFeeds (byteLength front + byteLength line) rest := by
    rw [lineStarts, h.text_eq, startsAfterFeeds_append, startsAfterFeeds_append, hline,
      List.nil_append, List.cons_append, Nat.zero_add]
  have hcount := length_startsAfterFeeds 0 front
  have hstop : source.lineStop (front.count '\n') = byteLength front + byteLength line := by
    rw [lineStop, hstarts, List.getElem?_append_right (by simp [hcount]), List.length_cons,
      hcount, Nat.sub_self]
    rcases h.rest_begins with rfl | ⟨more, rfl⟩
    · simp [startsAfterFeeds, length, h.text_eq]
    · have hfeed : ('\n' : Char).utf8Size = 1 := by decide
      simp [startsAfterFeeds, hfeed]
  have hslice := Text.slice?_between front line rest
  rw [← h.text_eq] at hslice
  simp only [lineAt?, hstop]
  rw [hstarts, starts_getElem? h.front_ends]
  simp only [Option.bind_eq_bind, Option.bind_some, hslice]

/-- What stands before a line, with the rest of the text after it. -/
theorem SplitsAt.of_front {text after : List Char} (htext : text = front ++ after)
    (hfront : lastLine front = []) :
    SplitsAt text front (after.takeWhile (· ≠ '\n')) (after.dropWhile (· ≠ '\n')) where
  text_eq := by rw [List.takeWhile_append_dropWhile, htext]
  front_ends := hfront
  line_whole hmem := by simpa using List.mem_takeWhile_imp hmem
  rest_begins := by
    cases hrest : after.dropWhile (· ≠ '\n') with
    | nil => exact .inl rfl
    | cons c more =>
      have hc := List.head?_dropWhile_not (fun c : Char => decide (c ≠ '\n')) after
      rw [hrest] at hc
      obtain rfl : c = '\n' := by simpa using hc
      exact .inr ⟨more, rfl⟩

/-- As many lines as a text has line feeds stand before a line. -/
theorem exists_front {text : List Char} {index : Nat} (h : index ≤ text.count '\n') :
    ∃ front after, text = front ++ after ∧ lastLine front = [] ∧ front.count '\n' = index := by
  induction text generalizing index with
  | nil =>
    obtain rfl : index = 0 := Nat.le_zero.mp h
    exact ⟨[], [], rfl, rfl, rfl⟩
  | cons c text ih =>
    cases index with
    | zero => exact ⟨[], c :: text, rfl, rfl, rfl⟩
    | succ index =>
      by_cases hc : c = '\n'
      · subst hc
        rw [List.count_cons_self] at h
        obtain ⟨front, after, rfl, hends, hcount⟩ := ih (Nat.le_of_succ_le_succ h)
        exact ⟨'\n' :: front, after, rfl, lastLine_cons_eq_nil hends List.mem_cons_self,
          by rw [List.count_cons_self, hcount]⟩
      · rw [List.count_cons_of_ne hc] at h
        obtain ⟨front, after, rfl, hends, hcount⟩ := ih h
        have hmem : '\n' ∈ front := List.count_pos_iff.mp (by omega)
        exact ⟨c :: front, after, rfl, lastLine_cons_eq_nil hends (List.mem_cons_of_mem c hmem),
          by rw [List.count_cons_of_ne hc, hcount]⟩

/-- Every line that a source knows is a line of its text. -/
theorem exists_splitsAt {index start : Nat} (h : source.lineAt? index = some (start, line)) :
    ∃ front rest, SplitsAt source.text.toList front line rest ∧ front.count '\n' = index ∧
      byteLength front = start := by
  have hindex : index ≤ source.text.toList.count '\n' := by
    simp only [lineAt?, Option.bind_eq_bind, Option.bind_eq_some_iff] at h
    obtain ⟨start', hstart, -⟩ := h
    have hlt := (List.getElem?_eq_some_iff.mp hstart).choose
    rw [lineStarts, List.length_cons, length_startsAfterFeeds] at hlt
    omega
  obtain ⟨front, after, htext, hends, hcount⟩ := exists_front hindex
  have hsplit := SplitsAt.of_front htext hends
  have hline := lineAt?_of_splitsAt hsplit
  rw [hcount, h, Option.some.injEq, Prod.mk.injEq] at hline
  obtain ⟨hstart, rfl⟩ := hline
  exact ⟨front, _, hsplit, hcount, hstart.symm⟩

/-! ### Offsets and positions -/

/-- The offset of a position is on the line of the position, at its column. -/
theorem offset?_eq_some_iff {p : Position} {o : Nat} :
    source.offset? p = some o ↔ ∃ front line rest,
      SplitsAt source.text.toList front line rest ∧ p.line = front.count '\n' + 1 ∧
        p.column ≤ line.length ∧ o = byteLength (front ++ line.take p.column) := by
  constructor
  · intro h
    rw [offset?] at h
    cases hline : p.line with
    | zero =>
      rw [hline] at h
      cases h
    | succ index =>
      simp only [hline, Option.bind_eq_bind, Option.bind_eq_some_iff,
        Option.ite_none_right_eq_some, Prod.exists] at h
      obtain ⟨start, line, hat, hcolumn, ho⟩ := h
      obtain ⟨front, rest, hsplit, rfl, rfl⟩ := exists_splitsAt hat
      refine ⟨front, line, rest, hsplit, rfl, hcolumn, ?_⟩
      rw [byteLength_append, Option.some.inj ho]
  · rintro ⟨front, line, rest, hsplit, hline, hcolumn, rfl⟩
    simp only [offset?, hline, lineAt?_of_splitsAt hsplit, Option.bind_eq_bind, Option.bind_some,
      if_pos hcolumn, byteLength_append]

/-- The text before an offset ends on the line that the offset is on. -/
theorem SplitsAt.of_cut {text before after : List Char} (htext : text = before ++ after) :
    ∃ front rest more, SplitsAt text front (lastLine before ++ more) rest ∧
      before = front ++ lastLine before ∧ front.count '\n' = before.count '\n' := by
  obtain ⟨front, hfront, -⟩ := exists_lastLine before
  have hfeed := no_feed_lastLine before
  have hends : lastLine front = [] := by
    have hlast := lastLine_append_of_no_feed front hfeed
    rw [← hfront] at hlast
    exact List.append_left_eq_self.mp hlast.symm
  have hsplit : SplitsAt text front _ _ :=
    .of_front (by rw [htext, ← List.append_assoc, ← hfront]) hends
  have hall : ∀ c ∈ lastLine before, decide (c ≠ '\n') = true :=
    fun c hc => decide_eq_true fun heq => hfeed (heq ▸ hc)
  rw [List.takeWhile_append_of_pos hall] at hsplit
  refine ⟨front, _, _, hsplit, hfront, ?_⟩
  conv => rhs; rw [hfront]
  rw [List.count_append, List.count_eq_zero.mpr hfeed, Nat.add_zero]

theorem offset?_position {o : Nat} (h : Text.Cut source.text.toList o) :
    source.offset? (source.position o) = some o := by
  obtain ⟨before, after, htext, rfl⟩ := h
  obtain ⟨front, rest, more, hsplit, hbefore, hcount⟩ := SplitsAt.of_cut htext
  rw [position_cut htext, offset?_eq_some_iff]
  refine ⟨front, _, rest, hsplit, by rw [hcount], by simp, ?_⟩
  rw [List.take_left, ← hbefore]

theorem position_of_offset? {p : Position} {o : Nat} (h : source.offset? p = some o) :
    Text.Cut source.text.toList o ∧ source.position o = p := by
  obtain ⟨front, line, rest, hsplit, hline, hcolumn, rfl⟩ := offset?_eq_some_iff.mp h
  have htake : '\n' ∉ line.take p.column :=
    fun hmem => hsplit.line_whole (List.mem_of_mem_take hmem)
  have htext : source.text.toList
      = (front ++ line.take p.column) ++ (line.drop p.column ++ rest) := by
    rw [List.append_assoc, ← List.append_assoc (line.take p.column), List.take_append_drop,
      hsplit.text_eq]
  refine ⟨⟨_, _, htext, rfl⟩, ?_⟩
  rw [position_cut htext, List.count_append, List.count_eq_zero.mpr htake, Nat.add_zero, ← hline,
    lastLine_append_of_no_feed front htake, hsplit.front_ends, List.nil_append, List.length_take,
    Nat.min_eq_left hcolumn]

/-- A later offset is on a later line, or further on the same line. -/
theorem position_mono {o o' : Nat} (h : Text.Cut source.text.toList o)
    (h' : Text.Cut source.text.toList o') (hlt : o < o') :
    (source.position o).place < (source.position o').place := by
  obtain ⟨before, after, htext, rfl⟩ := h
  obtain ⟨before', after', htext', rfl⟩ := h'
  rw [position_cut htext, position_cut htext', Position.place, Position.place,
    Prod.Lex.toLex_lt_toLex]
  rcases List.append_eq_append_iff.mp (htext.symm.trans htext') with
    ⟨mid, rfl, -⟩ | ⟨mid, rfl, -⟩
  · rw [List.count_append]
    by_cases hmid : '\n' ∈ mid
    · exact .inl (Nat.succ_lt_succ (Nat.lt_add_of_pos_right (List.count_pos_iff.mpr hmid)))
    · have hne : mid ≠ [] := by
        rintro rfl
        rw [List.append_nil] at hlt
        exact Nat.lt_irrefl _ hlt
      refine .inr ⟨by rw [List.count_eq_zero.mpr hmid, Nat.add_zero], ?_⟩
      rw [lastLine_append_of_no_feed before hmid, List.length_append]
      exact Nat.lt_add_of_pos_right (List.length_pos_iff.mpr hne)
  · rw [byteLength_append] at hlt
    omega

/-- Offsets between characters and positions of the text correspond to each other, and the order
of the offsets is that of the positions. -/
theorem offset?_position_inverse (source : Source) :
    (∀ o, Text.Cut source.text.toList o → source.offset? (source.position o) = some o) ∧
      (∀ p o, source.offset? p = some o →
        Text.Cut source.text.toList o ∧ source.position o = p) ∧
      StrictMonoOn (fun o => (source.position o).place) {o | Text.Cut source.text.toList o} :=
  ⟨fun _ => offset?_position, fun _ _ => position_of_offset?, fun _ h _ h' => position_mono h h'⟩

/-- Two lines, the first of them with a character of two bytes. -/
theorem offset?_position_inverse_twoLines :
    let source : Source := ⟨"é\nab", ""⟩
    (Text.Cut source.text.toList 4 ∧ source.offset? (source.position 4) = some 4) ∧
      (source.offset? ⟨1, 1⟩ = some 2 ∧
        Text.Cut source.text.toList 2 ∧ source.position 2 = ⟨1, 1⟩) ∧
      (source.position 2).place < (source.position 4).place := by
  intro source
  obtain ⟨hback, hforth, hmono⟩ := offset?_position_inverse source
  have hcut : Text.Cut source.text.toList 4 := ⟨['é', '\n', 'a'], ['b'], by decide, by decide⟩
  have hoffset : source.offset? ⟨1, 1⟩ = some 2 := by decide
  have hcut' := (hforth _ _ hoffset).1
  exact ⟨⟨hcut, hback 4 hcut⟩, ⟨hoffset, hforth _ _ hoffset⟩, hmono hcut' hcut (by decide)⟩

end Source

end TemplateCompiler
