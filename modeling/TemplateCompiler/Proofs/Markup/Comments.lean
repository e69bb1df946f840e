/-
The text of a comment.

Inside a comment dashes are held back until the reader knows whether they belong to
what ends the comment.

* `dashesAtEnd`, `keptOfComment` — the dashes at the end of a text, and what is kept
  of a text in a comment;
* `commentState`, `commentTold` — where the reader is after some text of a comment,
  and what it has told of it;
* `Machine.step_comment`, `Machine.read_comment` — one character and a whole text
  lead there;
* `tokenize_comment` — what becomes of every text between `<!--` and `-->`.

No more than two dashes are held back, and the third one sets all of them free.  So
a comment is ended by `-->` only if the dashes in front of it come in threes.
Behind a dash at the very start the reader forgets the next character, unless it is
a dash as well.
-/
import Mathlib.Data.List.DropRight
import TemplateCompiler.Proofs.Markup.Collecting
import TemplateCompiler.Proofs.Markup.Reading
import TemplateCompiler.Proofs.Markup.Seams

namespace TemplateCompiler.Markup

/-! ### Dashes -/

/-- The number of dashes at the end of a text. -/
def dashesAtEnd (cs : List Char) : Nat := (cs.reverse.takeWhile (· == '-')).length

@[simp] theorem dashesAtEnd_dash (w : List Char) :
    dashesAtEnd (w ++ ['-']) = dashesAtEnd w + 1 := by
  simp [dashesAtEnd]

theorem dashesAtEnd_other (w : List Char) {x : Char} (hx : x ≠ '-') :
    dashesAtEnd (w ++ [x]) = 0 := by
  simp [dashesAtEnd, hx]

/-- The number of dashes that are held back after a text. -/
def heldDashes (w : List Char) : Nat := dashesAtEnd w % 3

theorem heldDashes_dash (w : List Char) : heldDashes (w ++ ['-']) = (heldDashes w + 1) % 3 := by
  rw [heldDashes, dashesAtEnd_dash, heldDashes]
  omega

theorem heldDashes_other (w : List Char) {x : Char} (hx : x ≠ '-') : heldDashes (w ++ [x]) = 0 := by
  rw [heldDashes, dashesAtEnd_other w hx]

theorem heldDashes_lt (w : List Char) : heldDashes w < 3 := Nat.mod_lt _ (by decide)

/-- Where two dashes are held back, they end the text. -/
theorem suffix_of_heldDashes {w : List Char} (h : heldDashes w = 2) : ['-', '-'] <:+ w := by
  rcases List.eq_nil_or_concat w with rfl | ⟨v, x, rfl⟩
  · cases h
  rw [List.concat_eq_append] at h ⊢
  by_cases hx : x = '-'
  · subst hx
    rcases List.eq_nil_or_concat v with rfl | ⟨u, y, rfl⟩
    · cases h
    rw [List.concat_eq_append] at h ⊢
    by_cases hy : y = '-'
    · subst hy
      exact ⟨u, by simp⟩
    · rw [heldDashes_dash, heldDashes_other u hy] at h
      cases h
  · rw [heldDashes_other v hx] at h
    cases h

/-- What is kept of the text of a comment: behind a dash at the start any other
character is lost. -/
def keptOfComment : List Char → List Char
  | '-' :: c :: rest => if c = '-' then '-' :: c :: rest else '-' :: rest
  | cs => cs

theorem keptOfComment_snoc {w : List Char} {x : Char} (h : w = ['-'] → x = '-') :
    keptOfComment (w ++ [x]) = keptOfComment w ++ [x] := by
  match w with
  | [] => simp [keptOfComment]
  | [a] =>
    by_cases ha : a = '-'
    · subst ha
      obtain rfl := h rfl
      rfl
    · simp [keptOfComment, ha]
  | a :: b :: rest =>
    by_cases ha : a = '-'
    · subst ha
      by_cases hb : b = '-' <;> simp [keptOfComment, hb]
    · simp [keptOfComment, ha]

/-! ### What has been told -/

/-- What the reader has told of the text of a comment. -/
def commentTold (w : List Char) : List Char := (keptOfComment w).rdrop (heldDashes w)

/-- The dashes that are held back are the last of what is kept. -/
theorem commentTold_append (w : List Char) :
    commentTold w ++ List.replicate (heldDashes w) '-' = keptOfComment w := by
  have hends : ∃ t, keptOfComment w = t ++ List.replicate (heldDashes w) '-' := by
    induction w using List.reverseRecOn with
    | nil => exact ⟨[], rfl⟩
    | append_singleton w x ih =>
      by_cases hx : x = '-'
      · subst hx
        obtain ⟨t, ht⟩ := ih
        rw [keptOfComment_snoc fun _ => rfl, ht, heldDashes_dash]
        have hlt := heldDashes_lt w
        by_cases htwo : heldDashes w = 2
        · -- The third dash sets all of them free.
          refine ⟨t ++ ['-', '-', '-'], ?_⟩
          rw [htwo]
          simp [List.replicate]
        · refine ⟨t, ?_⟩
          have hmore : (heldDashes w + 1) % 3 = heldDashes w + 1 := Nat.mod_eq_of_lt (by omega)
          rw [hmore, List.replicate_succ', List.append_assoc]
      · rw [heldDashes_other w hx]
        exact ⟨keptOfComment (w ++ [x]), by simp⟩
  obtain ⟨t, ht⟩ := hends
  rw [commentTold, ht, List.rdrop, List.length_append, List.length_replicate, Nat.add_sub_cancel,
    List.take_left]

theorem commentTold_dash {w : List Char} (h : heldDashes w ≠ 2) :
    commentTold (w ++ ['-']) = commentTold w := by
  have hlt := heldDashes_lt w
  have hheld : heldDashes (w ++ ['-']) = heldDashes w + 1 := by
    rw [heldDashes_dash, Nat.mod_eq_of_lt (by omega)]
  have htold := commentTold_append (w ++ ['-'])
  rw [keptOfComment_snoc fun _ => rfl, ← commentTold_append w, hheld, List.replicate_succ',
    ← List.append_assoc] at htold
  exact List.append_cancel_right (List.append_cancel_right htold)

theorem commentTold_thirdDash {w : List Char} (h : heldDashes w = 2) :
    commentTold (w ++ ['-']) = commentTold w ++ ['-', '-', '-'] := by
  have hheld : heldDashes (w ++ ['-']) = 0 := by rw [heldDashes_dash, h]
  have htold := commentTold_append (w ++ ['-'])
  rw [keptOfComment_snoc fun _ => rfl, ← commentTold_append w, hheld, h, List.append_assoc] at htold
  simpa using htold

theorem commentTold_other {w : List Char} {x : Char} (hw : w ≠ ['-']) (hx : x ≠ '-') :
    commentTold (w ++ [x]) = commentTold w ++ (List.replicate (heldDashes w) '-' ++ [x]) := by
  have hheld := heldDashes_other w hx
  have htold := commentTold_append (w ++ [x])
  rw [keptOfComment_snoc fun h => absurd h hw, ← commentTold_append w, hheld] at htold
  simpa using htold

/-! ### Reading the text of a comment -/

/-- The state after some text of a comment. -/
def commentState (w : List Char) : State :=
  if w = [] then .commentStart
  else if w = ['-'] then .commentStartDash
  else match heldDashes w with
    | 0 => .comment
    | 1 => .commentEndDash
    | _ => .commentEnd

/-- A closing bracket after the text ends the comment. -/
def Closes (w : List Char) : Prop := w = [] ∨ w = ['-'] ∨ heldDashes w = 2

theorem commentState_eq {w : List Char} (h : w ≠ []) (h' : w ≠ ['-']) :
    (heldDashes w = 0 ∧ commentState w = .comment) ∨
      (heldDashes w = 1 ∧ commentState w = .commentEndDash) ∨
      (heldDashes w = 2 ∧ commentState w = .commentEnd) := by
  have hlt := heldDashes_lt w
  rw [commentState, if_neg h, if_neg h']
  rcases hheld : heldDashes w with _ | _ | _ | n
  · exact .inl ⟨rfl, rfl⟩
  · exact .inr (.inl ⟨rfl, rfl⟩)
  · exact .inr (.inr ⟨rfl, rfl⟩)
  · omega

/-- Any other character than a dash leads back into the text. -/
theorem commentState_other {w : List Char} {x : Char} (hx : x ≠ '-') :
    commentState (w ++ [x]) = .comment := by
  have hsingle : w ++ [x] ≠ ['-'] := by
    intro h
    have hlast := congrArg List.getLast? h
    simp at hlast
    exact hx hlast
  rcases commentState_eq (by simp) hsingle with h | h | h
  · exact h.2
  all_goals
    rw [heldDashes_other w hx] at h
    cases h.1

namespace Machine

/-- One character of a comment that does not end it. -/
theorem step_comment (m : Machine) {w : List Char} (c : Char) (rest : List Char)
    (hstate : m.state = commentState w) (hopen : (Reading.of c rest).char = '>' → ¬ Closes w) :
    ∃ told : List Char,
      m.step c rest = m.take (Reading.of c rest) (commentState (w ++ [(Reading.of c rest).char]))
        (told.map .commentData) ∧
      commentTold (w ++ [(Reading.of c rest).char]) = commentTold w ++ told := by
  generalize hr : Reading.of c rest = r at hopen ⊢
  by_cases hdash : r.char = '-'
  · -- A dash is held back, or is the third.
    rw [hdash]
    by_cases hempty : w = []
    · subst hempty
      exact ⟨[], by simp [step, hstate, hr, commentState, stepCommentStart, hdash], rfl⟩
    by_cases hsingle : w = ['-']
    · subst hsingle
      exact ⟨[], by simp [step, hstate, hr, commentState, stepCommentStartDash, hdash, heldDashes,
        dashesAtEnd], rfl⟩
    have hheld' := heldDashes_dash w
    rcases commentState_eq hempty hsingle with ⟨hheld, hw⟩ | ⟨hheld, hw⟩ | ⟨hheld, hw⟩
    · have hnext : commentState (w ++ ['-']) = .commentEndDash := by
        simp [commentState, hempty, hheld', hheld]
      rw [hnext]
      refine ⟨[], ?_, by rw [commentTold_dash (by omega), List.append_nil]⟩
      simp [step, hstate, hw, hr, stepComment, hdash]
    · have hnext : commentState (w ++ ['-']) = .commentEnd := by
        simp [commentState, hempty, hheld', hheld]
      rw [hnext]
      refine ⟨[], ?_, by rw [commentTold_dash (by omega), List.append_nil]⟩
      simp [step, hstate, hw, hr, stepCommentEndDash, hdash]
    · have hnext : commentState (w ++ ['-']) = .comment := by
        simp [commentState, hempty, hheld', hheld]
      rw [hnext]
      refine ⟨['-', '-', '-'], ?_, commentTold_thirdDash hheld⟩
      simp [step, hstate, hw, hr, stepCommentEnd, hdash]
  · -- Anything else sets free what is held back.
    rw [commentState_other hdash]
    by_cases hempty : w = []
    · subst hempty
      have hbracket : r.char ≠ '>' := fun h => hopen h (.inl rfl)
      refine ⟨[r.char], ?_, commentTold_other (by simp) hdash⟩
      simp [step, hstate, hr, commentState, stepCommentStart, hdash, hbracket]
    by_cases hsingle : w = ['-']
    · subst hsingle
      have hbracket : r.char ≠ '>' := fun h => hopen h (.inr (.inl rfl))
      refine ⟨['-'], ?_, ?_⟩
      · simp [step, hstate, hr, commentState, stepCommentStartDash, hdash, hbracket]
      · rw [commentTold, heldDashes_other _ hdash]
        simp [keptOfComment, hdash, commentTold, heldDashes, dashesAtEnd, List.rdrop]
    rcases commentState_eq hempty hsingle with ⟨hheld, hw⟩ | ⟨hheld, hw⟩ | ⟨hheld, hw⟩
    · refine ⟨[r.char], ?_, by rw [commentTold_other hsingle hdash, hheld]; rfl⟩
      simp [step, hstate, hw, hr, stepComment, hdash]
    · refine ⟨['-', r.char], ?_, by rw [commentTold_other hsingle hdash, hheld]; rfl⟩
      simp [step, hstate, hw, hr, stepCommentEndDash, hdash]
    · have hbracket : r.char ≠ '>' := fun h => hopen h (.inr (.inr hheld))
      refine ⟨['-', '-', r.char], ?_, by rw [commentTold_other hsingle hdash, hheld]; rfl⟩
      simp [step, hstate, hw, hr, stepCommentEnd, hbracket]

/-- A text of a comment that does not end it, whatever stands after it. -/
theorem read_comment {s tail : List Char} {w : List Char} {m : Machine}
    (htail : tail.head? ≠ some '\n') (hstate : m.state = commentState w)
    (hopen : ∀ v u, Text.foldLineBreaks s = v ++ '>' :: u → ¬ Closes (w ++ v)) :
    ∃ (told : List Char) (m' : Machine),
      m' = { m with
        state := commentState (w ++ Text.foldLineBreaks s)
        offset := m.offset + Text.byteLength s } ∧
      m.read (s ++ tail) = ((m'.read tail).1, told.map .commentData ++ (m'.read tail).2) ∧
      commentTold (w ++ Text.foldLineBreaks s) = commentTold w ++ told := by
  induction hn : s.length using Nat.strongRecOn generalizing s w m with
  | ind n ih =>
    subst hn
    cases s with
    | nil =>
      refine ⟨[], m, ?_, by simp, by simp [Text.foldLineBreaks]⟩
      simp [Text.foldLineBreaks, ← hstate]
    | cons c rest =>
      -- One reading, which may take two characters of the text, and then the rest of it.
      have hfold := Text.foldLineBreaks_cons c rest
      have hread : Reading.of c (rest ++ tail) = (Reading.of c rest).extend tail :=
        Reading.of_append (.inr htail)
      have hlength := Reading.rest_length_le c rest
      have hbytes : Text.byteLength (c :: rest)
          = (Reading.of c rest).width + Text.byteLength (Reading.of c rest).rest := by
        obtain ⟨piece, hpiece, hwidth⟩ := Reading.of_reads c rest
        rw [hpiece, Text.byteLength_append, hwidth]
      generalize Reading.of c rest = r at hfold hread hlength hbytes
      rw [hfold] at hopen ⊢
      -- The reading does not reach into what stands after the text.
      have hchar : (Reading.of c (rest ++ tail)).char = r.char := by
        rw [hread]
        rfl
      obtain ⟨told, hstep, htold⟩ := m.step_comment c (rest ++ tail) hstate (by
        intro hbracket
        rw [hchar] at hbracket
        have hfirst := hopen [] (Text.foldLineBreaks r.rest) (by rw [hbracket]; rfl)
        rwa [List.append_nil] at hfirst)
      rw [hchar] at hstep htold
      let next : Machine :=
        { m with state := commentState (w ++ [r.char]), offset := m.offset + r.width }
      have hnext : next.state = commentState (w ++ [r.char]) := rfl
      obtain ⟨told', m', hm', hrest, htold'⟩ := ih r.rest.length (Nat.lt_succ_of_le hlength) hnext
        (fun v u hsplit => by
          have hlater := hopen (r.char :: v) u (by rw [hsplit]; rfl)
          rwa [List.append_cons] at hlater) rfl
      refine ⟨told ++ told', m', ?_, ?_, ?_⟩
      · rw [hm', hbytes, List.append_cons w]
        simp [next, Nat.add_assoc]
      · have hmachine : (m.take (r.extend tail) (commentState (w ++ [r.char]))
            (told.map .commentData)).machine = next := rfl
        rw [List.cons_append, read, hstep, hread]
        simp only [hmachine]
        simp only [take, Reading.extend]
        rw [hrest, List.map_append, List.append_assoc]
      · rw [List.append_cons w, htold', htold, List.append_assoc]

end Machine

/-! ### Texts that do not end a comment -/

/-- Folding line breaks changes nothing at the start that has no line break. -/
theorem prefix_foldLineBreaks {p s : List Char} (hp : ∀ x ∈ p, x ≠ '\n' ∧ x ≠ '\r') :
    p <+: Text.foldLineBreaks s ↔ p <+: s := by
  induction p generalizing s with
  | nil => simp
  | cons x p ih =>
    obtain ⟨⟨hfeed, hreturn⟩, hrest⟩ := List.forall_mem_cons.mp hp
    cases s with
    | nil => simp [Text.foldLineBreaks]
    | cons c rest =>
      rw [Text.foldLineBreaks_cons]
      by_cases hc : c = '\r'
      · -- Both texts begin with a line break.
        have hchar : (Reading.of c rest).char = '\n' := by
          subst hc
          unfold Reading.of
          rw [if_pos rfl]
          split <;> rfl
        rw [List.cons_prefix_cons, List.cons_prefix_cons, hchar, hc]
        exact iff_of_false (fun h => hfeed h.1) (fun h => hreturn h.1)
      · have hread : Reading.of c rest = ⟨c, c.utf8Size, rest⟩ := by
          unfold Reading.of
          rw [if_neg hc]
        rw [hread, List.cons_prefix_cons, List.cons_prefix_cons, ih hrest]

theorem infix_foldLineBreaks {p s : List Char} (hp : ∀ x ∈ p, x ≠ '\n' ∧ x ≠ '\r')
    (h : p <:+: Text.foldLineBreaks s) : p <:+: s := by
  induction hn : s.length using Nat.strongRecOn generalizing s with
  | ind n ih =>
    subst hn
    cases s with
    | nil => exact h
    | cons c rest =>
      rw [Text.foldLineBreaks_cons, List.infix_cons_iff, ← Text.foldLineBreaks_cons,
        prefix_foldLineBreaks hp] at h
      rcases h with h | h
      · exact h.isInfix
      · have hinfix := ih _ (Nat.lt_succ_of_le (Reading.rest_length_le c rest)) h rfl
        obtain ⟨piece, hpiece, -⟩ := Reading.of_reads c rest
        rw [hpiece]
        exact hinfix.trans (List.suffix_append _ _).isInfix

/-- A text that neither holds what ends a comment nor begins with the bracket of an
empty one stays in the comment, and so do two dashes after it. -/
theorem not_closes {t : List Char} (hend : ¬ ['-', '-', '>'] <:+: t) (hbracket : ¬ ['>'] <+: t)
    (hdash : ¬ ['-', '>'] <+: t) {v u : List Char} (h : t ++ ['-', '-'] = v ++ '>' :: u) :
    ¬ Closes v := by
  -- The bracket is no dash, so it stands in the text.
  have hsplit : ∃ u', t = v ++ '>' :: u' := by
    rcases List.append_eq_append_iff.mp h with ⟨a, rfl, hrest⟩ | ⟨a, rfl, hrest⟩
    · match a with
      | [] | [_] | [_, _] | _ :: _ :: _ :: _ => simp at hrest
    · cases a with
      | nil => simp at hrest
      | cons x a =>
        obtain ⟨rfl, -⟩ := List.cons.inj hrest
        exact ⟨a, rfl⟩
  obtain ⟨u', rfl⟩ := hsplit
  rintro (rfl | rfl | hheld)
  · exact hbracket ⟨u', rfl⟩
  · exact hdash ⟨u', rfl⟩
  · obtain ⟨w, rfl⟩ := suffix_of_heldDashes hheld
    exact hend ⟨w, u', by simp⟩

/-! ### The end of a comment -/

theorem heldDashes_ending (t : List Char) :
    heldDashes (t ++ ['-', '-']) = (dashesAtEnd t + 2) % 3 := by
  rw [List.append_cons, heldDashes, dashesAtEnd_dash, dashesAtEnd_dash]

/-- Where the dashes in front of the last two come in threes, the last two are all
that is held back. -/
theorem commentTold_ending {t : List Char} (h : dashesAtEnd t % 3 = 0) :
    commentTold (t ++ ['-', '-']) = keptOfComment t := by
  have hheld : heldDashes (t ++ ['-', '-']) = 2 := by
    rw [heldDashes_ending]
    omega
  have hkept : keptOfComment (t ++ ['-', '-']) = keptOfComment t ++ ['-', '-'] := by
    rw [List.append_cons, keptOfComment_snoc fun _ => rfl, keptOfComment_snoc fun _ => rfl,
      List.append_assoc]
    rfl
  have hall := commentTold_append (t ++ ['-', '-'])
  rw [hheld, hkept] at hall
  exact List.append_cancel_right hall

namespace Machine

/-- A bracket that ends a comment. -/
theorem read_closingBracket {m : Machine} {w : List Char} (hstate : m.state = commentState w)
    (hlength : 2 ≤ w.length) (hheld : heldDashes w = 2) :
    m.read ['>'] = ({ m with state := .beforeData, offset := m.offset + 1 },
      [.finishComment (min (m.offset + 1) maxOffset)]) := by
  have hclosing : m.state = .commentEnd := by
    rcases commentState_eq (w := w) (by rintro rfl; cases hlength)
      (by rintro rfl; simp at hlength) with h | h | h
    · omega
    · omega
    · exact hstate.trans h.2
  simp [read, step, hclosing, stepCommentEnd, closeComment, take, posAfter, Reading.of,
    Char.utf8Size]

/-- A bracket that does not end a comment. -/
theorem read_openBracket {m : Machine} {w : List Char} (hstate : m.state = commentState w)
    (hopen : ¬ Closes w) :
    ∃ told : List Char, m.read ['>'] = ({ m with state := .comment, offset := m.offset + 1 },
      told.map .commentData) := by
  obtain ⟨told, hstep, -⟩ := m.step_comment '>' [] hstate fun _ => hopen
  rw [commentState_other (by simp [Reading.of])] at hstep
  refine ⟨told, ?_⟩
  rw [read, hstep]
  simp [take, Reading.of, read, Char.utf8Size]

/-- What opens a comment. -/
theorem read_commentStart (mode : Mode) (rest : List Char) :
    Machine.read { mode } ('<' :: '!' :: '-' :: '-' :: rest) =
      let result := Machine.read { mode, state := .commentStart, offset := 4 } rest
      (result.1, .tagOpen 0 :: .beginComment 0 :: result.2) := by
  simp [read, step, stepBeforeData, stepTagOpen, stepMarkupDeclaration, Reading.of, ignoresTag,
    openTag, take, pos, Char.utf8Size]

end Machine

/-! ### Comments as tokens -/

/-- The characters of a comment are gathered. -/
theorem Collector.observeAll_commentData (c : Collector) (text : String) (span : Span)
    (told : List Char) (h : c.current = some (.comment text span)) :
    c.observeAll (told.map .commentData)
      = { c with current := some (.comment (text ++ String.ofList told) span) } := by
  induction told generalizing c text with
  | nil =>
    have hsame : text ++ String.ofList [] = text := by simp
    rw [hsame, ← h]
    rfl
  | cons x told ih =>
    have hpush : text ++ String.ofList (x :: told) = text.push x ++ String.ofList told := by
      simp [← String.toList_inj]
    rw [List.map_cons, hpush]
    exact ih (c.observe (.commentData x)) (text.push x)
      (by simp [Collector.observe, h, Token.push])

/-- The tokens of a text that opens a comment, by what is read after the opening. -/
theorem tokenize_commentStart {mode : Mode} {rest told : List Char} {m : Machine}
    {events : List Event} (hread : Machine.read { mode, state := .commentStart, offset := 4 } rest
      = (m, told.map .commentData ++ events)) (hstate : m.state ≠ .data) :
    let c := Collector.observeAll
      { current := some (.comment (String.ofList told) (.point 0)) } events
    tokenize mode ('<' :: '!' :: '-' :: '-' :: rest) = (c.tokens, c.problems) := by
  have hbegun := Collector.observeAll_commentData
    { current := some (.comment "" (.point 0)) } "" (.point 0) told rfl
  have hgathered : Collector.observeAll {}
      (.tagOpen 0 :: .beginComment 0 :: (told.map .commentData ++ events))
      = Collector.observeAll { current := some (.comment (String.ofList told) (.point 0)) }
        events := by
    rw [String.empty_append] at hbegun
    rw [← List.cons_append, ← List.cons_append, Collector.observeAll_append, ← hbegun]
    rfl
  rw [tokenize_eq, Machine.read_commentStart, hread]
  simp only [Machine.flush, if_neg hstate, List.append_nil, hgathered]

/-- A comment is one token with what is kept of its text, if the dashes at the end of
the text come in threes.  Otherwise it is not ended at all. -/
theorem tokenize_comment (mode : Mode) {s : List Char} (hend : ¬ ['-', '-', '>'] <:+: s)
    (hbracket : ¬ ['>'] <+: s) (hdash : ¬ ['-', '>'] <+: s) :
    let input := '<' :: '!' :: '-' :: '-' :: (s ++ ['-', '-', '>'])
    let text := Text.foldLineBreaks s
    tokenize mode input =
      (if dashesAtEnd text % 3 = 0 then
        [.comment (String.ofList (keptOfComment text)) (.ofOffsets 0 (Text.byteLength input))]
      else [], []) := by
  intro input text
  have hfold : Text.foldLineBreaks (s ++ ['-', '-']) = text ++ ['-', '-'] :=
    Text.foldLineBreaks_append_cons s (by decide) ['-']
  have hopen : ∀ v u, text ++ ['-', '-'] = v ++ '>' :: u → ¬ Closes ([] ++ v) := fun v u hsplit =>
    not_closes (fun h => hend (infix_foldLineBreaks (by simp) h))
      (fun h => hbracket ((prefix_foldLineBreaks (by simp)).mp h))
      (fun h => hdash ((prefix_foldLineBreaks (by simp)).mp h)) hsplit
  have hstart : Machine.state { mode, state := .commentStart, offset := 4 } = commentState [] := rfl
  -- The text and the two dashes after it, with the bracket still to be read.
  have hbracket' : (['>'] : List Char).head? ≠ some '\n' := by simp
  obtain ⟨told, m, hm, hread, htold⟩ := Machine.read_comment hbracket' hstart (hfold ▸ hopen)
  rw [hfold, List.nil_append] at hm htold
  rw [List.append_assoc] at hread
  have hstate : m.state = commentState (text ++ ['-', '-']) := by rw [hm]
  have hheld := heldDashes_ending text
  by_cases hthree : dashesAtEnd text % 3 = 0
  · have hbytes : Text.byteLength input = m.offset + 1 := by
      have hsizes : '<'.utf8Size = 1 ∧ '!'.utf8Size = 1 ∧ '-'.utf8Size = 1 ∧ '>'.utf8Size = 1 := by
        decide
      simp only [input, hm, Text.byteLength_cons, Text.byteLength_append, Text.byteLength_nil]
      omega
    have htold' : told = keptOfComment text := by
      rw [← commentTold_ending hthree, htold]
      rfl
    rw [Machine.read_closingBracket hstate (by simp) (by omega)] at hread
    refine (tokenize_commentStart hread (by simp)).trans ?_
    rw [if_pos hthree, hbytes, ← htold']
    rfl
  · have hclosed : ¬ Closes (text ++ ['-', '-']) := by
      rintro (h | h | h)
      · simp at h
      · exact absurd (congrArg List.length h) (by simp)
      · omega
    obtain ⟨last, hlast⟩ := Machine.read_openBracket hstate hclosed
    rw [hlast] at hread
    refine (tokenize_commentStart hread (by simp)).trans ?_
    rw [if_neg hthree, Collector.observeAll_commentData _ _ _ _ rfl]

theorem tokenize_comment_dashes :
    let s := ['-', '-', '-', 'a', '\r', '\n', '-', '-', '-']
    (¬ ['-', '-', '>'] <:+: s ∧ ¬ ['>'] <+: s ∧ ¬ ['-', '>'] <+: s) ∧
      tokenize .precompile ('<' :: '!' :: '-' :: '-' :: (s ++ ['-', '-', '>']))
        = ([.comment "---a\n---" ⟨0, 16⟩], []) := by
  intro s
  have hs : ¬ ['-', '-', '>'] <:+: s ∧ ¬ ['>'] <+: s ∧ ¬ ['-', '>'] <+: s := by
    simp [s, List.infix_cons_iff]
  refine ⟨hs, ?_⟩
  rw [tokenize_comment .precompile hs.1 hs.2.1 hs.2.2]
  decide +kernel

/-- Not every comment keeps its text: behind a single dash at the start a character is
lost.  Nor is every comment ended: a dash in front of the end hides it. -/
theorem tokenize_alters_comments :
    ¬ ∀ (mode : Mode) (s : List Char), ¬ ['-', '-', '>'] <:+: s → ¬ ['>'] <+: s →
      ¬ ['-', '>'] <+: s →
      let input := '<' :: '!' :: '-' :: '-' :: (s ++ ['-', '-', '>'])
      tokenize mode input
        = ([.comment (String.ofList (Text.foldLineBreaks s))
            (.ofOffsets 0 (Text.byteLength input))],
          []) := by
  intro h
  have hlost : tokenize .precompile ['<', '!', '-', '-', '-', 'a', '-', '-', '>']
      = ([.comment "-" ⟨0, 9⟩], []) := by decide +kernel
  have hclaimed := h .precompile ['-', 'a'] (by simp [List.infix_cons_iff]) (by simp) (by simp)
  exact absurd (hlost.symm.trans hclaimed) (by decide)

example : tokenize .precompile ['<', '!', '-', '-', 'a', '-', '-', '-', '>'] = ([], []) := by
  decide +kernel

end TemplateCompiler.Markup
