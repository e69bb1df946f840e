/-
What the markup reader reads, step by step.

* `Text.foldLineBreaks` — a text with each of its line breaks as one line feed;
* `Text.foldLineBreaks_cons` — reading one character folds line breaks;
* `Machine.step_reads` — a step reads a piece of the text, and moves the offset
  by the bytes of the piece;
* `Machine.step_quiet` — outside of a run of text no step ends one.
-/
import TemplateCompiler.Markup.Machine

namespace TemplateCompiler

/-! ### Line breaks -/

/-- A text with each carriage return, together with the line feed after it if
there is one, as one line feed. -/
def Text.foldLineBreaks : List Char → List Char
  | [] => []
  | '\r' :: '\n' :: rest => '\n' :: foldLineBreaks rest
  | '\r' :: rest => '\n' :: foldLineBreaks rest
  | c :: rest => c :: foldLineBreaks rest

namespace Markup

/-- Only a carriage return is read as another character than it is. -/
theorem Reading.of_eq {c : Char} {rest : List Char} (h : (Reading.of c rest).char ≠ '\n') :
    Reading.of c rest = ⟨c, c.utf8Size, rest⟩ := by
  unfold Reading.of at h ⊢
  by_cases hc : c = '\r'
  · rw [if_pos hc] at h
    split at h <;> exact absurd rfl h
  · rw [if_neg hc]

/-- One character is read from a piece of the text. -/
theorem Reading.of_reads (c : Char) (rest : List Char) :
    ∃ piece, c :: rest = piece ++ (Reading.of c rest).rest ∧
      Text.byteLength piece = (Reading.of c rest).width := by
  unfold Reading.of
  by_cases hc : c = '\r'
  · rw [if_pos hc]
    subst hc
    split
    · exact ⟨['\r', '\n'], rfl, rfl⟩
    · exact ⟨['\r'], rfl, rfl⟩
  · rw [if_neg hc]
    exact ⟨[c], rfl, rfl⟩

end Markup

/-- Line breaks are folded one character at a time. -/
theorem Text.foldLineBreaks_cons (c : Char) (rest : List Char) :
    Text.foldLineBreaks (c :: rest) = (Markup.Reading.of c rest).char
      :: Text.foldLineBreaks (Markup.Reading.of c rest).rest := by
  unfold Markup.Reading.of
  by_cases hc : c = '\r'
  · rw [if_pos hc]
    subst hc
    split
    · rw [Text.foldLineBreaks]
    · next hrest => rw [Text.foldLineBreaks.eq_3 rest fun after h => hrest after h]
  · rw [if_neg hc, Text.foldLineBreaks.eq_4 c rest (fun after h => absurd h hc) hc]

/-- A cut in front of anything but a line feed parts no line break. -/
theorem Text.foldLineBreaks_append_cons (a : List Char) {c : Char} (hc : c ≠ '\n')
    (rest : List Char) : Text.foldLineBreaks (a ++ c :: rest)
      = Text.foldLineBreaks a ++ Text.foldLineBreaks (c :: rest) := by
  fun_induction Text.foldLineBreaks a with
  -- The text has ended.
  | case1 => rfl
  -- A line feed behind a carriage return.
  | case2 a ih =>
    show Text.foldLineBreaks ('\r' :: '\n' :: (a ++ c :: rest)) = _
    rw [Text.foldLineBreaks, ih, List.cons_append]
  -- A carriage return alone.
  | case3 a ha ih =>
    -- What follows the carriage return is no line feed, whether it is in `a` or not.
    have hnext : ∀ after, a ++ c :: rest = '\n' :: after → False := by
      intro after h
      cases a with
      | nil => exact hc (List.cons.inj h).1
      | cons d a => exact ha a (by rw [(List.cons.inj h).1])
    show Text.foldLineBreaks ('\r' :: (a ++ c :: rest)) = _
    rw [Text.foldLineBreaks.eq_3 _ hnext, ih, List.cons_append]
  -- Any other character.
  | case4 d a hpair hd ih =>
    show Text.foldLineBreaks (d :: (a ++ c :: rest)) = _
    rw [Text.foldLineBreaks.eq_4 d _ (fun after h => absurd h hd) hd, ih, List.cons_append]

namespace Markup.Machine

/-! ### Steps -/

/-- A step that has read a piece of a text; how references are resolved stays as
it is. -/
structure ReadsOf (m : Machine) (input : List Char) (next : Step) : Prop where
  piece : ∃ piece, input = piece ++ next.rest ∧
    next.machine.offset = m.offset + Text.byteLength piece
  resolver : next.machine.resolver = m.resolver

/-- A reference is read with its ampersand and its semicolon. -/
theorem reference?_reads {m : Machine} {c : Char} {rest text : List Char} {whole : Reading}
    (hc : (Reading.of c rest).char = '&')
    (h : m.reference? (Reading.of c rest) = some (text, whole)) :
    ∃ body, c :: rest = '&' :: body ++ whole.rest ∧
      whole.width = Text.byteLength ('&' :: body) := by
  have hplain : Reading.of c rest = ⟨c, c.utf8Size, rest⟩ :=
    Reading.of_eq (by rw [hc]; decide)
  rw [hplain] at hc h
  obtain rfl : c = '&' := hc
  rw [reference?] at h
  simp only at h
  split at h
  · cases h
  · next d after hafter =>
    obtain ⟨text', -, hwhole⟩ := Option.map_eq_some_iff.mp h
    obtain ⟨-, rfl⟩ := Prod.mk.inj hwhole
    -- The body ends in front of a semicolon, so that is what stands after it.
    have hd : d = ';' := by
      have hhead := List.head_dropWhile_not (· ≠ ';') (l := rest) (by rw [hafter]; simp)
      simp only [hafter, List.head_cons] at hhead
      simpa using hhead
    refine ⟨rest.takeWhile (· ≠ ';') ++ [';'], ?_, ?_⟩
    · have hrest := List.takeWhile_append_dropWhile (p := (· ≠ ';')) (l := rest)
      rw [hafter, hd] at hrest
      simpa using hrest.symm
    · simp only [Text.byteLength_cons, Text.byteLength_append, Text.byteLength_nil]
      have hsize : ';'.utf8Size = 1 := rfl
      omega

/-- The two dashes that begin a comment are read together. -/
theorem stepMarkupDeclaration_reads (m : Machine) (c : Char) (rest : List Char) :
    m.ReadsOf (c :: rest) (m.stepMarkupDeclaration (Reading.of c rest)) := by
  rw [stepMarkupDeclaration]
  split
  · next after hc hrest =>
    have hplain : Reading.of c rest = ⟨c, c.utf8Size, rest⟩ :=
      Reading.of_eq (by rw [hc]; decide)
    rw [hplain] at hc hrest ⊢
    obtain rfl : c = '-' := hc
    exact ⟨⟨['-', '-'], by rw [show rest = '-' :: after from hrest]; rfl, rfl⟩, rfl⟩
  · obtain ⟨piece, hpiece, hwidth⟩ := Reading.of_reads c rest
    exact ⟨⟨piece, hpiece, by rw [hwidth]; rfl⟩, rfl⟩

/-- Every step reads a piece of the text, which may be empty. -/
theorem step_reads (m : Machine) (c : Char) (rest : List Char) :
    m.ReadsOf (c :: rest) (m.step c rest) := by
  obtain ⟨piece, hpiece, hwidth⟩ := Reading.of_reads c rest
  have htake : ∀ (m' : Machine) (state : State) (events : List Event), m'.offset = m.offset →
      m'.resolver = m.resolver →
      m.ReadsOf (c :: rest) (m'.take (Reading.of c rest) state events) := by
    intro m' state events hoffset hresolver
    refine ⟨⟨piece, hpiece, ?_⟩, hresolver⟩
    rw [hwidth, ← hoffset]
    rfl
  -- A step that only hands over reads the empty piece.
  have hhand : ∀ (state : State) (events : List Event),
      m.ReadsOf (c :: rest) (m.hand (c :: rest) state events) :=
    fun state events => ⟨⟨[], rfl, rfl⟩, rfl⟩
  have href : ∀ tell : Char → Event, (Reading.of c rest).char = '&' →
      m.ReadsOf (c :: rest) (m.takeReference (Reading.of c rest) tell) := by
    intro tell hc
    rw [takeReference]
    split
    · next text whole hsome =>
      obtain ⟨body, hbody, hbytes⟩ := reference?_reads hc hsome
      exact ⟨⟨'&' :: body, hbody, by rw [← hbytes]; rfl⟩, rfl⟩
    · exact htake m _ _ rfl rfl
  rw [step]
  cases hs : m.state <;>
    simp only [stepBeforeData, stepData, stepTagOpen, stepCommentStart,
      stepCommentStartDash, stepComment, stepCommentEndDash, stepCommentEnd, stepTagName,
      stepEndTagName, stepBeforeAttributeName, stepAttributeName, stepAfterAttributeName,
      stepBeforeAttributeValue, stepQuotedValue, stepUnquotedValue, stepAfterQuotedValue,
      stepSelfClosing, stepEndTagOpen, openTag, closeTag, closeComment, startName,
      takeNameChar] <;>
    repeat' split
  all_goals first
    | exact htake _ _ _ rfl rfl
    | exact hhand _ _
    | exact href _ ‹_›
    | exact href _ (And.left ‹_›)
    | exact stepMarkupDeclaration_reads m c rest

/-- Outside of text no step ends a run of text, or leads into one. -/
theorem step_quiet (m : Machine) (c : Char) (rest : List Char) (h : m.state.isData = false) :
    (m.step c rest).machine.state ≠ .data ∧ ∀ pos, .finishData pos ∉ (m.step c rest).events := by
  rw [step]
  cases hs : m.state <;> rw [hs] at h <;> cases h <;>
    simp only [stepTagOpen, stepMarkupDeclaration, stepCommentStart,
      stepCommentStartDash, stepComment, stepCommentEndDash, stepCommentEnd, stepTagName,
      stepEndTagName, stepBeforeAttributeName, stepAttributeName, stepAfterAttributeName,
      stepBeforeAttributeValue, stepQuotedValue, stepUnquotedValue, stepAfterQuotedValue,
      stepSelfClosing, stepEndTagOpen, takeReference] <;>
    repeat' split
  all_goals simp [take, hand, closeTag, closeComment, startName, takeNameChar, emptyValue, hs]

end Markup.Machine

end TemplateCompiler
