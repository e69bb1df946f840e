/-
Line breaks that are dropped.

The reader drops a line break right after the start tag of a preformatted element.
It knows such a place by the name of the last tag, which it keeps beyond the tag.

* `lastTag` — the last tag that events tell of;
* `Machine.Runs` — what a reader has told, and what it has still to read, at any
  moment of any calls;
* `Machine.Follows` — what the events say about the reader; `Machine.step_follows`
  and `Machine.Runs.follows` keep it along every run;
* `Machine.Runs.drops_iff` — which line breaks are dropped, and that all others are
  told.

Nothing but a tag changes the name that is kept.  So a line break is dropped
wherever a preformatted element was begun last and a tag, a comment or a run of
text has just been ended.
-/
import TemplateCompiler.Proofs.Markup.Reading

namespace TemplateCompiler.Markup

/-! ### What events tell -/

/-- A tag that events tell of: whether it is a start tag, and its name so far. -/
structure ToldTag where
  opens : Bool
  name : String
deriving DecidableEq, Repr

/-- The last tag after one more event. -/
def ToldTag.note (last : Option ToldTag) : Event → Option ToldTag
  | .beginStartTag _ => some ⟨true, ""⟩
  | .beginEndTag _ => some ⟨false, ""⟩
  | .tagName c => last.map fun t => { t with name := t.name.push c }
  | _ => last

/-- The last tag that events tell of. -/
def lastTag (events : List Event) : Option ToldTag := events.foldl ToldTag.note none

/-- Whether the tag begins an element that drops a line break. -/
def ToldTag.isPreformatted (t : ToldTag) : Bool :=
  t.opens && (t.name.toLower == "pre" || t.name.toLower == "textarea")

/-- Whether the event ends a tag, a comment or a run of text. -/
def Event.isEnd : Event → Bool
  | .finishTag _ | .finishComment _ | .finishData _ => true
  | _ => false

theorem lastTag_append (events more : List Event) :
    lastTag (events ++ more) = more.foldl ToldTag.note (lastTag events) := by
  rw [lastTag, List.foldl_append]
  rfl

/-- Only the events of a tag change what is known of the last one. -/
theorem foldl_note_map {tell : Char → Event} (h : ∀ last c, ToldTag.note last (tell c) = last)
    (last : Option ToldTag) (cs : List Char) : (cs.map tell).foldl ToldTag.note last = last := by
  induction cs with
  | nil => rfl
  | cons c cs ih => rw [List.map_cons, List.foldl_cons, h, ih]

namespace Machine

/-! ### Runs -/

/-- A moment of a run: the events so far, the reader, and what is left of the piece of
text that it is reading.  Between two pieces the reader can be moved and flushed. -/
inductive Runs (mode : Mode) (resolver : Resolver) : List Event → Machine → List Char → Prop
  | start : Runs mode resolver [] { mode, resolver } []
  | moveTo {events : List Event} {m : Machine} (offset : Nat) (h : Runs mode resolver events m []) :
    Runs mode resolver events (m.moveTo offset) []
  | flush {events : List Event} {m : Machine} (h : Runs mode resolver events m []) :
    Runs mode resolver (events ++ m.flush.2) m.flush.1 []
  | piece {events : List Event} {m : Machine} (text : List Char)
      (h : Runs mode resolver events m []) :
    Runs mode resolver events m text
  | step {events : List Event} {m : Machine} {c : Char} {rest : List Char}
    (h : Runs mode resolver events m (c :: rest)) :
    Runs mode resolver (events ++ (m.step c rest).events) (m.step c rest).machine
      (m.step c rest).rest

/-- A piece of text is read to its end. -/
theorem Runs.read {mode : Mode} {resolver : Resolver} {events : List Event} {m : Machine}
    {input : List Char} (h : Runs mode resolver events m input) :
    Runs mode resolver (events ++ (m.read input).2) (m.read input).1 [] := by
  suffices hall : ∀ events, Runs mode resolver events m input →
      Runs mode resolver (events ++ (m.read input).2) (m.read input).1 [] from hall events h
  clear h
  fun_induction Machine.read m input with
  -- The piece is used up.
  | case1 m =>
    intro events h
    rw [List.append_nil]
    exact h
  -- One step, and then the rest.
  | case2 m c rest next result ih =>
    intro events h
    rw [← List.append_assoc]
    exact ih _ h.step

/-! ### What a reader remembers -/

/-- The reader keeps the name of a start tag, and forgets that of an end tag when the
name is over. -/
def Remembers (m : Machine) : Option ToldTag → Prop
  | none => m.tagName = "" ∧ m.state ≠ .tagName ∧ m.state ≠ .endTagName
  | some ⟨true, name⟩ => m.tagName = name ∧ m.state ≠ .endTagName
  | some ⟨false, name⟩ =>
    (m.state = .endTagName ∧ m.tagName = name) ∨
      (m.state ≠ .endTagName ∧ m.state ≠ .tagName ∧ m.tagName = "")

/-- What the events so far say about a reader. -/
structure Follows (events : List Event) (m : Machine) : Prop where
  tag : m.Remembers (lastTag events)
  pause : m.state = .beforeData → ∀ e ∈ events.getLast?, e.isEnd = true
  text : m.state = .data → ∃ e ∈ events.getLast?, e.isEnd = false

theorem takeReference_remembers {m : Machine} {tell : Char → Event} {last : Option ToldTag}
    (h : ∀ last c, ToldTag.note last (tell c) = last) (hm : m.Remembers last) (r : Reading) :
    (m.takeReference r tell).machine.Remembers
      ((m.takeReference r tell).events.foldl ToldTag.note last) := by
  rw [takeReference]
  split
  · rw [take, foldl_note_map h]
    exact hm
  · rw [take, show [tell '&'] = ['&'].map tell from rfl, foldl_note_map h]
    exact hm

/-- One step keeps the name of the last tag. -/
theorem step_remembers {m : Machine} {last : Option ToldTag} (h : m.Remembers last) (c : Char)
    (rest : List Char) :
    (m.step c rest).machine.Remembers ((m.step c rest).events.foldl ToldTag.note last) := by
  rw [step]
  cases hs : m.state <;>
    simp only [stepBeforeData, stepData, stepTagOpen, stepMarkupDeclaration, stepCommentStart,
      stepCommentStartDash, stepComment, stepCommentEndDash, stepCommentEnd, stepTagName,
      stepEndTagName, stepBeforeAttributeName, stepAttributeName, stepAfterAttributeName,
      stepBeforeAttributeValue, stepQuotedValue, stepUnquotedValue, stepAfterQuotedValue,
      stepSelfClosing, stepEndTagOpen] <;>
    repeat' split
  all_goals first
    | exact takeReference_remembers (fun _ _ => rfl) h _
    | (obtain _ | ⟨_ | _, name⟩ := last <;>
        simp_all [Remembers, take, hand, openTag, closeTag, closeComment, startName, takeNameChar,
          emptyValue, ToldTag.note])

theorem step_mode (m : Machine) (c : Char) (rest : List Char) :
    (m.step c rest).machine.mode = m.mode := by
  rw [step]
  cases m.state <;>
    simp only [stepBeforeData, stepData, stepTagOpen, stepMarkupDeclaration, stepCommentStart,
      stepCommentStartDash, stepComment, stepCommentEndDash, stepCommentEnd, stepTagName,
      stepEndTagName, stepBeforeAttributeName, stepAttributeName, stepAfterAttributeName,
      stepBeforeAttributeValue, stepQuotedValue, stepUnquotedValue, stepAfterQuotedValue,
      stepSelfClosing, stepEndTagOpen, takeReference] <;>
    repeat' split
  all_goals rfl

/-- A step to a place between two tokens ends one. -/
theorem step_pauses {m : Machine} {c : Char} {rest : List Char}
    (h : (m.step c rest).machine.state = .beforeData) :
    ∃ e ∈ (m.step c rest).events.getLast?, e.isEnd = true := by
  rw [step] at h ⊢
  cases hs : m.state <;>
    simp only [hs, stepBeforeData, stepData, stepTagOpen, stepMarkupDeclaration, stepCommentStart,
      stepCommentStartDash, stepComment, stepCommentEndDash, stepCommentEnd, stepTagName,
      stepEndTagName, stepBeforeAttributeName, stepAttributeName, stepAfterAttributeName,
      stepBeforeAttributeValue, stepQuotedValue, stepUnquotedValue, stepAfterQuotedValue,
      stepSelfClosing, stepEndTagOpen, takeReference] at h ⊢ <;>
    repeat' split at h
  all_goals
    simp_all [take, hand, openTag, closeTag, closeComment, startName, takeNameChar, Event.isEnd]

/-- A step to a run of text begins it, goes on with it, or tells nothing. -/
theorem step_writes {m : Machine} {c : Char} {rest : List Char}
    (h : (m.step c rest).machine.state = .data) :
    (∃ e ∈ (m.step c rest).events.getLast?, e.isEnd = false) ∨
      (m.state = .data ∧ (m.step c rest).events = []) := by
  by_cases hdata : m.state.isData = true
  · cases hs : m.state <;> rw [hs] at hdata <;> cases hdata <;>
      simp only [step, hs, stepBeforeData, stepData] at h ⊢
    · split at h
      · cases h
      · rename_i hbracket
        rw [if_neg hbracket]
        split <;> exact .inl ⟨_, rfl, rfl⟩
    · split at h
      · cases h
      · rename_i hbracket
        rw [if_neg hbracket]
        split
        · rw [takeReference]
          split
          -- A reference may stand for no character at all; then nothing is told.
          · next text whole href =>
            rcases List.eq_nil_or_concat text with rfl | ⟨front, x, rfl⟩
            · exact .inr ⟨trivial, rfl⟩
            · exact .inl ⟨.data x, by simp [take], rfl⟩
          · exact .inl ⟨_, rfl, rfl⟩
        · exact .inl ⟨_, rfl, rfl⟩
  · rw [Bool.not_eq_true] at hdata
    exact absurd h (m.step_quiet c rest hdata).1

theorem step_follows {events : List Event} {m : Machine} (h : m.Follows events) (c : Char)
    (rest : List Char) : Follows (events ++ (m.step c rest).events) (m.step c rest).machine where
  tag := by
    rw [lastTag_append]
    exact step_remembers h.tag c rest
  pause hstate e he := by
    obtain ⟨e', he', hend⟩ := step_pauses hstate
    rw [List.getLast?_append, Option.mem_def.mp he'] at he
    obtain rfl := Option.some.inj he
    exact hend
  text hstate := by
    rcases step_writes hstate with ⟨e, he, hopen⟩ | ⟨hdata, hnone⟩
    · exact ⟨e, by rw [List.getLast?_append, Option.mem_def.mp he]; rfl, hopen⟩
    · rw [hnone, List.append_nil]
      exact h.text hdata

/-- In a run of text no name is being read. -/
theorem flush_remembers {m : Machine} {last : Option ToldTag} (h : m.Remembers last) :
    m.flush.1.Remembers last := by
  rw [flush]
  split
  · obtain _ | ⟨_ | _, name⟩ := last <;> simp_all [Remembers]
  · exact h

theorem flush_follows {events : List Event} {m : Machine} (h : Follows events m) :
    Follows (events ++ m.flush.2) m.flush.1 := by
  have hremembers := flush_remembers h.tag
  rw [flush] at hremembers ⊢
  split
  · next hdata =>
    rw [if_pos hdata] at hremembers
    have htag : lastTag (events ++ [Event.finishData m.pos]) = lastTag events := by
      rw [lastTag_append]
      rfl
    refine ⟨htag ▸ hremembers, fun _ e he => ?_, fun hstate => by cases hstate⟩
    rw [List.getLast?_concat] at he
    obtain rfl := Option.some.inj he
    rfl
  · rw [List.append_nil]
    exact h

/-- The events of a run say where the reader is. -/
theorem Runs.follows {mode : Mode} {resolver : Resolver} {events : List Event} {m : Machine}
    {input : List Char} (h : Runs mode resolver events m input) :
    Follows events m ∧ m.mode = mode := by
  induction h with
  | start =>
    exact ⟨⟨⟨rfl, by simp, by simp⟩, fun _ e he => (by cases he), fun hstate => by cases hstate⟩,
      rfl⟩
  | moveTo offset h ih => exact ⟨⟨ih.1.tag, ih.1.pause, ih.1.text⟩, ih.2⟩
  | flush h ih =>
    refine ⟨flush_follows ih.1, ?_⟩
    rw [Machine.flush]
    split <;> exact ih.2
  | piece text h ih => exact ih
  | step h ih => exact ⟨step_follows ih.1 _ _, (step_mode _ _ _).trans ih.2⟩

/-! ### Line breaks -/

/-- What a reader tells at a line break in text: it begins a run of text, unless it is
in one, and tells the line break, unless it drops it. -/
def lineBreakEvents (m : Machine) (r : Reading) (dropped : Bool) : List Event :=
  (if m.state = .beforeData then [.beginData (if dropped then m.posAfter r else m.pos)] else [])
    ++ if dropped then [] else [.data '\n']

/-- The reader after a line break in text. -/
def afterLineBreak (m : Machine) (r : Reading) : Machine :=
  { m with state := .data, offset := m.offset + r.width }

/-- A line break in text, and what follows it. -/
theorem read_lineBreak {m : Machine} {c : Char} {rest : List Char} (hdata : m.state.isData = true)
    (hbreak : (Reading.of c rest).char = '\n') :
    let dropped := m.state == .beforeData && m.dropsLineBreak
    let result := (m.afterLineBreak (Reading.of c rest)).read (Reading.of c rest).rest
    m.read (c :: rest)
      = (result.1, m.lineBreakEvents (Reading.of c rest) dropped ++ result.2) := by
  have htext : ∀ m' : Machine, m'.state = .data →
      m'.step c rest = m'.take (Reading.of c rest) .data [.data '\n'] := by
    intro m' hs
    simp [step, hs, stepData, hbreak]
  -- In front of the text, where it may be dropped, or in the middle of it.
  cases hs : m.state <;> rw [hs] at hdata <;> cases hdata
  · by_cases hdrops : m.dropsLineBreak = true
    · have hstep : m.step c rest = m.take (Reading.of c rest) .data
          [.beginData (m.posAfter (Reading.of c rest))] := by
        simp [step, hs, stepBeforeData, hbreak, hdrops]
      rw [read, hstep]
      simp [take, afterLineBreak, lineBreakEvents, hs, hdrops]
    · -- The line break is handed over, and read in the run of text.
      have hstep : m.step c rest = m.hand (c :: rest) .data [.beginData m.pos] := by
        simp [step, hs, stepBeforeData, hbreak, hdrops]
      rw [read, hstep]
      simp only [hand]
      rw [read, htext _ rfl]
      simp [take, afterLineBreak, lineBreakEvents, hs, hdrops]
  · rw [read, htext m hs]
    simp [take, afterLineBreak, lineBreakEvents, hs]

/-- A reader drops line breaks between tokens exactly when the last tag begins a
preformatted element. -/
theorem Remembers.dropsLineBreak_iff {m : Machine} {last : Option ToldTag} (h : m.Remembers last)
    (hstate : m.state.isData = true) :
    m.dropsLineBreak = true ↔ m.mode = .precompile ∧ ∃ t ∈ last, t.isPreformatted = true := by
  have hname : m.state ≠ .endTagName := by
    intro hs
    rw [hs] at hstate
    cases hstate
  have hempty : m.tagName = "" → m.dropsLineBreak = false := by
    intro hnone
    have hplain : ("".toLower == "pre" || "".toLower == "textarea") = false := by decide +kernel
    rw [dropsLineBreak, hnone, hplain, Bool.and_false]
  cases last with
  | none => simp [hempty h.1]
  | some told =>
    obtain ⟨opens, name⟩ := told
    cases opens with
    | true =>
      obtain rfl := h.1
      simp [dropsLineBreak, ToldTag.isPreformatted]
    | false =>
      rcases h with h | h
      · exact absurd h.1 hname
      · simp [hempty h.2.2, ToldTag.isPreformatted]

/-- At any moment of a run, a line break in text is dropped exactly when the last tag
begins a preformatted element and the last event ends a tag, a comment or a run of
text.  Every other line break in text is told. -/
theorem Runs.drops_iff {mode : Mode} {resolver : Resolver} {events : List Event} {m : Machine}
    {c : Char} {rest : List Char} (h : Runs mode resolver events m (c :: rest))
    (hdata : m.state.isData = true) (hbreak : (Reading.of c rest).char = '\n') :
    let result := (m.afterLineBreak (Reading.of c rest)).read (Reading.of c rest).rest
    ∃ dropped, m.read (c :: rest)
        = (result.1, m.lineBreakEvents (Reading.of c rest) dropped ++ result.2) ∧
      (dropped = true ↔ mode = .precompile ∧ (∃ t ∈ lastTag events, t.isPreformatted = true) ∧
        ∃ e ∈ events.getLast?, e.isEnd = true) := by
  obtain ⟨hfollows, hmode⟩ := h.follows
  refine ⟨_, read_lineBreak hdata hbreak, ?_⟩
  rw [Bool.and_eq_true, beq_iff_eq, hfollows.tag.dropsLineBreak_iff hdata, hmode]
  constructor
  · rintro ⟨hstate, hprecompile, t, ht, hpre⟩
    refine ⟨hprecompile, ⟨t, ht, hpre⟩, ?_⟩
    -- A tag has been told, so there is a last event.
    cases hlast : events.getLast? with
    | none =>
      rw [List.getLast?_eq_none_iff.mp hlast] at ht
      cases ht
    | some e => exact ⟨e, rfl, hfollows.pause hstate e hlast⟩
  · rintro ⟨hprecompile, htag, e, he, hend⟩
    have hstates : m.state = .beforeData ∨ m.state = .data := by
      cases hs : m.state <;> simp_all [State.isData]
    rcases hstates with hstate | hstate
    · exact ⟨hstate, hprecompile, htag⟩
    · obtain ⟨e', he', hopen⟩ := hfollows.text hstate
      obtain rfl := Option.some.inj (he.symm.trans he')
      rw [hend] at hopen
      cases hopen

/-- A reader that has read the start tag of a preformatted element. -/
def afterPre : Machine := { mode := .precompile, tagName := "pre", offset := 5 }

/-- What it has told. -/
def preEvents : List Event :=
  [.tagOpen 0, .beginStartTag 0, .tagName 'p', .tagName 'r', .tagName 'e', .finishTag 5]

theorem runs_pre : Runs .precompile (.ofMode .precompile) preEvents afterPre [] := by
  have hread : Machine.read { mode := .precompile } ['<', 'p', 'r', 'e', '>']
      = (afterPre, preEvents) := by with_unfolding_all rfl
  have hruns : Runs .precompile (.ofMode .precompile) [] { mode := .precompile }
      ['<', 'p', 'r', 'e', '>'] := .piece _ .start
  simpa [hread] using hruns.read

theorem Runs.drops_iff_pre :
    Runs .precompile (.ofMode .precompile) preEvents afterPre ['\n', 'x'] ∧
      afterPre.state.isData = true ∧ (Reading.of '\n' ['x']).char = '\n' ∧
      (afterPre.read ['\n', 'x']).2 = [.beginData 6, .data 'x'] := by
  have hruns := runs_pre.piece ['\n', 'x']
  obtain ⟨dropped, hevents, hdropped⟩ := hruns.drops_iff rfl rfl
  have hpre : ToldTag.isPreformatted ⟨true, "pre"⟩ = true := by decide +kernel
  obtain rfl := hdropped.mpr ⟨rfl, ⟨⟨true, "pre"⟩, rfl, hpre⟩, .finishTag 5, rfl, rfl⟩
  refine ⟨hruns, rfl, rfl, ?_⟩
  rw [hevents]
  decide +kernel

/-- A line break is also dropped where no start tag stands in front of it: after a run
of text that was ended in a preformatted element. -/
theorem drops_after_text :
    ¬ ∀ (events : List Event) (m : Machine) (c : Char) (rest : List Char),
      Runs .precompile (.ofMode .precompile) events m (c :: rest) → m.state = .beforeData →
      (Reading.of c rest).char = '\n' → (m.step c rest).rest = (Reading.of c rest).rest →
      ∃ pos, events.getLast? = some (.finishTag pos) := by
  intro h
  have hread : afterPre.read ['a']
      = ({ afterPre with state := .data, offset := 6 }, [.beginData 5, .data 'a']) := by
    with_unfolding_all rfl
  have hflushed := ((runs_pre.piece ['a']).read).flush
  rw [hread] at hflushed
  obtain ⟨pos, hlast⟩ := h _ _ '\n' ['b'] (hflushed.piece ['\n', 'b']) rfl rfl (by decide +kernel)
  simp [Machine.flush] at hlast

end Machine

end TemplateCompiler.Markup
