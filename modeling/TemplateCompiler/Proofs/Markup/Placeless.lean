/-
Reading markup without looking at places.

What the reader of markup does depends on the characters it reads and on its state,
never on where in the source they stand: offsets go into what it reports, and come
back from nowhere.

* `Machine.placeless`, `Event.placeless` — a reader and a report without offsets;
* `Machine.step_placeless` — a step of the reader without offsets;
* `Machine.read_placeless` — readers that are the same without offsets report the
  same on a text, without offsets, and stay the same.
-/
import TemplateCompiler.Markup.Machine

namespace TemplateCompiler.Markup

/-- A report without offsets. -/
def Event.placeless : Event → Event
  | .tagOpen _ => .tagOpen 0
  | .beginData _ => .beginData 0
  | .finishData _ => .finishData 0
  | .beginComment _ => .beginComment 0
  | .finishComment _ => .finishComment 0
  | .beginStartTag _ => .beginStartTag 0
  | .beginEndTag _ => .beginEndTag 0
  | .finishTag _ => .finishTag 0
  | .beginAttribute _ => .beginAttribute 0
  | .beginAttributeValue quoted _ => .beginAttributeValue quoted 0
  | .attributeValue c _ => .attributeValue c 0
  | .finishAttributeValue _ => .finishAttributeValue 0
  | .problem p _ => .problem p 0
  | e => e

namespace Machine

/-- A reader without offsets. -/
def placeless (m : Machine) : Machine := { m with tagStart := 0, offset := 0 }

end Machine

/-- A step without offsets. -/
def Step.placeless (s : Step) : Step :=
  ⟨s.machine.placeless, s.rest, s.events.map Event.placeless⟩

namespace Machine

/-- A reference is found without looking at offsets. -/
theorem takeReference_placeless (m : Machine) (r : Reading) {tell tell' : Char → Event}
    (htell : ∀ c, (tell' c).placeless = (tell c).placeless) :
    (m.placeless.takeReference r tell').placeless = (m.takeReference r tell).placeless := by
  have hsame : m.placeless.reference? r = m.reference? r := rfl
  rw [takeReference, takeReference, hsame]
  cases m.reference? r with
  | none => simp [take, Step.placeless, placeless, htell]
  | some found => simp [take, Step.placeless, placeless, htell, Function.comp_def]

/-- A step of the reader without offsets is the same, but for offsets. -/
theorem step_placeless (m : Machine) (c : Char) (rest : List Char) :
    (m.placeless.step c rest).placeless = (m.step c rest).placeless := by
  have hreference : ∀ {tell tell' : Char → Event}, (∀ c, (tell' c).placeless = (tell c).placeless) →
      (m.placeless.takeReference (Reading.of c rest) tell').placeless
        = (m.takeReference (Reading.of c rest) tell).placeless :=
    fun htell => m.takeReference_placeless _ htell
  have hstate : m.placeless.state = m.state := rfl
  have hignores : m.placeless.ignoresTag (c :: rest) = m.ignoresTag (c :: rest) := rfl
  have hraw : m.placeless.isRawText = m.isRawText := rfl
  have hdrops : m.placeless.dropsLineBreak = m.dropsLineBreak := rfl
  -- Every state asks for the same characters in the same order, and goes to the same state.
  unfold step
  rw [hstate]
  cases m.state <;>
  simp only [stepBeforeData, stepData, stepTagOpen, stepMarkupDeclaration, stepCommentStart,
      stepCommentStartDash, stepComment, stepCommentEndDash, stepCommentEnd, stepTagName,
      stepEndTagName, stepBeforeAttributeName, stepAttributeName, stepAfterAttributeName,
      stepBeforeAttributeValue, stepQuotedValue, stepUnquotedValue, stepAfterQuotedValue,
      stepSelfClosing, stepEndTagOpen, hignores, hraw, hdrops] <;>
  repeat' split
  all_goals first
    | rfl
    | exact hreference fun _ => rfl

/-- Readers that are the same without offsets report the same on a text. -/
theorem read_placeless {m m' : Machine} (h : m.placeless = m'.placeless) (input : List Char) :
    (m.read input).1.placeless = (m'.read input).1.placeless ∧
      (m.read input).2.map Event.placeless = (m'.read input).2.map Event.placeless := by
  induction m, input using read.induct generalizing m' with
  -- The piece is used up.
  | case1 m =>
    rw [read, read]
    exact ⟨h, rfl⟩
  -- One step, and then the rest.
  | case2 m c rest next =>
    rename_i ih
    have hstep : (m.step c rest).placeless = (m'.step c rest).placeless := by
      rw [← m'.step_placeless, ← h, m.step_placeless]
    obtain ⟨hmachine, hrest, hevents⟩ := Step.mk.inj hstep
    obtain ⟨hlast, hmore⟩ := ih hmachine
    rw [read, read]
    simp only [List.map_append, hevents, ← hrest]
    exact ⟨hlast, by rw [hmore]⟩

theorem flush_placeless {m m' : Machine} (h : m.placeless = m'.placeless) :
    m.flush.1.placeless = m'.flush.1.placeless ∧
      m.flush.2.map Event.placeless = m'.flush.2.map Event.placeless := by
  have hstate : m.state = m'.state := by
    show m.placeless.state = m'.placeless.state
    rw [h]
  rw [flush, flush, hstate]
  split
  · exact ⟨congrArg (fun m : Machine => { m with state := .beforeData }) h, rfl⟩
  · exact ⟨h, rfl⟩

end Machine

end TemplateCompiler.Markup
