/-
The events of the markup reader nest.

A comment, a tag or an attribute is begun before its parts come, and ended before
another is begun.

* `Region` — what is begun and not yet ended;
* `Event.leadsTo?` — the region that an event leads to, where it may come at all;
* `Machine.step_leads` — the events of one step lead from the region of its state
  to the region of the next state;
* `Machine.read_leads` — so do those of a whole piece of text.
-/
import TemplateCompiler.Markup.Machine

namespace TemplateCompiler.Markup

/-- What is begun and not yet ended. -/
inductive Region where
  /-- Nothing but a run of text. -/
  | text
  | comment
  /-- A tag, between its attributes. -/
  | tag
  /-- An attribute without a value so far. -/
  | name
  /-- The value of an attribute. -/
  | value
deriving DecidableEq, Repr

/-- The region in which a state stands. -/
def State.region : State → Region
  | .beforeData | .data | .tagOpen | .markupDeclarationOpen | .endTagOpen => .text
  | .commentStart | .commentStartDash | .comment | .commentEndDash | .commentEnd => .comment
  | .tagName | .endTagName | .beforeAttributeName | .afterAttributeValueQuoted => .tag
  | .selfClosingStartTag => .tag
  | .attributeName | .afterAttributeName | .beforeAttributeValue => .name
  | .attributeValueDoubleQuoted | .attributeValueSingleQuoted | .attributeValueUnquoted => .value

/-- Where an event leads from a region; `none` where it does not come. -/
def Event.leadsTo? : Region → Event → Option Region
  | .text, .tagOpen _ | .text, .beginData _ | .text, .data _ | .text, .finishData _ => some .text
  | .text, .beginComment _ => some .comment
  | .text, .beginStartTag _ | .text, .beginEndTag _ => some .tag
  | .comment, .commentData _ => some .comment
  | .comment, .finishComment _ => some .text
  | .tag, .tagName _ | .tag, .selfClosing | .tag, .problem _ _ => some .tag
  | .tag, .beginAttribute _ => some .name
  | .tag, .finishTag _ => some .text
  | .name, .attributeName _ | .name, .problem _ _ => some .name
  | .name, .beginAttributeValue _ _ => some .value
  | .value, .attributeValue _ _ => some .value
  | .value, .finishAttributeValue _ => some .tag
  | _, _ => none

/-- Where events lead from a region, one after the other. -/
def leadTo? (r : Region) (events : List Event) : Option Region :=
  events.foldlM Event.leadsTo? r

theorem leadTo?_cons {r r' : Region} {e : Event} {rest : List Event} :
    leadTo? r (e :: rest) = some r' ↔
      ∃ r₁, Event.leadsTo? r e = some r₁ ∧ leadTo? r₁ rest = some r' := by
  rw [leadTo?, List.foldlM_cons]
  exact Option.bind_eq_some_iff

theorem leadTo?_append {r r' : Region} {a b : List Event} (h : leadTo? r a = some r') :
    leadTo? r (a ++ b) = leadTo? r' b := by
  rw [leadTo?] at *
  rw [List.foldlM_append, h]
  rfl

/-- Events that stay in a region, however many. -/
theorem leadTo?_map {r : Region} {tell : Char → Event}
    (h : ∀ c, Event.leadsTo? r (tell c) = some r) (cs : List Char) :
    leadTo? r (cs.map tell) = some r := by
  induction cs with
  | nil => rfl
  | cons c rest ih =>
    rw [List.map_cons, leadTo?, List.foldlM_cons, h c]
    exact ih

namespace Machine

theorem takeReference_leads {m : Machine} {tell : Char → Event}
    (h : ∀ c, Event.leadsTo? m.state.region (tell c) = some m.state.region) (r : Reading) :
    leadTo? m.state.region (m.takeReference r tell).events
      = some (m.takeReference r tell).machine.state.region := by
  rw [takeReference]
  split
  · exact leadTo?_map h _
  · exact leadTo?_map h ['&']

/-- The events of one step lead to the region of the next state. -/
theorem step_leads (m : Machine) (c : Char) (rest : List Char) :
    leadTo? m.state.region (m.step c rest).events
      = some (m.step c rest).machine.state.region := by
  have href : ∀ tell : Char → Event,
      (∀ c, Event.leadsTo? m.state.region (tell c) = some m.state.region) →
      leadTo? m.state.region (m.takeReference (Reading.of c rest) tell).events
        = some (m.takeReference (Reading.of c rest) tell).machine.state.region :=
    fun tell h => takeReference_leads h _
  rw [step]
  -- Outside of references the events of a branch are written out.
  cases hs : m.state <;> rw [hs] at href <;>
    simp only [stepBeforeData, stepData, stepTagOpen, stepMarkupDeclaration, stepCommentStart,
      stepCommentStartDash, stepComment, stepCommentEndDash, stepCommentEnd, stepTagName,
      stepEndTagName, stepBeforeAttributeName, stepAttributeName, stepAfterAttributeName,
      stepBeforeAttributeValue, stepQuotedValue, stepUnquotedValue, stepAfterQuotedValue,
      stepSelfClosing, stepEndTagOpen, hs] <;>
    repeat' split
  all_goals first
    | rfl
    | exact href _ fun _ => rfl

/-- The events of a piece of text lead to the region of the state after it. -/
theorem read_leads (m : Machine) (input : List Char) :
    leadTo? m.state.region (m.read input).2 = some (m.read input).1.state.region := by
  fun_induction read m input with
  -- The piece is used up.
  | case1 m => rfl
  -- One step, and then the rest.
  | case2 m c rest next result ih =>
    rw [leadTo?_append (step_leads m c rest)]
    exact ih

theorem flush_leads (m : Machine) :
    leadTo? m.state.region m.flush.2 = some m.flush.1.state.region := by
  rw [flush]
  split
  · next hdata =>
    rw [hdata]
    rfl
  · rfl

end Machine

end TemplateCompiler.Markup
