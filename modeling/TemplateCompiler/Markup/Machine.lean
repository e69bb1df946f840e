/-
The markup reader.

`Machine.read` reads a piece of text and reports events; the machine it leaves
behind goes on with the next piece.  Each step looks at the next character in
the machine's state and either reads it, with what may belong to it, or hands
it to another state:

* `Machine.step` — one step on a text that is not empty;
* `Machine.step_progress` — a step reads at least one character, or reads
  nothing and lowers the rank of the state;
* `Machine.read` — all steps on a text; it ends by that measure;
* `Machine.flush` — closes a run of text.

A carriage return, with the line feed after it if there is one, is read as one
line feed, but counts with all its bytes.  After `<title>`, `<style>` or
`<script>` an angle bracket opens a tag only where the matching end tag stands,
and references are not decoded in the last two.  A piece is always read to its
end, so no text is carried over to the next piece; what a character reference or
an end tag needs is looked for in the same piece only.
-/
import TemplateCompiler.Markup.Event
import TemplateCompiler.Markup.Reference
import TemplateCompiler.Source.Span
import TemplateCompiler.Text.Bytes

namespace TemplateCompiler.Markup

/-- A reader of markup between two pieces of text. -/
structure Machine where
  state : State := .beforeData
  mode : Mode
  resolver : Resolver := Resolver.ofMode mode
  /-- The name of the last tag, as far as it is known. -/
  tagName : String := ""
  /-- Where the current tag or comment was opened. -/
  tagStart : Nat := 0
  /-- The offset of the next character. -/
  offset : Nat := 0

/-- The next character of a text: what it is read as, how many bytes it takes
and what follows it. -/
structure Reading where
  char : Char
  width : Nat
  rest : List Char

/-- Reads one character; a carriage return swallows a line feed after it. -/
def Reading.of (c : Char) (rest : List Char) : Reading :=
  if c = '\r' then
    match rest with
    | '\n' :: after => ⟨'\n', 2, after⟩
    | _ => ⟨'\n', 1, rest⟩
  else ⟨c, c.utf8Size, rest⟩

theorem Reading.rest_length_le (c : Char) (rest : List Char) :
    (Reading.of c rest).rest.length ≤ rest.length := by
  unfold Reading.of
  split
  · split <;> simp
  · simp

/-- A character that separates the parts of a tag. -/
def isSpace (c : Char) : Bool := c == '\t' || c == '\n' || c == '\x0c' || c == ' '

/-- A character that can begin the name of a tag. -/
def isNameStart (c : Char) : Bool := c == '@' || c == ':' || c.isAlpha

/-- What one step leads to. -/
structure Step where
  machine : Machine
  rest : List Char
  events : List Event

namespace Machine

/-- The position of the next character, held at the largest offset. -/
def pos (m : Machine) : Nat := min m.offset maxOffset

/-- The position after a character. -/
def posAfter (m : Machine) (r : Reading) : Nat := min (m.offset + r.width) maxOffset

/-- Reads a character and goes to a state. -/
def take (m : Machine) (r : Reading) (state : State) (events : List Event) : Step :=
  { machine := { m with state, offset := m.offset + r.width }, rest := r.rest, events }

/-- Goes to a state without reading. -/
def hand (m : Machine) (input : List Char) (state : State) (events : List Event) : Step :=
  { machine := { m with state }, rest := input, events }

/-- Whether an angle bracket in front of this text is plain text, because it
does not begin the end tag that is waited for. -/
def ignoresTag (m : Machine) (input : List Char) : Bool :=
  if m.tagName == "title" then !"</title>".toList.isPrefixOf input
  else if m.tagName == "style" then !"</style>".toList.isPrefixOf input
  else if m.tagName == "script" then !"</script>".toList.isPrefixOf input
  else false

/-- Whether references stay undecoded in the text after the last tag. -/
def isRawText (m : Machine) : Bool := m.tagName == "script" || m.tagName == "style"

/-- Whether the last tag drops a line break right after it. -/
def dropsLineBreak (m : Machine) : Bool :=
  m.mode == .precompile && (m.tagName.toLower == "pre" || m.tagName.toLower == "textarea")

/-- The reference at the start of a text that follows an ampersand: its
meaning, and the character reading that covers ampersand, body and
semicolon. -/
def reference? (m : Machine) (after : Reading) : Option (List Char × Reading) :=
  match after.rest.dropWhile (· ≠ ';') with
  | [] => none
  | _ :: rest =>
    let body := after.rest.takeWhile (· ≠ ';')
    (m.resolver body).map fun text =>
      (text, ⟨after.char, after.width + Text.byteLength body + 1, rest⟩)

/-- Reads an ampersand and the reference that it may begin. -/
def takeReference (m : Machine) (r : Reading) (tell : Char → Event) : Step :=
  match m.reference? r with
  | some (text, whole) => m.take whole m.state (text.map tell)
  | none => m.take r m.state [tell '&']

/-- Opens a tag or comment at an angle bracket. -/
def openTag (m : Machine) (r : Reading) (events : List Event) : Step :=
  Machine.take { m with tagStart := m.pos } r .tagOpen (events ++ [.tagOpen m.pos])

/-- Reads the bracket that ends a tag. -/
def closeTag (m : Machine) (r : Reading) (events : List Event) : Step :=
  m.take r .beforeData (events ++ [.finishTag (m.posAfter r)])

/-- Adds a character to the name of a tag. -/
def takeNameChar (m : Machine) (r : Reading) (state : State) (events : List Event) : Step :=
  Machine.take { m with tagName := m.tagName.push r.char } r state (events ++ [.tagName r.char])

/-- Begins the name of a tag. -/
def startName (m : Machine) (r : Reading) (state : State) (event : Event) : Step :=
  Machine.takeNameChar { m with tagName := "" } r state [event]

/-! ### The states between tags -/

/-- One step before a run of text. -/
def stepBeforeData (m : Machine) (input : List Char) (r : Reading) : Step :=
  if r.char = '<' ∧ ¬ m.ignoresTag input then m.openTag r []
  else if r.char = '\n' ∧ m.dropsLineBreak then m.take r .data [.beginData (m.posAfter r)]
  else m.hand input .data [.beginData m.pos]

/-- One step in a run of text. -/
def stepData (m : Machine) (input : List Char) (r : Reading) : Step :=
  if r.char = '<' ∧ ¬ m.ignoresTag input then m.openTag r [.finishData m.pos]
  else if r.char = '&' ∧ ¬ m.isRawText then m.takeReference r .data
  else m.take r .data [.data r.char]

/-- One step after an angle bracket. -/
def stepTagOpen (m : Machine) (r : Reading) : Step :=
  if r.char = '!' then m.take r .markupDeclarationOpen []
  else if r.char = '/' then m.take r .endTagOpen []
  else if isNameStart r.char then m.startName r .tagName (.beginStartTag m.tagStart)
  else m.take r .tagOpen []

/-- One step after `</`. -/
def stepEndTagOpen (m : Machine) (r : Reading) : Step :=
  if isNameStart r.char then m.startName r .endTagName (.beginEndTag m.tagStart)
  else m.take r .endTagOpen []

/-! ### Comments -/

/-- One step after `<!`: two dashes begin a comment. -/
def stepMarkupDeclaration (m : Machine) (r : Reading) : Step :=
  match r.char, r.rest with
  | '-', '-' :: rest =>
    m.take ⟨'-', r.width + 1, rest⟩ .commentStart [.beginComment m.tagStart]
  | _, _ => m.take r .markupDeclarationOpen []

/-- Reads the bracket that ends a comment. -/
def closeComment (m : Machine) (r : Reading) : Step :=
  m.take r .beforeData [.finishComment (m.posAfter r)]

/-- One step at the start of a comment. -/
def stepCommentStart (m : Machine) (r : Reading) : Step :=
  if r.char = '-' then m.take r .commentStartDash []
  else if r.char = '>' then m.closeComment r
  else m.take r .comment [.commentData r.char]

/-- One step after the first dash of a comment; another character is dropped
and the dash kept. -/
def stepCommentStartDash (m : Machine) (r : Reading) : Step :=
  if r.char = '-' then m.take r .commentEnd []
  else if r.char = '>' then m.closeComment r
  else m.take r .comment [.commentData '-']

/-- One step inside a comment. -/
def stepComment (m : Machine) (r : Reading) : Step :=
  if r.char = '-' then m.take r .commentEndDash []
  else m.take r .comment [.commentData r.char]

/-- One step after a dash inside a comment. -/
def stepCommentEndDash (m : Machine) (r : Reading) : Step :=
  if r.char = '-' then m.take r .commentEnd []
  else m.take r .comment [.commentData '-', .commentData r.char]

/-- One step after two dashes inside a comment. -/
def stepCommentEnd (m : Machine) (r : Reading) : Step :=
  if r.char = '>' then m.closeComment r
  else m.take r .comment [.commentData '-', .commentData '-', .commentData r.char]

/-! ### Tags and attributes -/

/-- One step in the name of a start tag. -/
def stepTagName (m : Machine) (r : Reading) : Step :=
  if isSpace r.char then m.take r .beforeAttributeName []
  else if r.char = '/' then m.take r .selfClosingStartTag []
  else if r.char = '>' then m.closeTag r []
  else m.takeNameChar r .tagName []

/-- One step in the name of an end tag; the name is forgotten after it. -/
def stepEndTagName (m : Machine) (r : Reading) : Step :=
  if isSpace r.char then Machine.take { m with tagName := "" } r .beforeAttributeName []
  else if r.char = '/' then Machine.take { m with tagName := "" } r .selfClosingStartTag []
  else if r.char = '>' then Machine.closeTag { m with tagName := "" } r []
  else m.takeNameChar r .endTagName []

/-- The events of an attribute without a value. -/
def emptyValue (m : Machine) : List Event :=
  [.beginAttributeValue false m.pos, .finishAttributeValue m.pos]

/-- One step before an attribute. -/
def stepBeforeAttributeName (m : Machine) (input : List Char) (r : Reading) : Step :=
  if isSpace r.char then m.take r .beforeAttributeName []
  else if r.char = '/' then m.take r .selfClosingStartTag []
  else if r.char = '>' then m.closeTag r []
  else if r.char = '=' then
    m.take r .attributeName
      [.problem .leadingEquals m.pos, .beginAttribute m.pos, .attributeName r.char]
  else m.hand input .attributeName [.beginAttribute m.pos]

/-- One step in the name of an attribute. -/
def stepAttributeName (m : Machine) (r : Reading) : Step :=
  if isSpace r.char then m.take r .afterAttributeName []
  else if r.char = '/' then m.take r .selfClosingStartTag m.emptyValue
  else if r.char = '=' then m.take r .beforeAttributeValue []
  else if r.char = '>' then m.closeTag r m.emptyValue
  else if r.char = '"' ∨ r.char = '\'' ∨ r.char = '<' then
    m.take r .attributeName [.problem (.strayInName r.char) m.pos, .attributeName r.char]
  else m.take r .attributeName [.attributeName r.char]

/-- One step after the name of an attribute and a blank. -/
def stepAfterAttributeName (m : Machine) (r : Reading) : Step :=
  if isSpace r.char then m.take r .afterAttributeName []
  else if r.char = '/' then m.take r .selfClosingStartTag m.emptyValue
  else if r.char = '=' then m.take r .beforeAttributeValue []
  else if r.char = '>' then m.closeTag r m.emptyValue
  else m.take r .attributeName (m.emptyValue ++ [.beginAttribute m.pos, .attributeName r.char])

/-- One step before the value of an attribute. -/
def stepBeforeAttributeValue (m : Machine) (r : Reading) : Step :=
  if isSpace r.char then m.take r .beforeAttributeValue []
  else if r.char = '"' then
    m.take r .attributeValueDoubleQuoted [.beginAttributeValue true m.pos]
  else if r.char = '\'' then
    m.take r .attributeValueSingleQuoted [.beginAttributeValue true m.pos]
  else if r.char = '>' then m.closeTag r m.emptyValue
  else
    m.take r .attributeValueUnquoted
      [.beginAttributeValue false m.pos, .attributeValue r.char m.pos]

/-- One step in a quoted value. -/
def stepQuotedValue (m : Machine) (quote : Char) (r : Reading) : Step :=
  if r.char = quote then
    m.take r .afterAttributeValueQuoted [.finishAttributeValue (m.posAfter r)]
  else if r.char = '&' then m.takeReference r fun c => .attributeValue c m.pos
  else m.take r m.state [.attributeValue r.char m.pos]

/-- One step in a value without quotes. -/
def stepUnquotedValue (m : Machine) (r : Reading) : Step :=
  if isSpace r.char then m.take r .beforeAttributeName [.finishAttributeValue m.pos]
  else if r.char = '/' then m.take r .selfClosingStartTag [.finishAttributeValue m.pos]
  else if r.char = '&' then m.takeReference r fun c => .attributeValue c m.pos
  else if r.char = '>' then m.closeTag r [.finishAttributeValue m.pos]
  else m.take r .attributeValueUnquoted [.attributeValue r.char m.pos]

/-- One step after a quoted value. -/
def stepAfterQuotedValue (m : Machine) (input : List Char) (r : Reading) : Step :=
  if isSpace r.char then m.take r .beforeAttributeName []
  else if r.char = '/' then m.take r .selfClosingStartTag []
  else if r.char = '>' then m.closeTag r []
  else m.hand input .beforeAttributeName []

/-- One step after a slash in a tag. -/
def stepSelfClosing (m : Machine) (input : List Char) (r : Reading) : Step :=
  if r.char = '>' then m.closeTag r [.selfClosing]
  else m.hand input .beforeAttributeName []

/-! ### All states together -/

/-- One step on the text `c :: rest`. -/
def step (m : Machine) (c : Char) (rest : List Char) : Step :=
  let r := Reading.of c rest
  let input := c :: rest
  match m.state with
  | .beforeData => m.stepBeforeData input r
  | .data => m.stepData input r
  | .tagOpen => m.stepTagOpen r
  | .markupDeclarationOpen => m.stepMarkupDeclaration r
  | .commentStart => m.stepCommentStart r
  | .commentStartDash => m.stepCommentStartDash r
  | .comment => m.stepComment r
  | .commentEndDash => m.stepCommentEndDash r
  | .commentEnd => m.stepCommentEnd r
  | .tagName => m.stepTagName r
  | .endTagName => m.stepEndTagName r
  | .beforeAttributeName => m.stepBeforeAttributeName input r
  | .attributeName => m.stepAttributeName r
  | .afterAttributeName => m.stepAfterAttributeName r
  | .beforeAttributeValue => m.stepBeforeAttributeValue r
  | .attributeValueDoubleQuoted => m.stepQuotedValue '"' r
  | .attributeValueSingleQuoted => m.stepQuotedValue '\'' r
  | .attributeValueUnquoted => m.stepUnquotedValue r
  | .afterAttributeValueQuoted => m.stepAfterQuotedValue input r
  | .selfClosingStartTag => m.stepSelfClosing input r
  | .endTagOpen => m.stepEndTagOpen r

/-- A step that starts from the text `c :: rest` in state `s` is worth making:
it reads something, or it reads nothing and lowers the rank. -/
def Progress (s : State) (input : List Char) (next : Step) : Prop :=
  next.rest.length < input.length ∨ (next.rest = input ∧ next.machine.state.rank < s.rank)

theorem reference?_rest_length {m : Machine} {r whole : Reading} {text : List Char}
    (h : m.reference? r = some (text, whole)) : whole.rest.length ≤ r.rest.length := by
  unfold reference? at h
  split at h
  · exact absurd h (by simp)
  · rename_i tail hdrop
    obtain ⟨decoded, _, heq⟩ := Option.map_eq_some_iff.1 h
    simp only [Prod.mk.injEq] at heq
    rw [← heq.2]
    have hle : (r.rest.dropWhile (· ≠ ';')).length ≤ r.rest.length :=
      List.IsSuffix.length_le (List.dropWhile_suffix _)
    rw [hdrop] at hle
    simp only [List.length_cons] at hle
    exact Nat.le_of_succ_le hle

/-- Every step makes progress. -/
theorem step_progress (m : Machine) (c : Char) (rest : List Char) :
    Progress m.state (c :: rest) (m.step c rest) := by
  have hr : (Reading.of c rest).rest.length < (c :: rest).length :=
    Nat.lt_succ_of_le (Reading.rest_length_le c rest)
  -- A reference reads at least its ampersand.
  have href : ∀ (tell : Char → Event),
      (m.takeReference (Reading.of c rest) tell).rest.length < (c :: rest).length := by
    intro tell
    unfold takeReference
    split
    · rename_i text whole hsome
      exact Nat.lt_of_le_of_lt (reference?_rest_length hsome) hr
    · exact hr
  -- State by state, every branch either takes a character or hands it down the ranks.
  unfold step
  cases hs : m.state <;>
    simp only [stepBeforeData, stepData, stepTagOpen, stepMarkupDeclaration, stepCommentStart,
      stepCommentStartDash, stepComment, stepCommentEndDash, stepCommentEnd, stepTagName,
      stepEndTagName, stepBeforeAttributeName, stepAttributeName, stepAfterAttributeName,
      stepBeforeAttributeValue, stepQuotedValue, stepUnquotedValue, stepAfterQuotedValue,
      stepSelfClosing, stepEndTagOpen] <;>
    repeat' split
  all_goals first
    | exact Or.inl hr
    | exact Or.inl (href _)
    | exact Or.inr ⟨rfl, by simp [hand, State.rank]⟩
    | (rename_i hrest
       refine Or.inl ?_
       simp only [take]
       rw [hrest] at hr
       simp only [List.length_cons] at hr ⊢
       omega)

/-- Reads a piece of text to its end. -/
def read (m : Machine) : List Char → Machine × List Event
  | [] => (m, [])
  | c :: rest =>
    let next := m.step c rest
    let result := read next.machine next.rest
    (result.1, next.events ++ result.2)
  -- One number and no pair, so that the reader can be run on a given text.
  termination_by input => 3 * input.length + m.state.rank
  decreasing_by
    have hrank := (m.step c rest).machine.state.rank_le
    rcases m.step_progress c rest with hshorter | ⟨hsame, hlower⟩
    · omega
    · rw [hsame]
      exact Nat.add_lt_add_left hlower _

/-- Closes a run of text, if one is open. -/
def flush (m : Machine) : Machine × List Event :=
  if m.state = .data then ({ m with state := .beforeData }, [.finishData m.pos]) else (m, [])

/-- Says where the next piece of text begins in the source. -/
def moveTo (m : Machine) (offset : Nat) : Machine := { m with offset }

/-- Forgets everything read so far. -/
def reset (m : Machine) : Machine × List Event :=
  ({ mode := m.mode, resolver := m.resolver }, [.reset])

end Machine

end TemplateCompiler.Markup
