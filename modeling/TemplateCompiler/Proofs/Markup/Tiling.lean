/-
The tokens of markup tile their text.

* `Joins` — where a token may start after others: where they end, or behind one line break
  that the start tag of a preformatted element swallows;
* `Tiles` — tokens one after the other, from the start of a text up to an offset;
* `Gathers` — what a collector holds while events come, from region to region;
* `Gathers.observe`, `Gathers.observeAll` — every event that may come keeps it;
* `Machine.step_crosses` — a step opens a tag or comment, ends one, or does neither;
* `Machine.Stands` — the reader stands where the events say; `Machine.Stands.step` and
  `Machine.Stands.flush` keep it;
* `tokenize_tiles` — the tokens of a text tile it, up to a tag or comment without an end.

Nothing between two tokens is lost because a token is always opened where the last one was
ended.  For a tag or a comment this place is kept from the angle bracket on, whatever is
skipped before the name.  `MeetAll` says just this of the events, and all else about
positions is known already.
-/
import Mathlib.Algebra.Group.Nat.Defs
import TemplateCompiler.Proofs.Markup.Collecting
import TemplateCompiler.Proofs.Markup.Cuts
import TemplateCompiler.Proofs.Markup.LineBreaks
import TemplateCompiler.Proofs.Markup.Places

namespace TemplateCompiler.Markup

open Text (byteLength)

/-! ### Tilings -/

/-- What a tag tells, if the token is one. -/
def Token.told? : Token → Option ToldTag
  | .startTag name _ _ _ => some ⟨true, name⟩
  | .endTag name _ => some ⟨false, name⟩
  | .chars _ _ | .comment _ _ => none

/-- The last tag among tokens. -/
def lastTold (tokens : List Token) : Option ToldTag := (tokens.filterMap Token.told?).getLast?

/-- A line break as it is written. -/
def IsLineBreak (piece : List Char) : Prop :=
  piece = ['\n'] ∨ piece = ['\r'] ∨ piece = ['\r', '\n']

/-- From one offset to another there is nothing, or one line break that is dropped after a tag. -/
def Gap (mode : Mode) (text : List Char) (last : Option ToldTag) (n pos : Nat) : Prop :=
  pos = n ∨ (mode = .precompile ∧ (∃ tag ∈ last, tag.isPreformatted = true) ∧
    ∃ piece, IsLineBreak piece ∧ Text.StandsAt text piece n ∧ pos = n + byteLength piece)

/-- Where a token may start after others that end at an offset.  Only a run of text leaves a gap. -/
def Joins (mode : Mode) (text : List Char) (tokens : List Token) (n : Nat) : Token → Prop
  | .chars _ span => Gap mode text (lastTold tokens) n span.start
  | token => token.span.start = n

/-- Attributes lie between two offsets, one after the other. -/
structure AttributesLie (text : List Char) (start stop : Nat) (attributes : List Attribute) :
    Prop where
  ordered : attributes.Pairwise fun a b => a.span.stop ≤ b.span.start
  within : ∀ a ∈ attributes,
    start ≤ a.span.start ∧ a.span.start ≤ a.span.stop ∧ a.span.stop ≤ stop
  cut : ∀ a ∈ attributes, Text.Cut text a.span.start ∧ Text.Cut text a.span.stop

/-- The attributes of a start tag lie in it. -/
def Token.Covers (text : List Char) : Token → Prop
  | .startTag _ attributes _ span => AttributesLie text span.start span.stop attributes
  | _ => True

/-- Tokens that follow each other from the start of a text up to an offset. -/
inductive Tiles (mode : Mode) (text : List Char) : List Token → Nat → Prop
  | nil : Tiles mode text [] 0
  | snoc {tokens : List Token} {n : Nat} (token : Token) (h : Tiles mode text tokens n)
    (hjoins : Joins mode text tokens n token) (hcut : Text.Cut text token.span.start)
    (hle : token.span.start ≤ token.span.stop) (hcut' : Text.Cut text token.span.stop)
    (hcovers : token.Covers text) : Tiles mode text (tokens ++ [token]) token.span.stop

section

variable {mode : Mode} {text : List Char} {tokens : List Token} {start stop n : Nat}

theorem Tiles.cut (h : Tiles mode text tokens n) : Text.Cut text n := by
  cases h with
  | nil => exact Text.Cut.zero text
  | snoc token h hjoins hcut hle hcut' hcovers => exact hcut'

theorem AttributesLie.nil : AttributesLie text start stop [] :=
  ⟨List.Pairwise.nil, List.forall_mem_nil _, List.forall_mem_nil _⟩

theorem AttributesLie.mono {stop' : Nat} {attributes : List Attribute}
    (h : AttributesLie text start stop attributes) (hle : stop ≤ stop') :
    AttributesLie text start stop' attributes :=
  ⟨h.ordered, fun a ha =>
    ⟨(h.within a ha).1, (h.within a ha).2.1, Nat.le_trans (h.within a ha).2.2 hle⟩, h.cut⟩

/-- One more attribute, behind the others. -/
theorem AttributesLie.concat {attributes : List Attribute} {a : Attribute}
    (h : AttributesLie text start a.span.start attributes) (hstart : start ≤ a.span.start)
    (hcut : Text.Cut text a.span.start) (hle : a.span.start ≤ a.span.stop)
    (hcut' : Text.Cut text a.span.stop) :
    AttributesLie text start a.span.stop (attributes ++ [a]) where
  ordered := by
    refine List.pairwise_append.mpr ⟨h.ordered, List.pairwise_singleton _ _, fun b hb c hc => ?_⟩
    obtain rfl := List.mem_singleton.mp hc
    exact (h.within b hb).2.2
  within := List.forall_mem_append.mpr
    ⟨(h.mono hle).within, List.forall_mem_singleton.mpr ⟨hstart, hle, Nat.le_refl _⟩⟩
  cut := List.forall_mem_append.mpr ⟨h.cut, List.forall_mem_singleton.mpr ⟨hcut, hcut'⟩⟩

theorem lastTold_concat (tokens : List Token) (token : Token) :
    lastTold (tokens ++ [token]) = token.told?.or (lastTold tokens) := by
  rw [lastTold, lastTold, List.filterMap_append, List.getLast?_append]
  cases htold : token.told? with
  | none => simp [htold]
  | some tag => simp [htold]

end

/-! ### What a collector holds -/

/-- A tag that is open at an offset, with its attributes up to another. -/
def Token.OpensTag (text : List Char) (start stop : Nat) : Token → Prop
  | .startTag _ attributes _ span => span.start = start ∧ AttributesLie text start stop attributes
  | .endTag _ span => span.start = start
  | .chars _ _ | .comment _ _ => False

/-- What a collector has gathered, and what it has open, when the events so far have told of a
last tag and led to a region and a place. -/
inductive Gathers (mode : Mode) (text : List Char) :
    Option ToldTag → Region → Place → Collector → Prop
  | idle {tokens : List Token} {n reached : Nat} {problems : List LocatedProblem}
    (h : Tiles mode text tokens n) (hle : n ≤ reached) :
    Gathers mode text (lastTold tokens) .text ⟨false, n, reached⟩ ⟨tokens, none, none, problems⟩
  | inText {tokens : List Token} {n start reached : Nat} {problems : List LocatedProblem}
    (content : String) (h : Tiles mode text tokens n)
    (hgap : Gap mode text (lastTold tokens) n start) (hcut : Text.Cut text start)
    (hle : start ≤ reached) :
    Gathers mode text (lastTold tokens) .text ⟨true, start, reached⟩
      ⟨tokens, some (.chars content (.point start)), none, problems⟩
  | inComment {tokens : List Token} {n reached : Nat} {problems : List LocatedProblem}
    (content : String) (h : Tiles mode text tokens n) (hle : n ≤ reached) :
    Gathers mode text (lastTold tokens) .comment ⟨false, n, reached⟩
      ⟨tokens, some (.comment content (.point n)), none, problems⟩
  | inTag {tokens : List Token} {token : Token} {n reached : Nat} {problems : List LocatedProblem}
    (h : Tiles mode text tokens n) (htag : token.OpensTag text n reached) (hle : n ≤ reached) :
    Gathers mode text token.told? .tag ⟨false, n, reached⟩ ⟨tokens, some token, none, problems⟩
  | inAttribute {r : Region} {tokens : List Token} {token : Token} {a : Attribute}
    {n reached : Nat} {problems : List LocatedProblem} (hr : r = .name ∨ r = .value)
    (h : Tiles mode text tokens n) (htag : token.OpensTag text n a.span.start)
    (hle : n ≤ a.span.start) (hcut : Text.Cut text a.span.start)
    (hreached : a.span.start ≤ reached) :
    Gathers mode text token.told? r ⟨false, n, reached⟩ ⟨tokens, some token, some a, problems⟩

/-- Whether an event that opens something may come where the last token was ended, or a tag was
opened. -/
def Event.Meets (mode : Mode) (text : List Char) (last : Option ToldTag) (opened : Nat) :
    Event → Prop
  | .tagOpen pos => pos = opened
  | .beginData pos => Gap mode text last opened pos
  | _ => True

/-- Events that open something come where the last token was ended. -/
def MeetAll (mode : Mode) (text : List Char) (last : Option ToldTag) (p : Place) :
    List Event → Prop
  | [] => True
  | e :: rest =>
    e.Meets mode text last p.opened ∧ MeetAll mode text (ToldTag.note last e) (e.move p) rest

namespace Token

variable {text : List Char} {start stop : Nat} {token : Token}

theorem OpensTag.mono {stop' : Nat} (h : token.OpensTag text start stop) (hle : stop ≤ stop') :
    token.OpensTag text start stop' := by
  cases token with
  | startTag name attributes selfClosing span => exact ⟨h.1, h.2.mono hle⟩
  | endTag name span => exact h
  | chars content span => exact h
  | comment content span => exact h

theorem OpensTag.push (h : token.OpensTag text start stop) (c : Char) :
    (token.push c).OpensTag text start stop ∧
      (token.push c).told? = token.told?.map fun tag => { tag with name := tag.name.push c } := by
  cases token with
  | startTag name attributes selfClosing span => exact ⟨h, rfl⟩
  | endTag name span => exact ⟨h, rfl⟩
  | chars content span => exact h.elim
  | comment content span => exact h.elim

theorem OpensTag.markSelfClosing (h : token.OpensTag text start stop) :
    token.markSelfClosing.OpensTag text start stop ∧ token.markSelfClosing.told? = token.told? := by
  cases token with
  | startTag name attributes selfClosing span => exact ⟨h, rfl⟩
  | endTag name span => exact ⟨h, rfl⟩
  | chars content span => exact h.elim
  | comment content span => exact h.elim

theorem OpensTag.addAttribute {a : Attribute} (h : token.OpensTag text start a.span.start)
    (hstart : start ≤ a.span.start) (hcut : Text.Cut text a.span.start)
    (hle : a.span.start ≤ a.span.stop) (hcut' : Text.Cut text a.span.stop) :
    (token.addAttribute a).OpensTag text start a.span.stop ∧
      (token.addAttribute a).told? = token.told? := by
  cases token with
  | startTag name attributes selfClosing span =>
    exact ⟨⟨h.1, h.2.concat hstart hcut hle hcut'⟩, rfl⟩
  | endTag name span => exact ⟨h, rfl⟩
  | chars content span => exact h.elim
  | comment content span => exact h.elim

end Token

/-- A tag that is ended joins the tokens. -/
theorem Tiles.concat_tag {mode : Mode} {text : List Char} {tokens : List Token} {token : Token}
    {n reached pos : Nat} (h : Tiles mode text tokens n) (htag : token.OpensTag text n reached)
    (hle : n ≤ reached) (hpos : reached ≤ pos) (hcut : Text.Cut text pos) :
    Tiles mode text (tokens ++ [token.endAt pos]) pos ∧
      lastTold (tokens ++ [token.endAt pos]) = token.told? := by
  rw [lastTold_concat]
  cases token with
  | startTag name attributes selfClosing span =>
    obtain ⟨rfl, hattributes⟩ := htag
    exact ⟨.snoc (.startTag name attributes selfClosing ⟨span.start, pos⟩) h rfl h.cut
      (Nat.le_trans hle hpos) hcut (hattributes.mono hpos), rfl⟩
  | endTag name span =>
    obtain rfl : span.start = n := htag
    exact ⟨.snoc (.endTag name ⟨span.start, pos⟩) h rfl h.cut (Nat.le_trans hle hpos) hcut trivial,
      rfl⟩
  | chars content span => exact htag.elim
  | comment content span => exact htag.elim

namespace Gathers

variable {mode : Mode} {text : List Char} {last : Option ToldTag} {r r' : Region} {p : Place}
  {c : Collector} {e : Event} {events : List Event} {n hi hi' : Nat}

/-- The reader may have come further. -/
theorem mono {reached : Nat} (h : Gathers mode text last r p c) (hle : p.reached ≤ reached) :
    Gathers mode text last r { p with reached } c := by
  cases h with
  | idle h hle' => exact .idle h (Nat.le_trans hle' hle)
  | inText content h hgap hcut hle' => exact .inText content h hgap hcut (Nat.le_trans hle' hle)
  | inComment content h hle' => exact .inComment content h (Nat.le_trans hle' hle)
  | inTag h htag hle' => exact .inTag h (htag.mono hle) (Nat.le_trans hle' hle)
  | inAttribute hr h htag hle' hcut hreached =>
    exact .inAttribute hr h htag hle' hcut (Nat.le_trans hreached hle)

/-- An event that may come is gathered. -/
theorem observe (h : Gathers mode text last r p c) (hlead : Event.leadsTo? r e = some r')
    (hfits : e.Fits p) (hlies : e.Lies text n) (hmeets : e.Meets mode text last p.opened) :
    Gathers mode text (ToldTag.note last e) r' (e.move p) (c.observe e) := by
  cases h with
  -- Between tokens: one may be opened, where the last one was ended.
  | @idle tokens opened reached problems h hle =>
    cases e with
    | tagOpen pos =>
      cases hlead
      obtain rfl : pos = opened := hmeets
      exact .idle h (Nat.le_refl _)
    | beginData pos =>
      cases hlead
      exact .inText "" h hmeets hlies.2 (Nat.le_refl _)
    | data ch =>
      cases hlead
      exact .idle h hle
    | finishData pos => cases hfits.1
    | beginComment pos =>
      cases hlead
      obtain rfl : pos = opened := hfits.2
      exact .inComment "" h hle
    | beginStartTag pos =>
      cases hlead
      obtain rfl : pos = opened := hfits.2
      have htag : (Token.startTag "" [] false (.point pos)).OpensTag text pos reached :=
        ⟨rfl, .nil⟩
      exact .inTag h htag hle
    | beginEndTag pos =>
      cases hlead
      obtain rfl : pos = opened := hfits.2
      have htag : (Token.endTag "" (.point pos)).OpensTag text pos reached := rfl
      exact .inTag h htag hle
    | _ => cases hlead
  -- In a run of text, which goes on or ends.
  | @inText tokens ended start reached problems content h hgap hcut hle =>
    cases e with
    | data ch =>
      cases hlead
      exact .inText (content.push ch) h hgap hcut hle
    | finishData pos =>
      cases hlead
      have htiles : Tiles mode text (tokens ++ [Token.chars content ⟨start, pos⟩]) pos :=
        .snoc (.chars content ⟨start, pos⟩) h hgap hcut (Nat.le_trans hle hfits.2) hlies.2 trivial
      have htold : lastTold (tokens ++ [Token.chars content ⟨start, pos⟩]) = lastTold tokens :=
        lastTold_concat _ _
      exact htold ▸ .idle htiles (Nat.le_refl _)
    | tagOpen pos | beginData pos | beginComment pos | beginStartTag pos | beginEndTag pos =>
      cases hfits.1
    | _ => cases hlead
  | @inComment tokens ended reached problems content h hle =>
    cases e with
    | commentData ch =>
      cases hlead
      exact .inComment (content.push ch) h hle
    | finishComment pos =>
      cases hlead
      have htiles : Tiles mode text (tokens ++ [Token.comment content ⟨ended, pos⟩]) pos :=
        .snoc (.comment content ⟨ended, pos⟩) h rfl h.cut (Nat.le_trans hle hfits.2) hlies.2 trivial
      have htold : lastTold (tokens ++ [Token.comment content ⟨ended, pos⟩]) = lastTold tokens :=
        lastTold_concat _ _
      exact htold ▸ .idle htiles (Nat.le_refl _)
    | _ => cases hlead
  -- In a tag, outside of its attributes.
  | @inTag tokens token ended reached problems h htag hle =>
    cases e with
    | tagName ch =>
      cases hlead
      obtain ⟨htag', htold⟩ := htag.push ch
      have hnote : ToldTag.note token.told? (.tagName ch) = (token.push ch).told? := htold.symm
      exact hnote ▸ .inTag h htag' hle
    | selfClosing =>
      cases hlead
      obtain ⟨htag', htold⟩ := htag.markSelfClosing
      exact htold ▸ .inTag h htag' hle
    | problem problem pos =>
      cases hlead
      exact .inTag h (htag.mono hfits) (Nat.le_trans hle hfits)
    | beginAttribute pos =>
      cases hlead
      exact .inAttribute (a := ⟨"", "", false, .point pos⟩) (.inl rfl) h (htag.mono hfits)
        (Nat.le_trans hle hfits) hlies.2 (Nat.le_refl _)
    | finishTag pos =>
      cases hlead
      obtain ⟨htiles, htold⟩ := h.concat_tag htag hle hfits.2 hlies.2
      exact htold ▸ .idle htiles (Nat.le_refl _)
    | _ => cases hlead
  -- In the name of an attribute or in its value.
  | @inAttribute _ tokens token a ended reached problems hr h htag hle hcut hreached =>
    cases e with
    | attributeName ch =>
      obtain rfl | rfl := hr
      · cases hlead
        exact .inAttribute (a := { a with name := a.name.push ch }) (.inl rfl) h htag hle hcut
          hreached
      · cases hlead
    | problem problem pos =>
      obtain rfl | rfl := hr
      · cases hlead
        exact .inAttribute (.inl rfl) h htag hle hcut (Nat.le_trans hreached hfits)
      · cases hlead
    | beginAttributeValue quoted pos =>
      obtain rfl | rfl := hr
      · cases hlead
        exact .inAttribute (a := { a with quoted }) (.inr rfl) h htag hle hcut
          (Nat.le_trans hreached hfits)
      · cases hlead
    | attributeValue ch pos =>
      obtain rfl | rfl := hr
      · cases hlead
      · cases hlead
        exact .inAttribute (a := { a with value := a.value.push ch }) (.inr rfl) h htag hle hcut
          (Nat.le_trans hreached hfits)
    | finishAttributeValue pos =>
      obtain rfl | rfl := hr
      · cases hlead
      · cases hlead
        have hpos := Nat.le_trans hreached hfits
        obtain ⟨htag', htold⟩ := Token.OpensTag.addAttribute
          (a := { a with span := { a.span with stop := pos } }) htag hle hcut hpos hlies.2
        exact htold ▸ .inTag h htag' (Nat.le_trans hle hpos)
    | _ => obtain rfl | rfl := hr <;> cases hlead

/-- Events that may come one after the other are gathered. -/
theorem observeAll (h : Gathers mode text last r p c) (hlead : leadTo? r events = some r')
    (hfit : FitAll p events hi) (hlie : LieAll text n events hi')
    (hmeet : MeetAll mode text last p events) :
    Gathers mode text (events.foldl ToldTag.note last) r' (moveAll p events)
      (c.observeAll events) := by
  induction events generalizing last r p c n with
  | nil =>
    cases hlead
    exact h
  | cons e rest ih =>
    obtain ⟨r₁, hlead₁, hlead⟩ := leadTo?_cons.mp hlead
    exact ih (h.observe hlead₁ hfit.1 hlie.1 hmeet.1) hlead hfit.2 hlie.2 hmeet.2

/-- Outside of runs of text, the tokens so far end where something was opened. -/
theorem tiles (h : Gathers mode text last r p c) (hrunning : p.running = false) :
    Tiles mode text c.tokens p.opened := by
  cases h with
  | idle h hle => exact h
  | inText content h hgap hcut hle => cases hrunning
  | inComment content h hle => exact h
  | inTag h htag hle => exact h
  | inAttribute hr h htag hle hcut hreached => exact h

end Gathers

/-! ### Steps of the reader -/

/-- Whether an event opens a tag, a comment or a run of text. -/
def Event.opens : Event → Bool
  | .tagOpen _ | .beginData _ => true
  | _ => false

theorem meetAll_of_not_opens {mode : Mode} {text : List Char} {events : List Event}
    (h : ∀ e ∈ events, e.opens = false) (last : Option ToldTag) (p : Place) :
    MeetAll mode text last p events := by
  induction events generalizing last p with
  | nil => trivial
  | cons e rest ih =>
    obtain ⟨he, hrest⟩ := List.forall_mem_cons.mp h
    refine ⟨?_, ih hrest _ _⟩
    cases e with
    | tagOpen pos | beginData pos => cases he
    | _ => trivial

theorem FitAll.reached_le {p : Place} {events : List Event} {hi : Nat} (h : FitAll p events hi) :
    (moveAll p events).reached ≤ hi := by
  induction events generalizing p with
  | nil => exact h
  | cons e rest ih => exact ih h.2

/-- A line break is written in one of three ways. -/
theorem Reading.of_lineBreak {c : Char} {rest : List Char} (h : (Reading.of c rest).char = '\n') :
    ∃ piece, IsLineBreak piece ∧ c :: rest = piece ++ (Reading.of c rest).rest ∧
      byteLength piece = (Reading.of c rest).width := by
  unfold Reading.of at h ⊢
  by_cases hc : c = '\r'
  · rw [if_pos hc]
    subst hc
    split
    · exact ⟨['\r', '\n'], .inr (.inr rfl), rfl, rfl⟩
    · exact ⟨['\r'], .inr (.inl rfl), rfl, rfl⟩
  · rw [if_neg hc] at h ⊢
    obtain rfl : c = '\n' := h
    exact ⟨['\n'], .inl rfl, rfl, rfl⟩

namespace Machine

/-- Where a step goes to, as far as tags and comments are opened and ended. -/
inductive Crosses (m : Machine) (c : Char) (rest : List Char) (next : Step) : Prop
  | opens (hdata : m.state.isData = true) (hbracket : (Reading.of c rest).char = '<')
    (hstate : next.machine.state = .tagOpen) (htag : next.machine.tagStart = m.pos)
  | between (hdata : m.state.isData = true) (hstate : next.machine.state = .data)
  /-- Inside of a tag or comment nothing else is opened. -/
  | inside (hdata : m.state.isData = false) (hstate : next.machine.state.isData = false)
    (htag : next.machine.tagStart = m.tagStart) (hopens : ∀ e ∈ next.events, e.opens = false)
  /-- Its end is told last, and the reader stands there. -/
  | ends (hdata : m.state.isData = false) (hstate : next.machine.state = .beforeData)
    (hopens : ∀ e ∈ next.events, e.opens = false) (front : List Event) (e : Event)
    (hevents : next.events = front ++ [e])
    (hmove : ∀ p : Place, e.move p = ⟨false, next.machine.pos, next.machine.pos⟩)

/-- A step opens a tag or comment, ends one, or does neither. -/
theorem step_crosses (m : Machine) (c : Char) (rest : List Char) :
    Crosses m c rest (m.step c rest) := by
  rw [step]
  cases hs : m.state <;>
    simp only [stepBeforeData, stepData, stepTagOpen, stepMarkupDeclaration, stepCommentStart,
      stepCommentStartDash, stepComment, stepCommentEndDash, stepCommentEnd, stepTagName,
      stepEndTagName, stepBeforeAttributeName, stepAttributeName, stepAfterAttributeName,
      stepBeforeAttributeValue, stepQuotedValue, stepUnquotedValue, stepAfterQuotedValue,
      stepSelfClosing, stepEndTagOpen, takeReference] <;>
    repeat' split
  all_goals
    first
      | exact .opens (by rw [hs]; rfl) (And.left ‹_›) rfl rfl
      | exact .between (by rw [hs]; rfl) (by first | rfl | exact hs)
      | exact .inside (by rw [hs]; rfl) (by first | rfl | exact hs ▸ rfl) rfl
          (by simp [take, hand, startName, takeNameChar, emptyValue, Event.opens])
      | exact .ends (by rw [hs]; rfl) rfl
          (by simp [closeTag, closeComment, take, emptyValue, Event.opens]) _ (.finishTag _) rfl
          fun _ => rfl
      | exact .ends (by rw [hs]; rfl) rfl
          (by simp [closeComment, take, Event.opens]) [] (.finishComment _) rfl fun _ => rfl

/-- The reader stands where the events so far say, in front of what is left of a text, and a
collector has gathered them. -/
structure Stands (mode : Mode) (text : List Char) (last : Option ToldTag) (p : Place)
    (c : Collector) (m : Machine) (input : List Char) : Prop where
  mode_eq : m.mode = mode
  reads : Text.StandsAt text input m.offset
  at_place : m.At p
  opened : m.Opened text m.pos
  remembers : m.Remembers last
  /-- Between tokens the reader stands where the last one was ended. -/
  paused : m.state = .beforeData → p.opened = m.pos
  /-- A tag or comment that is open begins with a bracket. -/
  bracket : m.state.isData = false → Text.StandsAt text ['<'] m.tagStart
  gathers : Gathers mode text last m.state.region p c

namespace Stands

variable {mode : Mode} {text input : List Char} {last : Option ToldTag} {p : Place} {c : Collector}
  {m : Machine}

theorem pos_eq (hlength : byteLength text ≤ maxOffset) (h : Stands mode text last p c m input) :
    m.pos = m.offset :=
  Nat.min_eq_left (Nat.le_trans h.reads.start_cut.le hlength)

/-- A line break that is read before a run of text. -/
theorem gap (hlength : byteLength text ≤ maxOffset) {ch : Char} {rest : List Char}
    (h : Stands mode text last p c m (ch :: rest)) (hs : m.state = .beforeData)
    (hbreak : (Reading.of ch rest).char = '\n') (hdrops : m.dropsLineBreak = true) :
    Gap mode text last p.opened (m.posAfter (Reading.of ch rest)) := by
  have hdata : m.state.isData = true := by rw [hs]; rfl
  obtain ⟨hmode, htag⟩ := (h.remembers.dropsLineBreak_iff hdata).mp hdrops
  obtain ⟨piece, hpiece, hinput, hwidth⟩ := Reading.of_lineBreak hbreak
  have hbefore := before_of_reads hlength h.reads hinput hwidth
  refine .inr ⟨h.mode_eq.symm.trans hmode, htag, piece, hpiece, ?_, ?_⟩
  · rw [h.paused hs, h.pos_eq hlength]
    have hparts : ch :: rest = [] ++ piece ++ (Reading.of ch rest).rest := hinput
    exact h.reads.cut hparts
  · rw [h.paused hs, ← hbefore.width, hwidth]

/-- What a step opens, it opens where the last token was ended, or behind a line break. -/
theorem meetAll (hlength : byteLength text ≤ maxOffset) {ch : Char} {rest : List Char}
    (h : Stands mode text last p c m (ch :: rest)) :
    MeetAll mode text last p (m.step ch rest).events := by
  cases hs : m.state with
  | beforeData =>
    -- In front of text: a bracket opens a tag here, a line break may be left out, text begins.
    have hpaused := (h.paused hs).symm
    rw [Machine.step, hs]
    simp only [stepBeforeData]
    split
    · exact ⟨hpaused, trivial⟩
    split
    · next hdrop => exact ⟨h.gap hlength hs hdrop.1 hdrop.2, trivial⟩
    · exact ⟨.inl hpaused, trivial⟩
  | data =>
    rw [Machine.step, hs]
    simp only [stepData, takeReference]
    split
    · exact ⟨trivial, rfl, trivial⟩
    split
    · split
      · exact meetAll_of_not_opens (List.forall_mem_map.mpr fun _ _ => rfl) last p
      · exact ⟨trivial, trivial⟩
    · exact ⟨trivial, trivial⟩
  | _ =>
    refine meetAll_of_not_opens ?_ last p
    cases m.step_crosses ch rest with
    | opens hdata | between hdata => rw [hs] at hdata; cases hdata
    | inside _ _ _ hopens | ends _ _ hopens => exact hopens

/-- A step keeps it. -/
theorem step (hlength : byteLength text ≤ maxOffset) {ch : Char} {rest : List Char}
    (h : Stands mode text last p c m (ch :: rest)) :
    Stands mode text ((m.step ch rest).events.foldl ToldTag.note last)
      { moveAll p (m.step ch rest).events with reached := (m.step ch rest).machine.pos }
      (c.observeAll (m.step ch rest).events) (m.step ch rest).machine (m.step ch rest).rest := by
  have hmoves := step_moves h.at_place ch rest
  have hticks := step_ticks hlength h.reads h.opened
  obtain ⟨piece, hpiece, hoffset⟩ := (m.step_reads ch rest).piece
  refine ⟨(step_mode m ch rest).trans h.mode_eq, ?_, hmoves.at_next, hticks.opened,
    step_remembers h.remembers ch rest, fun hstate => ?_, fun hstate => ?_, ?_⟩
  -- What is left to read stands behind what the step has read.
  · have hparts : ch :: rest = piece ++ (m.step ch rest).rest ++ [] := by
      rw [List.append_nil]
      exact hpiece
    have hreads := h.reads.cut hparts
    rwa [← hoffset] at hreads
  · cases m.step_crosses ch rest with
    | opens _ _ hnext | between _ hnext | inside _ hnext => rw [hstate] at hnext; cases hnext
    | ends _ _ _ front e hevents hmove =>
      rw [hevents, moveAll, List.foldl_append]
      exact congrArg Place.opened (hmove _)
  · cases m.step_crosses ch rest with
    | opens _ hbracket _ htag =>
      have hplain : Reading.of ch rest = ⟨ch, ch.utf8Size, rest⟩ :=
        Reading.of_eq (by rw [hbracket]; decide)
      rw [hplain] at hbracket
      obtain rfl : ch = '<' := hbracket
      have hparts : '<' :: rest = [] ++ ['<'] ++ rest := rfl
      rw [htag, h.pos_eq hlength]
      exact h.reads.cut hparts
    | inside hdata _ htag => exact htag ▸ h.bracket hdata
    | between _ hnext | ends _ hnext => rw [hnext] at hstate; cases hstate
  · exact (h.gathers.observeAll (step_leads m ch rest) hmoves.fits hticks.lies
      (h.meetAll hlength)).mono hmoves.fits.reached_le

/-- So does a whole text. -/
theorem read (hlength : byteLength text ≤ maxOffset) (h : Stands mode text last p c m input) :
    ∃ last' p', Stands mode text last' p' (c.observeAll (m.read input).2) (m.read input).1 [] := by
  fun_induction Machine.read m input generalizing last p c with
  -- The piece is used up.
  | case1 m => exact ⟨last, p, h⟩
  -- One step, and then the rest.
  | case2 m ch rest next =>
    rename_i result ih
    obtain ⟨last', p', hread⟩ := ih (h.step hlength)
    rw [← Collector.observeAll_append] at hread
    exact ⟨last', p', hread⟩

/-- The end of the text ends a run of text. -/
theorem flush (hlength : byteLength text ≤ maxOffset) (h : Stands mode text last p c m []) :
    ∃ last' p', Stands mode text last' p' (c.observeAll m.flush.2) m.flush.1 [] := by
  by_cases hs : m.state = .data
  · have hcut : Text.Cut text m.pos := h.pos_eq hlength ▸ h.reads.start_cut
    have hlie := flush_lieAll hcut
    have hopened := flush_opened h.opened
    have hremembers := flush_remembers h.remembers
    have hleads := flush_leads m
    obtain ⟨hfit, hat⟩ := flush_moves h.at_place
    have hflush : m.flush = ({ m with state := .beforeData }, [.finishData m.pos]) := if_pos hs
    rw [hflush] at hlie hopened hremembers hleads hfit hat ⊢
    exact ⟨last, _, h.mode_eq, h.reads, hat, hopened, hremembers, fun _ => rfl,
      fun hstate => (by cases hstate),
      (h.gathers.observeAll hleads hfit hlie ⟨trivial, trivial⟩).mono hfit.reached_le⟩
  · have hflush : m.flush = (m, []) := if_neg hs
    rw [hflush]
    exact ⟨last, p, h⟩

end Stands

end Machine

/-! ### Whole texts -/

/-- Between tags the end of the text leaves the reader where it stands, in a tag or comment
nothing ends. -/
theorem Machine.flush_cases (m : Machine) :
    (m.state.isData = true ∧ m.flush.1.state = .beforeData ∧ m.flush.1.offset = m.offset) ∨
      (m.state.isData = false ∧ m.flush = (m, [])) := by
  rw [Machine.flush]
  cases hs : m.state with
  | beforeData => exact .inl ⟨rfl, hs, rfl⟩
  | data => exact .inl ⟨rfl, rfl, rfl⟩
  | _ => exact .inr ⟨rfl, rfl⟩

/-- The tokens of a text follow each other from its start.  Behind the last one nothing is left,
unless the text ends in a tag, a comment or a markup declaration, which begins there. -/
theorem tokenize_tiles (mode : Mode) (text : List Char) (h : byteLength text < 2 ^ 32) :
    let m := (Machine.read { mode } text).1
    ∃ n, Tiles mode text (tokenize mode text).1 n ∧
      if m.state.isData then n = byteLength text
      else m.tagStart = n ∧ Text.StandsAt text ['<'] n := by
  intro m
  have hlength : byteLength text ≤ maxOffset := Nat.le_of_lt_succ h
  have hstart : Machine.Stands mode text none ⟨false, 0, 0⟩ {} { mode } text :=
    { mode_eq := rfl
      reads := ⟨[], [], by simp, rfl⟩
      at_place := ⟨rfl, fun hstate => (by cases hstate), Nat.zero_le _⟩
      opened := fun hstate => by cases hstate
      remembers := ⟨rfl, by simp, by simp⟩
      paused := fun _ => rfl
      bracket := fun hstate => by cases hstate
      gathers := .idle .nil (Nat.le_refl 0) }
  obtain ⟨last, p, hread⟩ := hstart.read hlength
  obtain ⟨last', p', hend⟩ := hread.flush hlength
  have hrunning : p'.running = false := by
    rw [hend.at_place.running]
    exact decide_eq_false m.flush_state_ne_data
  have htiles := hend.gathers.tiles hrunning
  rw [← Collector.observeAll_append] at htiles
  have htokens := congrArg Prod.fst (tokenize_eq mode text)
  rw [htokens]
  refine ⟨p'.opened, htiles, ?_⟩
  -- The text ends between tokens, or in something that was opened and is dropped.
  rcases m.flush_cases with ⟨hdata, hstate, hoffset⟩ | ⟨hdata, hflush⟩
  · rw [if_pos hdata, hend.paused hstate, hend.pos_eq hlength]
    exact hoffset.trans ((Machine.read_offset { mode } text).trans (Nat.zero_add _))
  · have hopened := hend.at_place.opened
    have hbracket := hend.bracket
    rw [hflush] at hopened hbracket
    rw [if_neg (by rw [hdata]; decide), hopened hdata]
    exact ⟨rfl, hbracket hdata⟩

/-- A preformatted element with an attribute swallows a line break of two characters, and behind
its text a tag has no end. -/
theorem tokenize_tiles_preformatted :
    let text := ['<', 'P', 'R', 'E', ' ', 'é', '>', '\r', '\n', 'x', '<']
    (tokenize .precompile text).1 =
      [.startTag "PRE" [⟨"é", "", false, ⟨5, 7⟩⟩] false ⟨0, 8⟩, .chars "x" ⟨10, 11⟩] ∧
      byteLength text < 2 ^ 32 ∧
      let m := (Machine.read { mode := .precompile } text).1
      ∃ n, Tiles .precompile text (tokenize .precompile text).1 n ∧
        if m.state.isData then n = byteLength text
        else m.tagStart = n ∧ Text.StandsAt text ['<'] n := by
  intro text
  have hlength : byteLength text < 2 ^ 32 := by decide
  exact ⟨by decide +kernel, hlength, tokenize_tiles .precompile text hlength⟩

end TemplateCompiler.Markup
