/-
Tokens that are printed are read back.

A token is printed in one fixed way: attribute values in double quotes, one blank
in front of each attribute.  A token is printable if nothing in its names and
texts would be read as the end of them.

* `Token.print`, `Token.isPrintable` — the text of a token, and whether it can be
  told from the text again;
* `Sight` — where a reader is, and what has been gathered up to spans;
* `Leads` — a piece of text leads from one sight to another, whatever follows it;
* `Token.print_leads` — the text of a token adds the token to what is gathered;
* `tokenize_printTokens` — printing and reading give the tokens back.
-/
import Mathlib.Data.List.Chain
import TemplateCompiler.Proofs.Markup.Collecting

namespace TemplateCompiler.Markup

/-! ### Printing -/

/-- The text of an attribute, with the blank in front of it. -/
def Attribute.print (a : Attribute) : List Char :=
  ' ' :: (a.name.toList ++ ('=' :: '"' :: (a.value.toList ++ ['"'])))

/-- The text of a token. -/
def Token.print : Token → List Char
  | .startTag name attributes selfClosing _ =>
    '<' :: (name.toList ++ (attributes.flatMap Attribute.print
      ++ if selfClosing then ['/', '>'] else ['>']))
  | .endTag name _ => '<' :: '/' :: (name.toList ++ ['>'])
  | .chars text _ => text.toList
  | .comment text _ => '<' :: '!' :: '-' :: '-' :: (text.toList ++ ['-', '-', '>'])

/-- The text of tokens in order. -/
def printTokens (ts : List Token) : List Char := ts.flatMap Token.print

/-- Whether a character can stand in the name of a tag. -/
def isTagNameChar (c : Char) : Bool := !isSpace c && c != '\r' && c != '/' && c != '>'

/-- Whether a text can be the name of a tag. -/
def isTagName (name : String) : Bool :=
  name.toList.head?.any isNameStart && name.toList.all isTagNameChar

/-- Whether the text after a start tag is read as any other text. -/
def isOrdinaryTag (name : String) : Bool :=
  !(["title", "style", "script"].contains name) && !(["pre", "textarea"].contains name.toLower)

/-- Whether a character can stand in the name of an attribute. -/
def isAttributeNameChar (c : Char) : Bool :=
  isTagNameChar c && c != '=' && c != '"' && c != '\'' && c != '<'

/-- Whether a character of a text or a value is read as itself. -/
def isPlainChar (mode : Mode) (c : Char) : Bool := c != '\r' && (mode == .codemod || c != '&')

/-- Whether an attribute is read back from its text. -/
def Attribute.isPrintable (mode : Mode) (a : Attribute) : Bool :=
  !a.name.toList.isEmpty && a.name.toList.all isAttributeNameChar && a.quoted &&
    a.value.toList.all fun c => isPlainChar mode c && c != '"'

/-- Whether a text can stand in a comment. -/
def isCommentText (text : List Char) : Bool :=
  text.all (· != '\r') && !Text.occursIn ['-', '-'] text &&
    text.head?.all (fun c => c != '-' && c != '>') && text.getLast?.all (· != '-')

/-- Whether a token is read back from its text. -/
def Token.isPrintable (mode : Mode) : Token → Bool
  | .startTag name attributes _ _ =>
    isTagName name && isOrdinaryTag name && attributes.all (Attribute.isPrintable mode)
  | .endTag name _ => isTagName name
  | .chars text _ =>
    !text.toList.isEmpty && text.toList.all fun c => isPlainChar mode c && c != '<'
  | .comment text _ => isCommentText text.toList

/-- Whether a token is a run of text. -/
def Token.isChars : Token → Bool
  | .chars _ _ => true
  | _ => false

/-! ### Tokens up to spans -/

/-- The attribute without its span. -/
def Attribute.unplaced (a : Attribute) : Attribute := { a with span := .dummy }

/-- The token without spans. -/
def Token.unplaced : Token → Token
  | .startTag name attributes selfClosing _ =>
    .startTag name (attributes.map Attribute.unplaced) selfClosing .dummy
  | .endTag name _ => .endTag name .dummy
  | .chars text _ => .chars text .dummy
  | .comment text _ => .comment text .dummy

/-- What is gathered, without spans. -/
def Collector.unplaced (c : Collector) : Collector where
  tokens := c.tokens.map Token.unplaced
  current := c.current.map Token.unplaced
  pending := c.pending.map Attribute.unplaced
  problems := c.problems

theorem Token.unplaced_endAt (t : Token) (pos : Nat) : (t.endAt pos).unplaced = t.unplaced := by
  cases t <;> rfl

section

variable {t t' : Token} (h : t.unplaced = t'.unplaced)
include h

theorem Token.unplaced_push (c : Char) : (t.push c).unplaced = (t'.push c).unplaced := by
  cases t <;> cases t' <;> simp_all [unplaced, push]

theorem Token.unplaced_markSelfClosing :
    t.markSelfClosing.unplaced = t'.markSelfClosing.unplaced := by
  cases t <;> cases t' <;> simp_all [unplaced, markSelfClosing]

theorem Token.unplaced_addAttribute {a a' : Attribute} (ha : a.unplaced = a'.unplaced) :
    (t.addAttribute a).unplaced = (t'.addAttribute a').unplaced := by
  cases t <;> cases t' <;> simp_all [unplaced, addAttribute]

end

/-- Changes that respect spans, made to what may be missing. -/
theorem map_respects {α : Type} {f g g' : α → α} {x y : Option α} (hxy : x.map f = y.map f)
    (h : ∀ a b, f a = f b → f (g a) = f (g' b)) : (x.map g).map f = (y.map g').map f := by
  cases x <;> cases y
  case some.some a b => exact congrArg some (h a b (Option.some.inj hxy))
  all_goals simp_all

namespace Collector

/-- What an event adds does not depend on spans. -/
theorem unplaced_observe {c c' : Collector} (h : c.unplaced = c'.unplaced) (e : Event) :
    (c.observe e).unplaced = (c'.observe e).unplaced := by
  obtain ⟨tokens, current, pending, problems⟩ := c
  obtain ⟨tokens', current', pending', problems'⟩ := c'
  obtain ⟨htokens, hcurrent, hpending, rfl⟩ := Collector.mk.inj h
  simp only at htokens hcurrent hpending
  cases e <;> simp only [observe, begin, close, closeAttribute, unplaced, htokens, hcurrent,
    hpending, mk.injEq, and_self, true_and, and_true]
  case data ch | commentData ch | tagName ch =>
    exact map_respects hcurrent fun _ _ h => Token.unplaced_push h ch
  case selfClosing => exact map_respects hcurrent fun _ _ => Token.unplaced_markSelfClosing
  case attributeName | beginAttributeValue | attributeValue =>
    exact map_respects hpending fun _ _ h => by simp_all [Attribute.unplaced]
  case finishAttributeValue pos =>
    cases pending <;> cases pending' <;> simp_all only [Option.map_none, Option.map_some,
      Option.some.injEq, reduceCtorEq, true_and, and_true]
    refine map_respects hcurrent fun _ _ h => Token.unplaced_addAttribute h ?_
    simpa [Attribute.unplaced] using hpending
  all_goals
    cases current <;> cases current' <;> simp_all [Token.unplaced_endAt]

theorem unplaced_observeAll {c c' : Collector} (h : c.unplaced = c'.unplaced)
    (events : List Event) : (c.observeAll events).unplaced = (c'.observeAll events).unplaced := by
  induction events generalizing c c' with
  | nil => exact h
  | cons e rest ih => exact ih (unplaced_observe h e)

/-- A token is added, whatever its span. -/
theorem unplaced_add {tokens : List Token} {t t' : Token} (h : t.unplaced = t'.unplaced) :
    Collector.unplaced { tokens := tokens ++ [t] }
      = Collector.unplaced { tokens := tokens ++ [t'] } := by
  simp [unplaced, h]

/-- What a collector has gathered once a machine has read the rest of a text. -/
def gather (c : Collector) (m : Machine) (input : List Char) : Collector :=
  c.observeAll ((m.read input).2 ++ (m.read input).1.flush.2)

theorem gather_cons (c : Collector) (m : Machine) (x : Char) (rest : List Char) :
    c.gather m (x :: rest)
      = (c.observeAll (m.step x rest).events).gather (m.step x rest).machine
          (m.step x rest).rest := by
  rw [gather, Machine.read]
  simp only [gather, List.append_assoc, observeAll_append]

end Collector

/-! ### Sights -/

/-- Where a reader is, and what has been gathered by then. -/
structure Sight where
  state : State
  tagName : String
  collector : Collector

/-- A reader with this sight.  Where it is in the source is not part of the
sight. -/
def Sight.machine (σ : Sight) (mode : Mode) (tagStart offset : Nat) : Machine :=
  { state := σ.state, mode, tagName := σ.tagName, tagStart, offset }

/-- A step that leads to a sight and leaves some text to be read. -/
structure Step.LeadsTo (next : Step) (mode : Mode) (c : Collector) (σ : Sight)
    (rest : List Char) : Prop where
  state : next.machine.state = σ.state
  inMode : next.machine.mode = mode
  resolver : next.machine.resolver = .ofMode mode
  tagName : next.machine.tagName = σ.tagName
  rest : next.rest = rest
  collector : (c.observeAll next.events).unplaced = σ.collector.unplaced

theorem Step.LeadsTo.machine_eq {next : Step} {mode : Mode} {c : Collector} {σ : Sight}
    {rest : List Char} (h : next.LeadsTo mode c σ rest) :
    next.machine = σ.machine mode next.machine.tagStart next.machine.offset := by
  rw [Sight.machine, ← h.resolver, ← h.state, ← h.tagName, ← h.inMode]

/-- Reading a piece of text leads from one sight to another, whatever follows the
piece. -/
def Leads (mode : Mode) (σ : Sight) (piece : List Char) (σ' : Sight) : Prop :=
  ∀ (tagStart offset : Nat) (c : Collector) (rest : List Char),
    c.unplaced = σ.collector.unplaced →
    ∃ (tagStart' offset' : Nat) (c' : Collector), c'.unplaced = σ'.collector.unplaced ∧
      c.gather (σ.machine mode tagStart offset) (piece ++ rest)
        = c'.gather (σ'.machine mode tagStart' offset') rest

namespace Leads

variable {mode : Mode} {σ σ₁ σ' : Sight}

theorem refl : Leads mode σ [] σ :=
  fun tagStart offset c _ hc => ⟨tagStart, offset, c, hc, rfl⟩

theorem trans {a b : List Char} (h : Leads mode σ a σ₁) (h' : Leads mode σ₁ b σ') :
    Leads mode σ (a ++ b) σ' := by
  intro tagStart offset c rest hc
  obtain ⟨tagStart₁, offset₁, c₁, hc₁, heq₁⟩ := h tagStart offset c (b ++ rest) hc
  obtain ⟨tagStart', offset', c', hc', heq'⟩ := h' tagStart₁ offset₁ c₁ rest hc₁
  exact ⟨tagStart', offset', c', hc', by rw [List.append_assoc, heq₁, heq']⟩

/-- A character, then a piece. -/
theorem cons {x : Char} {b : List Char} (h : Leads mode σ [x] σ₁) (h' : Leads mode σ₁ b σ') :
    Leads mode σ (x :: b) σ' := h.trans h'

/-- One step, and then what it has left of the piece. -/
theorem of_step {x : Char} {piece : List Char} (left : List Char)
    (h : ∀ tagStart offset rest, ((σ.machine mode tagStart offset).step x (piece ++ rest)).LeadsTo
      mode σ.collector σ₁ (left ++ rest)) (h' : Leads mode σ₁ left σ') :
    Leads mode σ (x :: piece) σ' := by
  intro tagStart offset c rest hc
  have hstep := h tagStart offset rest
  rw [List.cons_append, Collector.gather_cons, hstep.rest, hstep.machine_eq]
  refine h' _ _ _ rest ?_
  rw [← hstep.collector]
  exact Collector.unplaced_observeAll hc _

/-- One step that reads the whole piece. -/
theorem of_take {x : Char} {piece : List Char}
    (h : ∀ tagStart offset rest, ((σ.machine mode tagStart offset).step x (piece ++ rest)).LeadsTo
      mode σ.collector σ' rest) : Leads mode σ (x :: piece) σ' :=
  of_step [] h refl

/-- Characters that are added to a text one by one. -/
theorem chars (inside : String → Sight) {p : Char → Bool}
    (h : ∀ text x, p x = true → Leads mode (inside text) [x] (inside (text.push x)))
    {piece : List Char} (hpiece : piece.all p = true) (text : String) :
    Leads mode (inside text) piece (inside (text ++ String.ofList piece)) := by
  induction piece generalizing text with
  | nil =>
    rw [String.ofList_nil, String.append_empty]
    exact refl
  | cons x rest ih =>
    rw [List.all_cons, Bool.and_eq_true] at hpiece
    have htext : text ++ String.ofList (x :: rest) = text.push x ++ String.ofList rest := by
      rw [String.ofList_cons, String.push_eq_append, String.append_assoc]
    rw [htext]
    exact (h text x hpiece.1).cons (ih hpiece.2 _)

/-- A word that is not empty: its first character begins it, and the others are
added to it. -/
theorem word {before : Sight} (inside : String → Sight) {first p : Char → Bool}
    (hfirst : ∀ x, first x = true → p x = true → Leads mode before [x] (inside ("".push x)))
    (hmore : ∀ text x, p x = true → Leads mode (inside text) [x] (inside (text.push x)))
    {text : String} (hhead : text.toList.head?.any first = true)
    (hall : text.toList.all p = true) : Leads mode before text.toList (inside text) := by
  cases hlist : text.toList with
  | nil =>
    rw [hlist] at hhead
    cases hhead
  | cons x rest =>
    rw [hlist] at hhead hall
    rw [List.all_cons, Bool.and_eq_true] at hall
    have heq : "".push x ++ String.ofList rest = text := by
      rw [← String.toList_inj, hlist]
      simp
    have hrest := chars inside hmore hall.2 ("".push x)
    rw [heq] at hrest
    exact (hfirst x hhead hall.1).cons hrest

end Leads

/-! ### Tags -/

theorem Reading.of_ne {c : Char} (h : c ≠ '\r') (rest : List Char) :
    Reading.of c rest = ⟨c, c.utf8Size, rest⟩ := if_neg h

/-- The sight outside of a run of text, after some tokens. -/
def afterToken (tag : String) (tokens : List Token) : Sight := ⟨.beforeData, tag, { tokens }⟩

/-- The sight in a run of text. -/
def inText (tag : String) (tokens : List Token) (span : Span) (text : String) : Sight :=
  ⟨.data, tag, { tokens, current := some (.chars text span) }⟩

/-- The sight after an angle bracket. -/
def afterBracket (state : State) (tag : String) (tokens : List Token) : Sight :=
  ⟨state, tag, { tokens }⟩

/-- The sight in a start tag, between its attributes. -/
def inStartTag (state : State) (tokens : List Token) (attributes : List Attribute)
    (tag : String) : Sight :=
  ⟨state, tag, { tokens, current := some (.startTag tag attributes false .dummy) }⟩

/-- The sight in an attribute of a start tag. -/
def inAttribute (state : State) (tokens : List Token) (attributes : List Attribute)
    (tag name value : String) (quoted : Bool) : Sight :=
  ⟨state, tag,
    { tokens
      current := some (.startTag tag attributes false .dummy)
      pending := some ⟨name, value, quoted, .dummy⟩ }⟩

/-- The sight in the name of an end tag. -/
def inEndTag (tokens : List Token) (name : String) : Sight :=
  ⟨.endTagName, name, { tokens, current := some (.endTag name .dummy) }⟩

/-- The sight in a comment. -/
def inComment (state : State) (tag : String) (tokens : List Token) (text : String) : Sight :=
  ⟨state, tag, { tokens, current := some (.comment text .dummy) }⟩

section

variable {mode : Mode} {tag name : String} {tokens : List Token} {attributes : List Attribute}
  {span : Span}

theorem isTagNameChar_iff {x : Char} :
    isTagNameChar x = true ↔ isSpace x = false ∧ x ≠ '\r' ∧ x ≠ '/' ∧ x ≠ '>' := by
  simp [isTagNameChar, and_assoc]

/-- The first character of a name begins a start tag. -/
theorem startTag_leads (x : Char) (h : isNameStart x = true) (hx : isTagNameChar x = true) :
    Leads mode (afterBracket .tagOpen tag tokens) [x]
      (inStartTag .tagName tokens [] ("".push x)) := by
  obtain ⟨-, hreturn, hslash, -⟩ := isTagNameChar_iff.mp hx
  have hmark : x ≠ '!' := by
    rintro rfl
    exact absurd h (by decide)
  refine .of_take fun tagStart offset rest => ?_
  simp only [Machine.step, Sight.machine, afterBracket, List.nil_append, Reading.of_ne hreturn,
    Machine.stepTagOpen, hmark, hslash, h, if_false, if_true]
  exact ⟨rfl, rfl, rfl, rfl, rfl, rfl⟩

theorem tagName_leads (text : String) (x : Char) (h : isTagNameChar x = true) :
    Leads mode (inStartTag .tagName tokens [] text) [x]
      (inStartTag .tagName tokens [] (text.push x)) := by
  obtain ⟨hspace, hreturn, hslash, hbracket⟩ := isTagNameChar_iff.mp h
  refine .of_take fun tagStart offset rest => ?_
  simp only [Machine.step, Sight.machine, inStartTag, List.nil_append, Reading.of_ne hreturn,
    Machine.stepTagName, hspace, hslash, hbracket, if_false, Bool.false_eq_true]
  exact ⟨rfl, rfl, rfl, rfl, rfl, rfl⟩

/-- The first character of a name begins an end tag. -/
theorem endTag_leads (x : Char) (h : isNameStart x = true) (hx : isTagNameChar x = true) :
    Leads mode (afterBracket .endTagOpen tag tokens) [x] (inEndTag tokens ("".push x)) := by
  obtain ⟨-, hreturn, -, -⟩ := isTagNameChar_iff.mp hx
  refine .of_take fun tagStart offset rest => ?_
  simp only [Machine.step, Sight.machine, afterBracket, List.nil_append, Reading.of_ne hreturn,
    Machine.stepEndTagOpen, h, if_true]
  exact ⟨rfl, rfl, rfl, rfl, rfl, rfl⟩

theorem endTagName_leads (text : String) (x : Char) (h : isTagNameChar x = true) :
    Leads mode (inEndTag tokens text) [x] (inEndTag tokens (text.push x)) := by
  obtain ⟨hspace, hreturn, hslash, hbracket⟩ := isTagNameChar_iff.mp h
  refine .of_take fun tagStart offset rest => ?_
  simp only [Machine.step, Sight.machine, inEndTag, List.nil_append, Reading.of_ne hreturn,
    Machine.stepEndTagName, hspace, hslash, hbracket, if_false, Bool.false_eq_true]
  exact ⟨rfl, rfl, rfl, rfl, rfl, rfl⟩

/-! ### Attributes -/

theorem isAttributeNameChar_iff {x : Char} : isAttributeNameChar x = true ↔
    isTagNameChar x = true ∧ x ≠ '=' ∧ ¬(x = '"' ∨ x = '\'' ∨ x = '<') := by
  simp [isAttributeNameChar, and_assoc]

theorem attributeName_leads (text : String) (x : Char) (h : isAttributeNameChar x = true) :
    Leads mode (inAttribute .attributeName tokens attributes tag text "" false) [x]
      (inAttribute .attributeName tokens attributes tag (text.push x) "" false) := by
  obtain ⟨hx, hequals, hstray⟩ := isAttributeNameChar_iff.mp h
  obtain ⟨hspace, hreturn, hslash, hbracket⟩ := isTagNameChar_iff.mp hx
  refine .of_take fun tagStart offset rest => ?_
  simp only [Machine.step, Sight.machine, inAttribute, List.nil_append, Reading.of_ne hreturn,
    Machine.stepAttributeName, hspace, hslash, hequals, hbracket, hstray, if_false,
    Bool.false_eq_true]
  exact ⟨rfl, rfl, rfl, rfl, rfl, rfl⟩

/-- The first character of a name begins an attribute and is then read again. -/
theorem attribute_leads (x : Char) (h : isAttributeNameChar x = true) :
    Leads mode (inStartTag .beforeAttributeName tokens attributes tag) [x]
      (inAttribute .attributeName tokens attributes tag ("".push x) "" false) := by
  obtain ⟨hx, hequals, -⟩ := isAttributeNameChar_iff.mp h
  obtain ⟨hspace, hreturn, hslash, hbracket⟩ := isTagNameChar_iff.mp hx
  refine .of_step [x] (fun tagStart offset rest => ?_) (attributeName_leads "" x h)
  simp only [Machine.step, Sight.machine, inStartTag, List.nil_append, Reading.of_ne hreturn,
    Machine.stepBeforeAttributeName, hspace, hslash, hequals, hbracket, if_false,
    Bool.false_eq_true]
  exact ⟨rfl, rfl, rfl, rfl, rfl, rfl⟩

/-- Where nothing is decoded, an ampersand begins no reference. -/
theorem reference?_codemod {m : Machine} (h : m.resolver = .ofMode .codemod) (r : Reading) :
    m.reference? r = none := by
  rw [Machine.reference?, h]
  split <;> rfl

theorem isPlainChar_iff {x : Char} :
    isPlainChar mode x = true ↔ x ≠ '\r' ∧ (x = '&' → mode = .codemod) := by
  simp only [isPlainChar, Bool.and_eq_true, bne_iff_ne, Bool.or_eq_true, beq_iff_eq]
  tauto

theorem value_leads (text : String) (x : Char) (h : (isPlainChar mode x && x != '"') = true) :
    Leads mode
      (inAttribute .attributeValueDoubleQuoted tokens attributes tag name text true) [x]
      (inAttribute .attributeValueDoubleQuoted tokens attributes tag name (text.push x) true) := by
  rw [Bool.and_eq_true, isPlainChar_iff, bne_iff_ne] at h
  obtain ⟨⟨hreturn, hreference⟩, hquote⟩ := h
  refine .of_take fun tagStart offset rest => ?_
  simp only [Machine.step, Sight.machine, inAttribute, List.nil_append, Reading.of_ne hreturn,
    Machine.stepQuotedValue, hquote, if_false]
  split
  · next hamp =>
    obtain rfl := hamp
    obtain rfl := hreference rfl
    rw [Machine.takeReference, reference?_codemod rfl]
    exact ⟨rfl, rfl, rfl, rfl, rfl, rfl⟩
  · exact ⟨rfl, rfl, rfl, rfl, rfl, rfl⟩

/-- A state in which one part of a start tag has been read and another may
follow. -/
def State.EndsPart (s : State) : Prop := s = .tagName ∨ s = .afterAttributeValueQuoted

/-- The text of an attribute adds the attribute. -/
theorem Attribute.print_leads {s : State} (hs : s.EndsPart) {a : Attribute}
    (h : a.isPrintable mode = true) :
    Leads mode (inStartTag s tokens attributes tag) a.print
      (inStartTag .afterAttributeValueQuoted tokens (attributes ++ [a]) tag) := by
  obtain ⟨name, value, quoted, span⟩ := a
  simp only [isPrintable, Bool.and_eq_true, Bool.not_eq_true'] at h
  obtain ⟨⟨⟨hne, hname⟩, rfl⟩, hvalue⟩ := h
  have hhead : name.toList.head?.any (fun _ => true) = true := by
    cases hlist : name.toList <;> simp_all
  -- The parts of the text in turn: a blank, the name, `=` and the value in quotes.
  have hblank : Leads mode (inStartTag s tokens attributes tag) [' ']
      (inStartTag .beforeAttributeName tokens attributes tag) := by
    rcases hs with rfl | rfl <;>
      exact .of_take fun tagStart offset rest => ⟨rfl, rfl, rfl, rfl, rfl, rfl⟩
  have hspelled : Leads mode (inStartTag .beforeAttributeName tokens attributes tag) name.toList
      (inAttribute .attributeName tokens attributes tag name "" false) :=
    .word (inAttribute .attributeName tokens attributes tag · "" false)
      (fun x _ hx => attribute_leads x hx) attributeName_leads hhead hname
  have hequals : Leads mode (inAttribute .attributeName tokens attributes tag name "" false) ['=']
      (inAttribute .beforeAttributeValue tokens attributes tag name "" false) :=
    .of_take fun tagStart offset rest => ⟨rfl, rfl, rfl, rfl, rfl, rfl⟩
  have hopen : Leads mode (inAttribute .beforeAttributeValue tokens attributes tag name "" false)
      ['"'] (inAttribute .attributeValueDoubleQuoted tokens attributes tag name "" true) :=
    .of_take fun tagStart offset rest => ⟨rfl, rfl, rfl, rfl, rfl, rfl⟩
  have htext := Leads.chars
    (inAttribute .attributeValueDoubleQuoted tokens attributes tag name · true)
    value_leads hvalue ""
  rw [String.empty_append, String.ofList_toList] at htext
  have hclose : Leads mode
      (inAttribute .attributeValueDoubleQuoted tokens attributes tag name value true) ['"']
      (inStartTag .afterAttributeValueQuoted tokens (attributes ++ [⟨name, value, true, span⟩])
        tag) := by
    refine .of_take fun tagStart offset rest => ⟨rfl, rfl, rfl, rfl, rfl, ?_⟩
    simp [Machine.step, Sight.machine, inAttribute, inStartTag, Machine.stepQuotedValue,
      Reading.of, Machine.take, Collector.observeAll, Collector.observe, Collector.closeAttribute,
      Token.addAttribute, Collector.unplaced, Token.unplaced, Attribute.unplaced]
  exact hblank.cons (hspelled.trans (hequals.cons (hopen.cons (htext.trans hclose))))

theorem attributes_leads {s : State} (hs : s.EndsPart) (attributes : List Attribute)
    {as : List Attribute} (h : as.all (Attribute.isPrintable mode) = true) :
    ∃ s' : State, s'.EndsPart ∧
      Leads mode (inStartTag s tokens attributes tag) (as.flatMap Attribute.print)
        (inStartTag s' tokens (attributes ++ as) tag) := by
  induction as generalizing s attributes with
  | nil =>
    rw [List.append_nil]
    exact ⟨s, hs, .refl⟩
  | cons a rest ih =>
    rw [List.all_cons, Bool.and_eq_true] at h
    obtain ⟨s', hs', hrest⟩ := ih (.inr rfl) (attributes ++ [a]) h.2
    rw [List.append_assoc, List.singleton_append] at hrest
    exact ⟨s', hs', (a.print_leads hs h.1).trans hrest⟩

/-- The end of a start tag adds the tag. -/
theorem closeStartTag_leads {s : State} (hs : s.EndsPart) (selfClosing : Bool) :
    Leads mode (inStartTag s tokens attributes tag)
      (if selfClosing then ['/', '>'] else ['>'])
      (afterToken tag (tokens ++ [Token.startTag tag attributes selfClosing span])) := by
  cases selfClosing with
  | false =>
    rcases hs with rfl | rfl <;>
      exact .of_take fun tagStart offset rest =>
        ⟨rfl, rfl, rfl, rfl, rfl, Collector.unplaced_add rfl⟩
  | true =>
    have hslash : Leads mode (inStartTag s tokens attributes tag) ['/']
        (inStartTag .selfClosingStartTag tokens attributes tag) := by
      rcases hs with rfl | rfl <;>
        exact .of_take fun tagStart offset rest => ⟨rfl, rfl, rfl, rfl, rfl, rfl⟩
    exact hslash.cons
      (.of_take fun tagStart offset rest => ⟨rfl, rfl, rfl, rfl, rfl, Collector.unplaced_add rfl⟩)

/-! ### Comments and texts -/

theorem commentChar_leads (text : String) {x : Char} (hreturn : x ≠ '\r') (hdash : x ≠ '-') :
    Leads mode (inComment .comment tag tokens text) [x]
      (inComment .comment tag tokens (text.push x)) := by
  refine .of_take fun tagStart offset rest => ?_
  simp only [Machine.step, Sight.machine, inComment, List.nil_append, Reading.of_ne hreturn,
    Machine.stepComment, hdash, if_false]
  exact ⟨rfl, rfl, rfl, rfl, rfl, rfl⟩

/-- A dash alone is kept with the character after it. -/
theorem commentDash_leads (text : String) {x : Char} (hreturn : x ≠ '\r') (hdash : x ≠ '-') :
    Leads mode (inComment .comment tag tokens text) ['-', x]
      (inComment .comment tag tokens ((text.push '-').push x)) := by
  have hfirst : Leads mode (inComment .comment tag tokens text) ['-']
      (inComment .commentEndDash tag tokens text) :=
    .of_take fun tagStart offset rest => ⟨rfl, rfl, rfl, rfl, rfl, rfl⟩
  refine hfirst.cons (.of_take fun tagStart offset rest => ?_)
  simp only [Machine.step, Sight.machine, inComment, List.nil_append, Reading.of_ne hreturn,
    Machine.stepCommentEndDash, hdash, if_false]
  exact ⟨rfl, rfl, rfl, rfl, rfl, rfl⟩

/-- The text of a comment without two dashes in a row and without a dash at its
end is read as it stands. -/
theorem commentText_leads : ∀ {cs : List Char}, cs.all (· != '\r') = true →
    Text.occursIn ['-', '-'] cs = false → cs.getLast?.all (· != '-') = true → ∀ text : String,
    Leads mode (inComment .comment tag tokens text) cs
      (inComment .comment tag tokens (text ++ String.ofList cs))
  | [], _, _, _, text => by
    rw [String.ofList_nil, String.append_empty]
    exact .refl
  | x :: rest, hreturn, hdashes, hlast, text => by
    rw [List.all_cons, Bool.and_eq_true, bne_iff_ne] at hreturn
    simp only [Text.occursIn, Bool.or_eq_false_iff] at hdashes
    -- A dash is held back until the next character shows that it is a single one.
    by_cases hx : x = '-'
    · obtain rfl := hx
      cases rest with
      | nil => cases hlast
      | cons y rest =>
        have hy : y ≠ '-' := by
          rintro rfl
          cases hdashes.1
        rw [List.all_cons, Bool.and_eq_true, bne_iff_ne] at hreturn
        have hrest := commentText_leads hreturn.2.2 (Bool.or_eq_false_iff.mp hdashes.2).2
          (by cases rest <;> simp_all) ((text.push '-').push y)
        rw [show text ++ String.ofList ('-' :: y :: rest)
            = (text.push '-').push y ++ String.ofList rest by simp [← String.toList_inj]]
        exact (commentDash_leads text hreturn.2.1 hy).trans hrest
    · have hrest := commentText_leads hreturn.2 hdashes.2
        (by cases rest <;> simp_all) (text.push x)
      rw [show text ++ String.ofList (x :: rest) = text.push x ++ String.ofList rest by
        simp [← String.toList_inj]]
      exact (commentChar_leads text hreturn.1 hx).cons hrest

/-- The text of a comment and the dashes that end it. -/
theorem comment_leads {cs : List Char} (h : isCommentText cs = true) :
    Leads mode (inComment .commentStart tag tokens "") (cs ++ ['-', '-', '>'])
      (afterToken tag (tokens ++ [Token.comment (String.ofList cs) span])) := by
  simp only [isCommentText, Bool.and_eq_true, Bool.not_eq_true'] at h
  obtain ⟨⟨⟨hreturn, hdashes⟩, hhead⟩, hlast⟩ := h
  have hclose : ∀ text, Leads mode (inComment .commentEnd tag tokens text) ['>']
      (afterToken tag (tokens ++ [Token.comment text span])) := fun text =>
    .of_take fun tagStart offset rest => ⟨rfl, rfl, rfl, rfl, rfl, Collector.unplaced_add rfl⟩
  cases cs with
  | nil =>
    -- The dashes that end an empty comment are read as the first ones of its text.
    have hdash : Leads mode (inComment .commentStart tag tokens "") ['-']
        (inComment .commentStartDash tag tokens "") :=
      .of_take fun tagStart offset rest => ⟨rfl, rfl, rfl, rfl, rfl, rfl⟩
    have hdash' : Leads mode (inComment .commentStartDash tag tokens "") ['-']
        (inComment .commentEnd tag tokens "") :=
      .of_take fun tagStart offset rest => ⟨rfl, rfl, rfl, rfl, rfl, rfl⟩
    exact hdash.cons (hdash'.cons (hclose ""))
  | cons x rest =>
    rw [List.all_cons, Bool.and_eq_true, bne_iff_ne] at hreturn
    simp only [List.head?_cons, Option.all_some, Bool.and_eq_true, bne_iff_ne, ne_eq] at hhead
    have hfirst : Leads mode (inComment .commentStart tag tokens "") [x]
        (inComment .comment tag tokens ("".push x)) := by
      refine .of_take fun tagStart offset rest => ?_
      simp only [Machine.step, Sight.machine, inComment, List.nil_append,
        Reading.of_ne hreturn.1, Machine.stepCommentStart, hhead, if_false]
      exact ⟨rfl, rfl, rfl, rfl, rfl, rfl⟩
    have htext : Leads mode (inComment .comment tag tokens ("".push x)) rest
        (inComment .comment tag tokens (String.ofList (x :: rest))) := by
      rw [show String.ofList (x :: rest) = "".push x ++ String.ofList rest by simp]
      exact commentText_leads hreturn.2 (Bool.or_eq_false_iff.mp hdashes).2
        (by cases rest <;> simp_all) ("".push x)
    have hdash : Leads mode (inComment .comment tag tokens (String.ofList (x :: rest))) ['-']
        (inComment .commentEndDash tag tokens (String.ofList (x :: rest))) :=
      .of_take fun tagStart offset rest => ⟨rfl, rfl, rfl, rfl, rfl, rfl⟩
    have hdash' : Leads mode (inComment .commentEndDash tag tokens (String.ofList (x :: rest)))
        ['-'] (inComment .commentEnd tag tokens (String.ofList (x :: rest))) :=
      .of_take fun tagStart offset rest => ⟨rfl, rfl, rfl, rfl, rfl, rfl⟩
    exact hfirst.cons (htext.trans (hdash.cons (hdash'.cons (hclose _))))

theorem text_leads (text : String) (x : Char)
    (h : (isPlainChar mode x && x != '<') = true) :
    Leads mode (inText tag tokens span text) [x] (inText tag tokens span (text.push x)) := by
  rw [Bool.and_eq_true, isPlainChar_iff, bne_iff_ne] at h
  obtain ⟨⟨hreturn, hreference⟩, hbracket⟩ := h
  refine .of_take fun tagStart offset rest => ?_
  simp only [Machine.step, Sight.machine, inText, List.nil_append, Reading.of_ne hreturn,
    Machine.stepData, hbracket, false_and, if_false]
  split
  · next hamp =>
    obtain rfl := hamp.1
    obtain rfl := hreference rfl
    rw [Machine.takeReference, reference?_codemod rfl]
    exact ⟨rfl, rfl, rfl, rfl, rfl, rfl⟩
  · exact ⟨rfl, rfl, rfl, rfl, rfl, rfl⟩

/-- The first character of a run of text begins it, and is then read again. -/
theorem beginText_leads (htag : isOrdinaryTag tag = true) (x : Char)
    (h : (isPlainChar mode x && x != '<') = true) :
    Leads mode (afterToken tag tokens) [x] (inText tag tokens span ("".push x)) := by
  refine .of_step [x] (fun tagStart offset rest => ?_) (text_leads "" x h)
  rw [Bool.and_eq_true, isPlainChar_iff, bne_iff_ne] at h
  have hdrops : (Sight.machine (afterToken tag tokens) mode tagStart offset).dropsLineBreak
      = false := by
    simp only [isOrdinaryTag, Bool.and_eq_true, Bool.not_eq_true', List.contains_cons,
      List.contains_nil, Bool.or_false, Bool.or_eq_false_iff] at htag
    simp [Machine.dropsLineBreak, Sight.machine, afterToken, htag.2]
  simp only [Machine.step, Machine.stepBeforeData, hdrops, List.nil_append,
    Reading.of_ne h.1.1, h.2, Bool.false_eq_true, false_and, and_false, if_false]
  exact ⟨rfl, rfl, rfl, rfl, rfl, rfl⟩

/-! ### Lists of tokens -/

/-- A sight between two tokens: the tokens so far are complete, but for the end of
a run of text. -/
inductive Between : List Token → Sight → Prop where
  | token {tag : String} {tokens : List Token} (htag : isOrdinaryTag tag = true) :
    Between tokens (afterToken tag tokens)
  | text {tag text : String} {tokens : List Token} {span : Span} (htag : isOrdinaryTag tag = true) :
    Between (tokens ++ [.chars text span]) (inText tag tokens span text)

/-- Outside of raw texts every angle bracket opens a tag. -/
theorem ignoresTag_eq_false {m : Machine} (h : isOrdinaryTag m.tagName = true)
    (input : List Char) : m.ignoresTag input = false := by
  simp only [isOrdinaryTag, Bool.and_eq_true, Bool.not_eq_true', List.contains_cons,
    List.contains_nil, Bool.or_false, Bool.or_eq_false_iff] at h
  simp [Machine.ignoresTag, h.1]

/-- An angle bracket between two tokens opens a tag. -/
theorem Between.bracket_leads {σ : Sight} (h : Between tokens σ) (mode : Mode) :
    ∃ tag, isOrdinaryTag tag = true ∧ Leads mode σ ['<'] (afterBracket .tagOpen tag tokens) := by
  cases h with
  | token htag =>
    refine ⟨_, htag, .of_take fun tagStart offset rest => ?_⟩
    have hopens : ((afterToken _ tokens).machine mode tagStart offset).ignoresTag ('<' :: rest)
        = false := ignoresTag_eq_false htag _
    rw [Machine.step]
    simp only [Machine.stepBeforeData, List.nil_append, hopens]
    exact ⟨rfl, rfl, rfl, rfl, rfl, rfl⟩
  | @text tag text tokens span htag =>
    refine ⟨_, htag, .of_take fun tagStart offset rest => ?_⟩
    have hopens : ((inText tag tokens span text).machine mode tagStart offset).ignoresTag
        ('<' :: rest) = false := ignoresTag_eq_false htag _
    simp only [Machine.step, Machine.stepData, List.nil_append, hopens]
    exact ⟨rfl, rfl, rfl, rfl, rfl, Collector.unplaced_add rfl⟩

/-- The text of a tag or of a comment adds it to the tokens. -/
theorem Token.print_leads {σ : Sight} (h : Between tokens σ) {t : Token}
    (ht : t.isPrintable mode = true) (hchars : t.isChars = false) :
    ∃ tag, isOrdinaryTag tag = true ∧ Leads mode σ t.print (afterToken tag (tokens ++ [t])) := by
  -- The bracket is read from between the tokens; what was text there is finished by it.
  obtain ⟨tag, htag, hbracket⟩ := h.bracket_leads mode
  cases t with
  | chars text span => cases hchars
  | startTag name attributes selfClosing span =>
    simp only [isPrintable, Bool.and_eq_true] at ht
    obtain ⟨⟨hname, hordinary⟩, hattributes⟩ := ht
    rw [isTagName, Bool.and_eq_true] at hname
    have hspelled : Leads mode (afterBracket .tagOpen tag tokens) name.toList
        (inStartTag .tagName tokens [] name) :=
      .word (inStartTag .tagName tokens []) startTag_leads tagName_leads hname.1 hname.2
    obtain ⟨s, hs, hparts⟩ := attributes_leads (.inl rfl) [] hattributes
    exact ⟨name, hordinary,
      hbracket.cons (hspelled.trans (hparts.trans (closeStartTag_leads hs selfClosing)))⟩
  | endTag name span =>
    rw [isPrintable, isTagName, Bool.and_eq_true] at ht
    have hslash : Leads mode (afterBracket .tagOpen tag tokens) ['/']
        (afterBracket .endTagOpen tag tokens) :=
      .of_take fun tagStart offset rest => ⟨rfl, rfl, rfl, rfl, rfl, rfl⟩
    have hspelled : Leads mode (afterBracket .endTagOpen tag tokens) name.toList
        (inEndTag tokens name) :=
      .word (inEndTag tokens) endTag_leads endTagName_leads ht.1 ht.2
    have hclose : Leads mode (inEndTag tokens name) ['>']
        (afterToken "" (tokens ++ [Token.endTag name span])) :=
      .of_take fun tagStart offset rest => ⟨rfl, rfl, rfl, rfl, rfl, Collector.unplaced_add rfl⟩
    exact ⟨"", by decide +kernel, hbracket.cons (hslash.cons (hspelled.trans hclose))⟩
  | comment text span =>
    have hmark : Leads mode (afterBracket .tagOpen tag tokens) ['!']
        (afterBracket .markupDeclarationOpen tag tokens) :=
      .of_take fun tagStart offset rest => ⟨rfl, rfl, rfl, rfl, rfl, rfl⟩
    have hopen : Leads mode (afterBracket .markupDeclarationOpen tag tokens) ['-', '-']
        (inComment .commentStart tag tokens "") :=
      .of_take fun tagStart offset rest => ⟨rfl, rfl, rfl, rfl, rfl, rfl⟩
    have htext : Leads mode (inComment .commentStart tag tokens "")
        (text.toList ++ ['-', '-', '>'])
        (afterToken tag (tokens ++ [.comment (String.ofList text.toList) span])) :=
      comment_leads ht
    rw [String.ofList_toList] at htext
    exact ⟨tag, htag, hbracket.cons (hmark.cons (hopen.trans htext))⟩

/-- The text of tokens adds them to what is gathered, if no run of text is split
into two. -/
theorem printTokens_leads {σ : Sight} (h : Between tokens σ) {ts : List Token}
    (hprintable : ∀ t ∈ ts, t.isPrintable mode = true)
    (hapart : ts.IsChain fun a b => ¬(a.isChars = true ∧ b.isChars = true))
    (hhead : σ.state = .data → ts.head?.any Token.isChars = false) :
    ∃ σ', Between (tokens ++ ts) σ' ∧ Leads mode σ (printTokens ts) σ' := by
  induction ts generalizing tokens σ with
  | nil =>
    rw [List.append_nil]
    exact ⟨σ, h, .refl⟩
  | cons t rest ih =>
    have ht := hprintable t List.mem_cons_self
    rw [← List.singleton_append, ← List.append_assoc]
    cases hchars : t.isChars with
    | false =>
      obtain ⟨tag, htag, hlead⟩ := Token.print_leads h ht hchars
      obtain ⟨σ', hbetween, hrest⟩ := ih (.token htag)
        (fun t hmem => hprintable t (List.mem_cons_of_mem _ hmem)) hapart.tail (by rintro ⟨⟩)
      exact ⟨σ', hbetween, hlead.trans hrest⟩
    | true =>
      cases t with
      | startTag | endTag | comment => cases hchars
      | chars text span =>
        -- Before a run of text no other one is open.
        cases h with
        | text htag => cases hhead rfl
        | token htag =>
          simp only [Token.isPrintable, Bool.and_eq_true, Bool.not_eq_true'] at ht
          have hfirst : text.toList.head?.any (fun _ => true) = true := by
            cases hlist : text.toList <;> simp_all
          have hlead : Leads mode (afterToken _ tokens) text.toList (inText _ tokens span text) :=
            .word (inText _ tokens span) (fun x _ => beginText_leads htag x) text_leads hfirst ht.2
          obtain ⟨σ', hbetween, hrest⟩ := ih (.text htag)
            (fun t hmem => hprintable t (List.mem_cons_of_mem _ hmem)) hapart.tail (by
              intro _
              cases rest with
              | nil => rfl
              | cons next rest => simpa [hchars] using hapart.rel)
          exact ⟨σ', hbetween, hlead.trans hrest⟩

/-- At the end of the text all tokens are complete. -/
theorem Between.gather_nil {σ : Sight} (h : Between tokens σ) {c : Collector}
    (hc : c.unplaced = σ.collector.unplaced) (mode : Mode) (tagStart offset : Nat) :
    (c.gather (σ.machine mode tagStart offset) []).unplaced
      = Collector.unplaced { tokens } := by
  cases h with
  | token htag =>
    rw [Collector.gather, Machine.read]
    exact hc
  | text htag =>
    rw [Collector.gather, Machine.read]
    exact (Collector.unplaced_observeAll hc _).trans (Collector.unplaced_add rfl)

end

/-- Printable tokens, of which no two that follow each other are texts, are read
back from what they are printed as, up to spans and without any problem. -/
theorem tokenize_printTokens (mode : Mode) (ts : List Token)
    (hprintable : ∀ t ∈ ts, t.isPrintable mode = true)
    (hapart : ts.IsChain fun a b => ¬(a.isChars = true ∧ b.isChars = true)) :
    (tokenize mode (printTokens ts)).1.map Token.unplaced = ts.map Token.unplaced ∧
      (tokenize mode (printTokens ts)).2 = [] := by
  have hstart : Between [] (afterToken "" []) := .token (by decide +kernel)
  obtain ⟨σ, hbetween, hlead⟩ := printTokens_leads hstart hprintable hapart (by rintro ⟨⟩)
  obtain ⟨tagStart, offset, c, hc, hgather⟩ := hlead 0 0 {} [] rfl
  rw [List.append_nil] at hgather
  have hend := hbetween.gather_nil hc mode tagStart offset
  rw [← hgather] at hend
  obtain ⟨htokens, -, -, hproblems⟩ := Collector.mk.inj hend
  rw [tokenize_eq]
  exact ⟨htokens, hproblems⟩

/-- A comment, a tag with two attributes around a text that spells a reference,
and a tag that closes itself. -/
def printedTokens : List Token :=
  [.comment "a-b " .dummy,
    .startTag "Foo.bar" [⟨"@x", "<1>", true, .dummy⟩, ⟨"...y", "", true, .dummy⟩] false .dummy,
    .chars "\n1 > &lt;" .dummy,
    .startTag "br" [⟨"class", "a b", true, .dummy⟩] true .dummy,
    .endTag "Foo.bar" .dummy]

theorem tokenize_printTokens_codemod :
    printTokens printedTokens =
      "<!--a-b --><Foo.bar @x=\"<1>\" ...y=\"\">\n1 > &lt;<br class=\"a b\"/></Foo.bar>".toList ∧
      (tokenize .codemod (printTokens printedTokens)).1.map Token.unplaced
        = printedTokens.map Token.unplaced ∧
      (tokenize .codemod (printTokens printedTokens)).2 = [] :=
  ⟨by decide, tokenize_printTokens .codemod printedTokens (by decide +kernel) (by decide)⟩

end TemplateCompiler.Markup
