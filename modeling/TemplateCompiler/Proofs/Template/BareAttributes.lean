/-
Attributes without a value.

In a start tag, a text of blanks and characters of attribute names is read as
attributes without a value, one for each of its words.

* `words` — the words of a text, which blanks separate;
* `Machine.ReadsTo` — a reader comes to a place in its text;
* `Builder.Listing` — a start tag to which attributes without a value were added, with
  what is read of the last word;
* `Listing.char`, `Listing.read` — one character, and a text;
* `Listing.finish` — what is pending joins the tag as soon as the next thing comes.

Whether a word is finished is only seen at what comes next, so the name of the last
attribute is kept apart.  An attribute whose name begins with a bar is refused unless
one named `as` stands before it (`BarsFollowAs`).
-/
import TemplateCompiler.Proofs.Markup.Printing
import TemplateCompiler.Proofs.Template.Tags

namespace TemplateCompiler.Markup.Machine

/-- From a text, a reader tells events and comes to another state, with a rest to read. -/
def ReadsTo (m : Machine) (input : List Char) (events : List Event) (m' : Machine)
    (rest : List Char) : Prop :=
  m.read input = ((m'.read rest).1, events ++ (m'.read rest).2)

variable {m m₁ m₂ : Machine} {input rest rest' : List Char} {events events' : List Event}

theorem ReadsTo.refl : m.ReadsTo input [] m input := rfl

theorem ReadsTo.step (m : Machine) (c : Char) (rest : List Char) :
    m.ReadsTo (c :: rest) (m.step c rest).events (m.step c rest).machine (m.step c rest).rest := by
  rw [ReadsTo, read]

theorem ReadsTo.trans (h : m.ReadsTo input events m₁ rest) (h' : m₁.ReadsTo rest events' m₂ rest') :
    m.ReadsTo input (events ++ events') m₂ rest' := by
  rw [ReadsTo] at *
  rw [h, h', List.append_assoc]

end TemplateCompiler.Markup.Machine

namespace TemplateCompiler.Template

open Markup (Event Machine Reading isSpace isAttributeNameChar)

/-! ### Words -/

/-- A character that separates attributes. -/
def isTagBlank (c : Char) : Bool := isSpace c || c == '\r'

/-- The words of a text when some of the first one is read already. -/
def wordsAfter (word text : List Char) : List (List Char) :=
  ((text.splitOnP isTagBlank).modifyHead (word ++ ·)).filter (· ≠ [])

/-- The words of a text. -/
def words (text : List Char) : List (List Char) := (text.splitOnP isTagBlank).filter (· ≠ [])

theorem wordsAfter_nil_word (text : List Char) : wordsAfter [] text = words text := by
  rw [wordsAfter, words]
  cases text.splitOnP isTagBlank <;> rfl

theorem wordsAfter_nil (word : List Char) : wordsAfter word [] = [word].filter (· ≠ []) := by
  simp [wordsAfter]

theorem wordsAfter_blank {c : Char} (hc : isTagBlank c = true) (word text : List Char) :
    wordsAfter word (c :: text) = wordsAfter word [] ++ words text := by
  rw [wordsAfter, List.splitOnP_cons_eq_if_modifyHead, if_pos hc, wordsAfter_nil, words]
  cases word <;> simp

theorem wordsAfter_char {c : Char} (hc : isTagBlank c = false) (word text : List Char) :
    wordsAfter word (c :: text) = wordsAfter (word ++ [c]) text := by
  rw [wordsAfter, List.splitOnP_cons_eq_if_modifyHead, if_neg (by simp [hc]), wordsAfter]
  simp [Function.comp_def]

theorem words_blank {c : Char} (hc : isTagBlank c = true) (text : List Char) :
    words (c :: text) = words text := by
  rw [← wordsAfter_nil_word, wordsAfter_blank hc, wordsAfter_nil]
  rfl

theorem words_char {c : Char} (hc : isTagBlank c = false) (text : List Char) :
    words (c :: text) = wordsAfter [c] text := by
  rw [← wordsAfter_nil_word, wordsAfter_char hc, List.nil_append]

/-! ### Attributes that join a start tag -/

/-- An attribute without a value. -/
def Attr.IsBare (a : Attr) : Prop := ∃ span, a.value = .text ⟨"", span⟩

/-- Every name that begins with a bar stands behind an `as`. -/
def BarsFollowAs (names : List String) : Prop :=
  ∀ before name after, names = before ++ name :: after → startsWithBar name = true →
    "as" ∈ before

theorem BarsFollowAs.left {a b : List String} (h : BarsFollowAs (a ++ b)) : BarsFollowAs a := by
  rintro before name after rfl
  exact h before name (after ++ b) (by simp)

/-- The names of the attributes of a start tag. -/
def StartTag.attrNames (tag : StartTag) : List String := tag.attributes.map (·.name)

/-- A start tag with more attributes. -/
def StartTag.add (tag : StartTag) (more : List Attr) : StartTag :=
  { tag with attributes := tag.attributes ++ more }

theorem StartTag.add_add (tag : StartTag) (more others : List Attr) :
    (tag.add more).add others = tag.add (more ++ others) := by
  simp only [StartTag.add, List.append_assoc]

theorem StartTag.attrNames_add (tag : StartTag) (more : List Attr) :
    (tag.add more).attrNames = tag.attrNames ++ more.map (·.name) :=
  List.map_append

namespace Builder

variable {source : Source} {tag : StartTag} {start : Nat} {m : Machine} {b : Builder}
  {names : List String} {word : List Char}

/-- A builder that is reading attributes without a value, with a reader.  They have been
added to the tag, but for the last one, whose name may go on. -/
inductive Listing (tag : StartTag) (start : Nat) (m : Machine) (b : Builder) :
    List String → List Char → Prop
  /-- Before a name, when nothing is pending. -/
  | between {more : List Attr} (hmore : ∀ a ∈ more, a.IsBare)
    (htag : b.tag = some (.opening (tag.add more) start)) (hattr : b.attr = none)
    (hstate : m.state = .beforeAttributeName) :
    Listing tag start m b (more.map (·.name)) []
  /-- Behind a name and a blank. -/
  | after {more : List Attr} {a : PendingAttr} (hmore : ∀ a ∈ more, a.IsBare)
    (htag : b.tag = some (.opening (tag.add more) start)) (hattr : b.attr = some a)
    (hparts : a.parts = []) (hstatic : a.dynamic = false)
    (hstate : m.state = .afterAttributeName) :
    Listing tag start m b (more.map (·.name) ++ [a.name]) []
  /-- In a name. -/
  | within {more : List Attr} {a : PendingAttr} (hmore : ∀ a ∈ more, a.IsBare)
    (htag : b.tag = some (.opening (tag.add more) start)) (hattr : b.attr = some a)
    (hparts : a.parts = []) (hstatic : a.dynamic = false) (hname : a.name.toList ≠ [])
    (hstate : m.state = .attributeName) :
    Listing tag start m b (more.map (·.name)) a.name.toList

/-- The names that are read, the last word included. -/
def listed (names : List String) (word : List Char) : List String :=
  names ++ ([word].filter (· ≠ [])).map String.ofList

/-- A name without a value joins the tag. -/
theorem finishAttr_bare {t : StartTag} {a : PendingAttr} (htag : b.tag = some (.opening t start))
    (hattr : b.attr = some a) (hparts : a.parts = []) (hstatic : a.dynamic = false)
    (htext : a.text = none)
    (hbar : startsWithBar a.name = true → "as" ∈ t.attrNames) (pos : Nat) :
    ∃ attr : Attr, attr.IsBare ∧ attr.name = a.name ∧
      b.finishAttr pos =
        .ok { b with attr := none, tag := some (.opening (t.add [attr]) start) } := by
  refine ⟨⟨a.name, .text ⟨"", ⟨a.valueStart, pos⟩⟩, ⟨a.start, pos⟩⟩, ⟨_, rfl⟩, rfl, ?_⟩
  have hrefused : (startsWithBar a.name && !t.attributes.any (·.name == "as")) = false := by
    cases hstarts : startsWithBar a.name with
    | false => rfl
    | true =>
      obtain ⟨attr, hmem, hname⟩ := List.mem_map.mp (hbar hstarts)
      have hany : t.attributes.any (·.name == "as") = true :=
        List.any_eq_true.mpr ⟨attr, hmem, by simp [hname]⟩
      simp [hany]
  have hfinish : ∀ stop, a.finishText stop = a := fun stop => by
    simp only [PendingAttr.finishText, htext]
  simp only [finishAttr, hattr, hfinish, htag]
  rw [if_neg (by simp only [Bool.and_assoc, hrefused, Bool.and_false, Bool.false_eq_true,
    not_false_eq_true])]
  simp only [attrValue, hstatic, hparts]
  rfl

/-- So does the name before the next thing. -/
theorem finishBare {t : StartTag} {a : PendingAttr}
    (htag : b.tag = some (.opening t start)) (hattr : b.attr = some a) (hparts : a.parts = [])
    (hstatic : a.dynamic = false)
    (hbar : startsWithBar a.name = true → "as" ∈ t.attrNames) (pos : Nat) :
    ∃ attr : Attr, attr.IsBare ∧ attr.name = a.name ∧
      observeAll source b [.beginAttributeValue false pos, .finishAttributeValue pos] =
        .ok { b with attr := none, tag := some (.opening (t.add [attr]) start) } := by
  let a' : PendingAttr := { a with quoted := false, text := none, valueStart := pos }
  obtain ⟨attr, hbare, hname, hfinish⟩ := finishAttr_bare (b := { b with attr := some a' })
    (a := a') htag rfl hparts hstatic rfl hbar pos
  refine ⟨attr, hbare, hname, ?_⟩
  rw [observeAll_cons]
  refine ⟨{ b with attr := some a' }, by simp only [observe, hattr, Option.map_some, a'], ?_⟩
  rw [observeAll_cons]
  exact ⟨_, hfinish, rfl⟩

/-! ### Reading -/

theorem listed_nil (names : List String) : listed names [] = names := by
  simp [listed]

theorem listed_toList (names : List String) {name : String} (h : name.toList ≠ []) :
    listed names name.toList = names ++ [name] := by
  simp [listed, h]

/-- A blank, with the line feed that a carriage return swallows, is read as a space. -/
theorem isSpace_reading {c : Char} (hc : isTagBlank c = true) (rest : List Char) :
    isSpace (Reading.of c rest).char = true := by
  unfold Reading.of
  split
  · split <;> rfl
  · next hreturn => simpa [isTagBlank, hreturn] using hc

/-- A blank ends the word that is being read. -/
theorem Listing.blank {c : Char} (h : Listing tag start m b names word)
    (hc : isTagBlank c = true) (rest : List Char) :
    ∃ m', m.ReadsTo (c :: rest) [] m' (Reading.of c rest).rest ∧
      Listing tag start m' b (listed names word) [] := by
  have hspace := isSpace_reading hc rest
  have hread := Machine.ReadsTo.step m c rest
  cases h with
  | between hmore htag hattr hstate =>
    simp only [Machine.step, hstate, Machine.stepBeforeAttributeName, hspace, if_true,
      Machine.take] at hread
    rw [listed_nil]
    exact ⟨_, hread, .between hmore htag hattr rfl⟩
  | after hmore htag hattr hparts hstatic hstate =>
    simp only [Machine.step, hstate, Machine.stepAfterAttributeName, hspace, if_true,
      Machine.take] at hread
    rw [listed_nil]
    exact ⟨_, hread, .after hmore htag hattr hparts hstatic rfl⟩
  | within hmore htag hattr hparts hstatic hname hstate =>
    simp only [Machine.step, hstate, Machine.stepAttributeName, hspace, if_true,
      Machine.take] at hread
    rw [listed_toList _ hname]
    exact ⟨_, hread, .after hmore htag hattr hparts hstatic rfl⟩

/-- In the name of an attribute, a character of names is read as itself. -/
theorem reads_nameChar {c : Char} (hc : isAttributeNameChar c = true)
    (hstate : m.state = .attributeName) (rest : List Char) :
    ∃ m', m.ReadsTo (c :: rest) [.attributeName c] m' rest ∧ m'.state = .attributeName := by
  obtain ⟨htagChar, hequals, hquotes⟩ := Markup.isAttributeNameChar_iff.mp hc
  obtain ⟨hspace, hreturn, hslash, hclose⟩ := Markup.isTagNameChar_iff.mp htagChar
  have hread := Machine.ReadsTo.step m c rest
  simp only [Machine.step, hstate, Machine.stepAttributeName, Markup.Reading.of_ne hreturn, hspace,
    hslash, hequals, hclose, hquotes, if_false, Bool.false_eq_true, Machine.take] at hread
  exact ⟨_, hread, rfl⟩

/-- The first character of a name begins an attribute. -/
theorem Listing.begin (source : Source) (m' : Machine) {more : List Attr}
    (hmore : ∀ a ∈ more, a.IsBare) (htag : b.tag = some (.opening (tag.add more) start))
    (hstate : m'.state = .attributeName) (c : Char) (pos : Nat) :
    ∃ b', observeAll source b [.beginAttribute pos, .attributeName c] = .ok b' ∧
      Listing tag start m' b' (more.map (·.name)) [c] := by
  let a : PendingAttr := { name := "".push c, start := pos, valueStart := pos }
  have hname : a.name.toList = [c] := String.toList_push c
  refine ⟨{ b with attr := some a }, rfl, ?_⟩
  rw [← hname]
  exact .within hmore htag rfl rfl rfl (by simp [hname]) hstate

/-- A character of names goes on with the last word, or begins a word of its own. -/
theorem Listing.char (source : Source) {c : Char} (h : Listing tag start m b names word)
    (hc : isAttributeNameChar c = true) (hbars : BarsFollowAs (tag.attrNames ++ names))
    (rest : List Char) :
    ∃ events m' b', m.ReadsTo (c :: rest) events m' rest ∧
      observeAll source b events = .ok b' ∧ Listing tag start m' b' names (word ++ [c]) := by
  obtain ⟨htagChar, hequals, hquotes⟩ := Markup.isAttributeNameChar_iff.mp hc
  obtain ⟨hspace, hreturn, hslash, hclose⟩ := Markup.isTagNameChar_iff.mp htagChar
  have hread := Machine.ReadsTo.step m c rest
  cases h with
  | between hmore htag hattr hstate =>
    -- The reader first goes to the name, and there reads the character.
    simp only [Machine.step, hstate, Machine.stepBeforeAttributeName, Markup.Reading.of_ne hreturn,
      hspace, hslash, hequals, hclose, if_false, Bool.false_eq_true, Machine.hand] at hread
    obtain ⟨m', hread', hstate'⟩ := reads_nameChar
      (m := { m with state := .attributeName }) hc rfl rest
    obtain ⟨b', hrun, hlisting⟩ := Listing.begin source m' hmore htag hstate' c m.pos
    exact ⟨_, m', b', hread.trans hread', hrun, hlisting⟩
  | @after more a hmore htag hattr hparts hstatic hstate =>
    simp only [Machine.step, hstate, Machine.stepAfterAttributeName, Markup.Reading.of_ne hreturn,
      hspace, hslash, hequals, hclose, if_false, Bool.false_eq_true, Machine.take] at hread
    have hbar : startsWithBar a.name = true → "as" ∈ (tag.add more).attrNames := by
      rw [StartTag.attrNames_add]
      exact hbars _ a.name [] (by simp)
    obtain ⟨attr, hbare, hname, hfinish⟩ := finishBare htag hattr hparts hstatic hbar m.pos
    have hmore' : ∀ a ∈ more ++ [attr], a.IsBare :=
      List.forall_mem_append.mpr ⟨hmore, List.forall_mem_singleton.mpr hbare⟩
    obtain ⟨b', hrun, hlisting⟩ := Listing.begin source
      { m with state := .attributeName, offset := m.offset + c.utf8Size } hmore'
      (b := { b with attr := none, tag := some (.opening ((tag.add more).add [attr]) start) })
      (by rw [StartTag.add_add]) rfl c m.pos
    refine ⟨_, _, b', hread, observeAll_append.mpr ⟨_, hfinish, hrun⟩, ?_⟩
    simpa [hname] using hlisting
  | @within more a hmore htag hattr hparts hstatic hname hstate =>
    obtain ⟨m', hread, hstate'⟩ := reads_nameChar hc hstate rest
    let a' : PendingAttr := { a with name := a.name.push c }
    have hpush : a'.name.toList = a.name.toList ++ [c] := String.toList_push c
    refine ⟨_, m', { b with attr := some a' }, hread, ?_, ?_⟩
    · rw [observeAll_cons]
      exact ⟨_, by simp only [observe, hattr, Option.map_some, a'], rfl⟩
    · rw [← hpush]
      exact .within hmore htag rfl hparts hstatic (by simp [hpush]) hstate'

/-- Behind the first character of a text that does not end with a carriage return, only a
line feed can be swallowed. -/
theorem reading_rest {c : Char} {text : List Char} (hlast : (c :: text).getLast? ≠ some '\r')
    (rest : List Char) :
    ∃ text', (Reading.of c (text ++ rest)).rest = text' ++ rest ∧ text' <:+ text ∧
      words text' = words text := by
  by_cases hreturn : c = '\r'
  · subst hreturn
    match text with
    | [] => simp at hlast
    | x :: text' =>
      by_cases hx : x = '\n'
      · subst hx
        exact ⟨text', rfl, List.suffix_cons _ _, (words_blank rfl text').symm⟩
      · refine ⟨x :: text', ?_, List.suffix_refl _, rfl⟩
        unfold Reading.of
        simp [hx]
  · rw [Markup.Reading.of_ne hreturn]
    exact ⟨text, rfl, List.suffix_refl _, rfl⟩

theorem getLast?_ne_of_suffix {c x : Char} {text text' : List Char}
    (hlast : (c :: text).getLast? ≠ some x) (h : text' <:+ text) : text'.getLast? ≠ some x := by
  intro hx
  obtain ⟨before, rfl⟩ := h
  refine hlast ?_
  rw [← List.cons_append, List.getLast?_append, hx]
  rfl

theorem listed_append_words {c : Char} (hc : isTagBlank c = true) (names : List String)
    (word text : List Char) :
    listed names word ++ (words text).map String.ofList =
      names ++ (wordsAfter word (c :: text)).map String.ofList := by
  rw [listed, wordsAfter_blank hc, wordsAfter_nil, List.map_append, List.append_assoc]

/-- A text of blanks and characters of names is read as attributes without a value, one
for each of its words. -/
theorem Listing.read (source : Source) {m : Machine} {b : Builder} {names : List String}
    {word text : List Char} (h : Listing tag start m b names word)
    (hchars : ∀ c ∈ text, isTagBlank c = true ∨ isAttributeNameChar c = true)
    (hlast : text.getLast? ≠ some '\r')
    (hbars : BarsFollowAs (tag.attrNames ++ (names ++ (wordsAfter word text).map String.ofList)))
    (rest : List Char) :
    ∃ events m' b' names' word', m.ReadsTo (text ++ rest) events m' rest ∧
      observeAll source b events = .ok b' ∧ Listing tag start m' b' names' word' ∧
      listed names' word' = names ++ (wordsAfter word text).map String.ofList := by
  induction hlength : text.length using Nat.strong_induction_on
    generalizing m b names word text with
  | _ length ih =>
  subst hlength
  match text with
  | [] => exact ⟨[], m, b, names, word, .refl, rfl, h, by rw [listed, wordsAfter_nil]⟩
  | c :: text =>
    -- A blank ends the word, and may be two characters of the text; anything else goes on with it.
    by_cases hc : isTagBlank c = true
    · obtain ⟨m₁, hread₁, h₁⟩ := h.blank hc (text ++ rest)
      obtain ⟨text', hrest, hsuffix, hwords⟩ := reading_rest hlast rest
      have hlisted : listed names word ++ (wordsAfter [] text').map String.ofList =
          names ++ (wordsAfter word (c :: text)).map String.ofList := by
        rw [wordsAfter_nil_word, hwords, listed_append_words hc]
      obtain ⟨events, m', b', names', word', hread, hrun, h', hall⟩ :=
        ih text'.length (Nat.lt_succ_of_le hsuffix.length_le) h₁
          (fun x hx => hchars x (List.mem_cons_of_mem _ (hsuffix.mem hx)))
          (getLast?_ne_of_suffix hlast hsuffix) (by rwa [hlisted]) rfl
      rw [hrest] at hread₁
      exact ⟨_, m', b', names', word', hread₁.trans hread, hrun, h', hall.trans hlisted⟩
    · rw [Bool.not_eq_true] at hc
      have hname := (hchars c List.mem_cons_self).resolve_left (by simp [hc])
      rw [wordsAfter_char hc] at hbars ⊢
      obtain ⟨events₁, m₁, b₁, hread₁, hrun₁, h₁⟩ :=
        h.char source hname (List.append_assoc _ _ _ ▸ hbars).left (text ++ rest)
      obtain ⟨events, m', b', names', word', hread, hrun, h', hall⟩ :=
        ih text.length (Nat.lt_succ_self _) h₁ (fun x hx => hchars x (List.mem_cons_of_mem _ hx))
          (getLast?_ne_of_suffix hlast (List.suffix_refl _)) hbars rfl
      exact ⟨_, m', b', names', word', hread₁.trans hread,
        observeAll_append.mpr ⟨b₁, hrun₁, hrun⟩, h', hall⟩

/-- Before the next thing the last name joins the tag. -/
theorem Listing.finish (source : Source) (h : Listing tag start m b names word)
    (hbars : BarsFollowAs (tag.attrNames ++ listed names word)) (pos : Nat) :
    ∃ more b', (∀ a ∈ more, a.IsBare) ∧ more.map (·.name) = listed names word ∧
      observeAll source b [.beginAttributeValue false pos, .finishAttributeValue pos] = .ok b' ∧
      b'.tag = some (.opening (tag.add more) start) ∧ b'.attr = none := by
  -- A name that is pending is the last one.
  have hlast : ∀ {more : List Attr} {a : PendingAttr}, (∀ a ∈ more, a.IsBare) →
      b.tag = some (.opening (tag.add more) start) → b.attr = some a → a.parts = [] →
      a.dynamic = false → listed names word = more.map (·.name) ++ [a.name] →
      ∃ more b', (∀ a ∈ more, a.IsBare) ∧ more.map (·.name) = listed names word ∧
        observeAll source b [.beginAttributeValue false pos, .finishAttributeValue pos] = .ok b' ∧
        b'.tag = some (.opening (tag.add more) start) ∧ b'.attr = none := by
    intro more a hmore htag hattr hparts hstatic hlisted
    have hbar : startsWithBar a.name = true → "as" ∈ (tag.add more).attrNames := by
      rw [StartTag.attrNames_add]
      exact hbars _ a.name [] (by rw [hlisted, List.append_assoc])
    obtain ⟨attr, hbare, hname, hfinish⟩ := finishBare htag hattr hparts hstatic hbar pos
    refine ⟨more ++ [attr], _, ?_, ?_, hfinish, by rw [StartTag.add_add], rfl⟩
    · exact List.forall_mem_append.mpr ⟨hmore, List.forall_mem_singleton.mpr hbare⟩
    · rw [hlisted, List.map_append, List.map_singleton, hname]
  cases h with
  | between hmore htag hattr hstate =>
    refine ⟨_, { b with attr := none }, hmore, (listed_nil _).symm, ?_, htag, rfl⟩
    simp only [observeAll, List.foldlM_cons, List.foldlM_nil, observe, hattr, Option.map_none]
    rfl
  | after hmore htag hattr hparts hstatic hstate =>
    exact hlast hmore htag hattr hparts hstatic (listed_nil _)
  | within hmore htag hattr hparts hstatic hname hstate =>
    exact hlast hmore htag hattr hparts hstatic (listed_toList _ hname)

end Builder

end TemplateCompiler.Template
