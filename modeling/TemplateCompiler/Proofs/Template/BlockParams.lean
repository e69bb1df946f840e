/-
Block parameters of elements.

In a start tag, `as |a b|` declares the names between the bars.  The reader knows nothing
of this: it reads attributes without a value, one for each word, and at the end of the
tag they are taken out again.

* `Declares` — a text that has names between bars;
* `SpellsBlockParams` — attributes as they are read of `as` and such a text;
* `Listing.reads_blockParams` — the text is read as such attributes;
* `extractBlockParams_declared` — at the end of a tag they declare their names, unless an
  attribute before them is named `as`;
* `startTag_blockParams` — from the text to the element in the tree.

Blanks between the bars may fall anywhere between names, so that a bar is a word of its
own or part of the word of a name; only the words without their bars matter.  The search
for `as` takes the first attribute of this name.
-/
import TemplateCompiler.Proofs.Template.BareAttributes
import TemplateCompiler.Proofs.Template.Elements

namespace TemplateCompiler.Template

open Markup (Machine isAttributeNameChar)
open Mustache (isReserved)

/-! ### Words and their characters -/

theorem flatten_wordsAfter (word text : List Char) :
    (wordsAfter word text).flatten = word ++ text.filter (!isTagBlank ·) := by
  induction text generalizing word with
  | nil =>
    rw [wordsAfter_nil]
    cases word <;> simp
  | cons c text ih =>
    by_cases hc : isTagBlank c = true
    · have hfilter : (c :: text).filter (!isTagBlank ·) = text.filter (!isTagBlank ·) :=
        List.filter_cons_of_neg (by simp [hc])
      rw [wordsAfter_blank hc, List.flatten_append, ← wordsAfter_nil_word, ih, wordsAfter_nil,
        hfilter]
      cases word <;> simp
    · rw [Bool.not_eq_true] at hc
      rw [wordsAfter_char hc, ih, List.filter_cons_of_pos (by simp [hc]), List.append_assoc]
      rfl

/-- Together the words have all characters but the blanks. -/
theorem flatten_words (text : List Char) : (words text).flatten = text.filter (!isTagBlank ·) := by
  rw [← wordsAfter_nil_word, flatten_wordsAfter, List.nil_append]

/-- Characters that are dropped from the words might as well be dropped from the text. -/
theorem wordsAfter_filter {keeps : Char → Bool} (hblank : ∀ c, isTagBlank c = true → keeps c = true)
    (word text : List Char) :
    ((wordsAfter word text).map (List.filter keeps)).filter (· ≠ []) =
      wordsAfter (word.filter keeps) (text.filter keeps) := by
  induction text generalizing word with
  | nil =>
    rw [wordsAfter_nil, List.filter_nil, wordsAfter_nil]
    cases word <;> simp
  | cons c text ih =>
    by_cases hc : isTagBlank c = true
    · rw [wordsAfter_blank hc, List.filter_cons_of_pos (hblank c hc), wordsAfter_blank hc,
        List.map_append, List.filter_append, ← wordsAfter_nil_word, ih, List.filter_nil,
        wordsAfter_nil_word, wordsAfter_nil, wordsAfter_nil]
      cases word <;> simp
    · rw [Bool.not_eq_true] at hc
      rw [wordsAfter_char hc, ih, List.filter_append]
      cases hkeeps : keeps c with
      | true =>
        rw [List.filter_cons_of_pos hkeeps, List.filter_cons_of_pos hkeeps, wordsAfter_char hc,
          List.filter_nil]
      | false => simp [hkeeps]

theorem words_filter {keeps : Char → Bool} (hblank : ∀ c, isTagBlank c = true → keeps c = true)
    (text : List Char) :
    ((words text).map (List.filter keeps)).filter (· ≠ []) = words (text.filter keeps) := by
  rw [← wordsAfter_nil_word, wordsAfter_filter hblank, List.filter_nil, wordsAfter_nil_word]

/-- A word that is begun is the first one. -/
theorem wordsAfter_cons (c : Char) (word text : List Char) :
    ∃ more rest, wordsAfter (c :: word) text = (c :: more) :: rest := by
  rw [wordsAfter]
  cases hsplit : text.splitOnP isTagBlank with
  | nil => exact absurd hsplit (List.splitOnP_ne_nil _ _)
  | cons first rest => exact ⟨word ++ first, rest.filter (· ≠ []), by simp⟩

theorem ne_nil_of_mem_words {word text : List Char} (h : word ∈ words text) : word ≠ [] := by
  simpa using (List.mem_filter.mp h).2

theorem mem_words_of_mem {c : Char} {text : List Char} (hmem : c ∈ text)
    (hc : isTagBlank c = false) : ∃ word ∈ words text, c ∈ word := by
  have hflatten : c ∈ (words text).flatten := by
    rw [flatten_words]
    exact List.mem_filter.mpr ⟨hmem, by simp [hc]⟩
  exact List.mem_flatten.mp hflatten

/-! ### Joined words -/

theorem count_intercalate {c : Char} {mark : List Char} (hmark : c ∉ mark)
    (pieces : List (List Char)) : (mark.intercalate pieces).count c = pieces.flatten.count c := by
  induction pieces with
  | nil => rfl
  | cons first rest ih =>
    cases rest with
    | nil => simp [List.intercalate]
    | cons second rest =>
      have hnone : mark.count c = 0 := List.count_eq_zero_of_not_mem hmark
      have hflatten : (first :: second :: rest).flatten = first ++ (second :: rest).flatten := rfl
      rw [List.intercalate_cons_cons, List.count_append, List.count_append, ih, hnone, hflatten,
        List.count_append, Nat.add_zero]

theorem getLast?_intercalate {mark : List Char} {pieces : List (List Char)}
    (hpieces : ∀ piece ∈ pieces, piece ≠ []) :
    (mark.intercalate pieces).getLast? = pieces.flatten.getLast? := by
  induction pieces with
  | nil => rfl
  | cons first rest ih =>
    cases rest with
    | nil => simp [List.intercalate]
    | cons second rest =>
      have hrest := ih fun piece h => hpieces piece (List.mem_cons_of_mem _ h)
      have hne : (second :: rest).flatten ≠ [] := by
        simp [hpieces second (by simp)]
      have hflatten : (first :: second :: rest).flatten = first ++ (second :: rest).flatten := rfl
      rw [List.intercalate_cons_cons, hflatten]
      simp only [List.getLast?_append, hrest, List.getLast?_eq_some_getLast hne, Option.some_or]

/-! ### Names between bars -/

/-- A text that declares names: they stand between bars, with blanks between them. -/
structure Declares (names : List String) (text : List Char) : Prop where
  between : ∃ inner, text = '|' :: (inner ++ ['|']) ∧ words inner = names.map String.toList
  some_name : names ≠ []
  unreserved : ∀ name ∈ names, ∀ c ∈ name.toList, isReserved c = false

namespace Declares

variable {names : List String} {text : List Char}

/-- Between the bars there are blanks and characters of names. -/
theorem inner_char (h : Declares names text) {inner : List Char}
    (hwords : words inner = names.map String.toList) {c : Char} (hc : c ∈ inner) :
    isTagBlank c = true ∨ isReserved c = false := by
  by_cases hblank : isTagBlank c = true
  · exact .inl hblank
  · obtain ⟨word, hword, hmem⟩ := mem_words_of_mem hc (by simpa using hblank)
    rw [hwords] at hword
    obtain ⟨name, hname, rfl⟩ := List.mem_map.mp hword
    exact .inr (h.unreserved name hname c hmem)

theorem bar_not_mem (h : Declares names text) {inner : List Char}
    (hwords : words inner = names.map String.toList) : '|' ∉ inner := by
  intro hbar
  rcases h.inner_char hwords hbar with hbar | hbar <;> exact absurd hbar (by decide)

/-- A character of names is read as such. -/
theorem isAttributeNameChar_of_not_isReserved {c : Char} (hblank : isTagBlank c = false)
    (hc : isReserved c = false) : isAttributeNameChar c = true := by
  have hne : ∀ d, isReserved d = true → c ≠ d := by
    rintro d hd rfl
    rw [hc] at hd
    cases hd
  simp only [isTagBlank, Bool.or_eq_false_iff, beq_eq_false_iff_ne] at hblank
  refine Markup.isAttributeNameChar_iff.mpr ⟨Markup.isTagNameChar_iff.mpr ?_, ?_, ?_⟩
  · exact ⟨hblank.1, hblank.2, hne _ (by decide), hne _ (by decide)⟩
  · exact hne _ (by decide)
  · rintro (h | h | h) <;> exact hne _ (by decide) h

theorem text_char (h : Declares names text) {c : Char} (hc : c ∈ text) :
    isTagBlank c = true ∨ isAttributeNameChar c = true := by
  obtain ⟨inner, rfl, hwords⟩ := h.between
  have hbar : isAttributeNameChar '|' = true := by decide
  rcases List.mem_cons.mp hc with rfl | hc
  · exact .inr hbar
  rcases List.mem_append.mp hc with hc | hc
  · by_cases hblank : isTagBlank c = true
    · exact .inl hblank
    · have hreserved := (h.inner_char hwords hc).resolve_left hblank
      exact .inr (isAttributeNameChar_of_not_isReserved (by simpa using hblank) hreserved)
  · exact .inr (List.mem_singleton.mp hc ▸ hbar)

/-- The first word begins with a bar. -/
theorem words_head (h : Declares names text) :
    ∃ word rest, words text = ('|' :: word) :: rest := by
  obtain ⟨inner, rfl, -⟩ := h.between
  rw [words_char (by decide)]
  exact wordsAfter_cons '|' [] _

/-- Without their bars the words are the names. -/
theorem words_names (h : Declares names text) :
    ((words text).map (List.filter (· ≠ '|'))).filter (· ≠ []) = names.map String.toList := by
  obtain ⟨inner, rfl, hwords⟩ := h.between
  have hinner : inner.filter (· ≠ '|') = inner :=
    List.filter_eq_self.mpr fun c hc => by
      rw [decide_eq_true_eq]
      rintro rfl
      exact h.bar_not_mem hwords hc
  have hfilter : ('|' :: (inner ++ ['|'])).filter (· ≠ '|') = inner := by
    rw [List.filter_cons_of_neg (by decide), List.filter_append, hinner,
      List.filter_cons_of_neg (by decide), List.filter_nil, List.append_nil]
  rw [words_filter, hfilter, hwords]
  intro c hc
  rw [decide_eq_true_eq]
  rintro rfl
  exact absurd hc (by decide)

/-- The words, joined by blanks behind `as`, have two bars, and end with one. -/
theorem written_bars (h : Declares names text) :
    (String.intercalate " " ("as" :: (words text).map String.ofList)).toList.getLast? = some '|' ∧
      (String.intercalate " " ("as" :: (words text).map String.ofList)).toList.count '|' = 2 := by
  obtain ⟨inner, rfl, hwords⟩ := h.between
  have hwritten : (String.intercalate " " ("as" :: (words ('|' :: (inner ++ ['|']))).map
      String.ofList)).toList =
        List.intercalate [' '] (['a', 's'] :: words ('|' :: (inner ++ ['|']))) := by
    rw [String.toList_intercalate, List.map_cons, List.map_map]
    simp only [Function.comp_def, String.toList_ofList, List.map_id']
    rfl
  have hflatten : (words ('|' :: (inner ++ ['|']))).flatten =
      '|' :: (inner.filter (!isTagBlank ·) ++ ['|']) := by
    rw [flatten_words, List.filter_cons_of_pos (by decide), List.filter_append]
    rfl
  have hnone : (inner.filter (!isTagBlank ·)).count '|' = 0 :=
    List.count_eq_zero_of_not_mem fun hmem => h.bar_not_mem hwords (List.mem_of_mem_filter hmem)
  rw [hwritten, getLast?_intercalate, count_intercalate (by decide), List.flatten_cons, hflatten]
  · constructor
    · rw [← List.cons_append, ← List.append_assoc, List.getLast?_concat]
    · simp [hnone]
  · intro piece hpiece
    rcases List.mem_cons.mp hpiece with rfl | hpiece
    · simp
    · exact ne_nil_of_mem_words hpiece

end Declares

/-! ### Taking out the attributes -/

/-- The parameters of words are the words without their bars, but for bars that stand
alone. -/
theorem blockParamNames_eq {params : List String} (pieces : List (List Char))
    (hpieces : (pieces.map (List.filter (· ≠ '|'))).filter (· ≠ []) = params.map String.toList)
    (hparams : ∀ name ∈ params, ∀ c ∈ name.toList, isReserved c = false) :
    blockParamNames (pieces.map String.ofList) = .ok params := by
  induction pieces generalizing params with
  | nil =>
    cases params with
    | nil => rfl
    | cons => cases hpieces
  | cons piece rest ih =>
    rw [List.map_cons, blockParamNames, String.toList_ofList]
    rw [List.map_cons] at hpieces
    generalize piece.filter (· ≠ '|') = param at hpieces ⊢
    -- A bar that stands alone is no parameter.
    cases param with
    | nil => exact ih hpieces hparams
    | cons c param =>
      rw [List.filter_cons_of_pos (by simp)] at hpieces
      cases params with
      | nil => cases hpieces
      | cons name params =>
        obtain ⟨hname, hrest⟩ := List.cons.inj hpieces
        obtain ⟨hfirst, hothers⟩ := List.forall_mem_cons.mp hparams
        have hunreserved : (c :: param).any isReserved = false := by
          rw [hname]
          exact List.any_eq_false.mpr fun x hx => by simp [hfirst x hx]
        simp only [List.isEmpty_cons, Bool.false_eq_true, if_false, hunreserved, ih hrest hothers]
        rw [hname, String.ofList_toList]
        rfl

/-- Attributes as they are read of `as` and a text that declares names. -/
def SpellsBlockParams (names : List String) (declared : List Attr) : Prop :=
  ∃ text, Declares names text ∧
    declared.map (·.name) = "as" :: (words text).map String.ofList

theorem startsWithBar_eq_false {name : String} (h : '|' ∉ name.toList) :
    startsWithBar name = false := by
  rw [startsWithBar, beq_eq_false_iff_ne]
  intro hhead
  exact h (List.mem_of_mem_head? hhead)

/-- The search for `as` divides the names at the first one. -/
theorem search_as {before rest : List String} (h : "as" ∉ before) :
    (before ++ "as" :: rest).takeWhile (· ≠ "as") = before ∧
      (before ++ "as" :: rest).dropWhile (· ≠ "as") = "as" :: rest := by
  have hbefore : ∀ name ∈ before, decide (name ≠ "as") = true := by
    intro name hname
    rw [decide_eq_true_eq]
    rintro rfl
    exact h hname
  constructor
  · rw [List.takeWhile_append_of_pos hbefore, List.takeWhile_cons_of_neg (by decide),
      List.append_nil]
  · rw [List.dropWhile_append_of_pos hbefore, List.dropWhile_cons_of_neg (by decide)]

/-- Attributes at the end of a tag that spell block parameters are taken out, and declare
their names, unless there is an attribute named `as` before them. -/
theorem extractBlockParams_declared {tag : StartTag} {before declared : List Attr}
    {names : List String} (hattributes : tag.attributes = before ++ declared)
    (hbars : ∀ a ∈ before, '|' ∉ a.name.toList) (hspells : SpellsBlockParams names declared) :
    extractBlockParams tag =
      .ok (if "as" ∈ before.map (·.name) then tag
        else { tag with attributes := before, blockParams := names }) := by
  obtain ⟨text, hdeclares, hdeclared⟩ := hspells
  have hnames : tag.attributes.map (·.name) =
      before.map (·.name) ++ "as" :: (words text).map String.ofList := by
    rw [hattributes, List.map_append, hdeclared]
  by_cases has : "as" ∈ before.map (·.name)
  · rw [if_pos has]
    obtain ⟨first, others, hbefore, hfirst⟩ := List.eq_append_cons_of_mem has
    rw [hbefore, List.append_assoc, List.cons_append] at hnames
    -- What follows the first `as` has no bar, so the search ends there.
    have hnext : ((others ++ "as" :: (words text).map String.ofList).head?.map
        startsWithBar).getD false = false := by
      cases others with
      | nil => rfl
      | cons name others =>
        have hmem : name ∈ before.map (·.name) := by simp [hbefore]
        obtain ⟨a, ha, rfl⟩ := List.mem_map.mp hmem
        exact startsWithBar_eq_false (hbars a ha)
    simp only [extractBlockParams, hnames, (search_as hfirst).2, hnext, Bool.false_eq_true,
      if_false]
  · rw [if_neg has]
    obtain ⟨word, rest, hwords⟩ := hdeclares.words_head
    obtain ⟨hlast, hcount⟩ := hdeclares.written_bars
    have hnext : (((words text).map String.ofList).head?.map startsWithBar).getD false = true := by
      simp [hwords, startsWithBar]
    have hparams := blockParamNames_eq (words text) hdeclares.words_names hdeclares.unreserved
    have hsome : names.isEmpty = false := by simpa using hdeclares.some_name
    simp only [extractBlockParams, hnames, (search_as has).1, (search_as has).2, hnext, if_true,
      hlast, hcount, and_self, hparams]
    have htake : tag.attributes.take (before.map (·.name)).length = before := by
      rw [hattributes, List.length_map, List.take_left]
    rw [htake]
    simp only [Bind.bind, Except.bind, hsome, Bool.false_eq_true, if_false]
    rfl

/-! ### Reading the text -/

/-- Names without a bar may stand before `as`, and any names behind it. -/
theorem barsFollowAs {before : List String} (h : ∀ name ∈ before, '|' ∉ name.toList)
    (after : List String) : BarsFollowAs (before ++ "as" :: after) := by
  intro first name rest hsplit hbar
  have has : name ≠ "as" := by
    rintro rfl
    cases hbar
  rcases List.append_eq_append_iff.mp hsplit with ⟨more, rfl, hmore⟩ | ⟨more, rfl, hmore⟩
  · cases more with
    | nil => exact absurd (List.cons.inj hmore).1.symm has
    | cons first more => simp [(List.cons.inj hmore).1]
  · cases more with
    | nil => exact absurd (List.cons.inj hmore).1 has
    | cons first more =>
      have hname : '|' ∉ name.toList := h name (by simp [(List.cons.inj hmore).1])
      rw [startsWithBar_eq_false hname] at hbar
      cases hbar

theorem words_append_blanks {gap : List Char} (hblank : ∀ c ∈ gap, isTagBlank c = true)
    (text : List Char) : words (gap ++ text) = words text := by
  induction gap with
  | nil => rfl
  | cons c gap ih =>
    obtain ⟨hc, hgap⟩ := List.forall_mem_cons.mp hblank
    rw [List.cons_append, words_blank hc, ih hgap]

theorem words_as {gap : List Char} (hgap : gap ≠ []) (hblank : ∀ c ∈ gap, isTagBlank c = true)
    (text : List Char) : words ("as".toList ++ gap ++ text) = "as".toList :: words text := by
  obtain ⟨c, gap, rfl⟩ := List.exists_cons_of_ne_nil hgap
  obtain ⟨hc, hblank⟩ := List.forall_mem_cons.mp hblank
  have has : words ("as".toList ++ c :: gap ++ text) =
      wordsAfter "as".toList (c :: (gap ++ text)) := by
    rw [List.append_assoc]
    exact (words_char (by decide) _).trans (wordsAfter_char (by decide) _ _)
  rw [has, wordsAfter_blank hc, wordsAfter_nil, words_append_blanks hblank]
  rfl

namespace Builder

variable {source : Source} {tag : StartTag} {start : Nat} {m : Machine} {b : Builder}
  {pending : List String} {names : List String} {gap text : List Char}

/-- Behind other attributes, `as` and a text that declares names are read as attributes
that spell them. -/
theorem Listing.reads_blockParams (source : Source) (h : Listing tag start m b pending [])
    (hbars : ∀ name ∈ tag.attrNames ++ pending, '|' ∉ name.toList) (hgap : gap ≠ [])
    (hblank : ∀ c ∈ gap, isTagBlank c = true) (hdeclares : Declares names text)
    (rest : List Char) :
    ∃ events m' b', m.ReadsTo ("as".toList ++ gap ++ text ++ rest) events m' rest ∧
      observeAll source b events = .ok b' ∧
      ∀ pos, ∃ last declared b'',
        observeAll source b' [.beginAttributeValue false pos, .finishAttributeValue pos] = .ok b'' ∧
        b''.tag = some (.opening (tag.add (last ++ declared)) start) ∧
        last.map (·.name) = pending ∧ (∀ a ∈ last ++ declared, a.IsBare) ∧
        SpellsBlockParams names declared := by
  have hwords := words_as hgap hblank text
  have hspelled : (wordsAfter [] ("as".toList ++ gap ++ text)).map String.ofList =
      "as" :: (words text).map String.ofList := by
    rw [wordsAfter_nil_word, hwords]
    rfl
  have hchars : ∀ c ∈ "as".toList ++ gap ++ text,
      isTagBlank c = true ∨ isAttributeNameChar c = true := by
    intro c hc
    rcases List.mem_append.mp hc with hc | hc
    · rcases List.mem_append.mp hc with hc | hc
      · have has : "as".toList.all isAttributeNameChar = true := by decide
        exact .inr (List.all_eq_true.mp has c hc)
      · exact .inl (hblank c hc)
    · exact hdeclares.text_char hc
  have hlast : ("as".toList ++ gap ++ text).getLast? ≠ some '\r' := by
    obtain ⟨inner, rfl, -⟩ := hdeclares.between
    rw [← List.cons_append, ← List.append_assoc, List.getLast?_concat]
    decide
  -- No bar comes before the `as`, so reading finds no fault at one.
  have hfollow := barsFollowAs hbars ((words text).map String.ofList)
  rw [List.append_assoc, ← hspelled] at hfollow
  obtain ⟨events, m', b', names', word', hread, hrun, h', hlisted⟩ :=
    h.read source hchars hlast hfollow rest
  refine ⟨events, m', b', hread, hrun, fun pos => ?_⟩
  rw [← hlisted] at hfollow
  obtain ⟨more, b'', hbare, hmore, hfinish, htag, -⟩ := h'.finish source hfollow pos
  rw [hlisted, hspelled] at hmore
  obtain ⟨last, declared, rfl, hlast, hdeclared⟩ := List.map_eq_append_iff.mp hmore
  exact ⟨last, declared, b'', hfinish, htag, hlast, hbare, text, hdeclares, hdeclared⟩

end Builder

/-! ### From the text to the tree -/

/-- Block parameters of elements.  Whatever attributes stand before it, if only their names
have no bar, `as` and a text that declares names are read as attributes that spell them.
When a start tag ends whose last attributes spell block parameters, it is accepted, but
for the name `:`; and in a template that is parsed, the element has the other attributes
and declares the names — unless one of the other attributes is named `as`: then the tag
is kept as it was read. -/
theorem startTag_blockParams {source : Source} {mode : Markup.Mode} {names : List String} :
    (∀ {m : Machine} {b : Builder} {tag : StartTag} {start : Nat} {pending : List String}
      {gap text : List Char}, Builder.Listing tag start m b pending [] →
      (∀ name ∈ tag.attrNames ++ pending, '|' ∉ name.toList) → gap ≠ [] →
      (∀ c ∈ gap, isTagBlank c = true) → Declares names text → ∀ rest,
      ∃ events m' b', m.ReadsTo ("as".toList ++ gap ++ text ++ rest) events m' rest ∧
        Builder.observeAll source b events = .ok b' ∧
        ∀ pos, ∃ last declared b'',
          Builder.observeAll source b'
            [.beginAttributeValue false pos, .finishAttributeValue pos] = .ok b'' ∧
          b''.tag = some (.opening (tag.add (last ++ declared)) start) ∧
          last.map (·.name) = pending ∧ (∀ a ∈ last ++ declared, a.IsBare) ∧
          SpellsBlockParams names declared) ∧
    ∀ {c : Builder} {pos start : Nat} {tag : StartTag} {before declared : List Attr},
      c.tag = some (.opening tag start) → tag.attributes = before ++ declared →
      (∀ a ∈ before, '|' ∉ a.name.toList) → SpellsBlockParams names declared → tag.name ≠ ":" →
      (∃ c', c.observe source (.finishTag pos) = .ok c') ∧
      ∀ {t : Template} {warnings : List Diagnostic}, Builder.EndsTag source mode c pos →
        parse source mode = .ok (t, warnings) →
        HasElement (if "as" ∈ before.map (·.name) then tag
          else { tag with attributes := before, blockParams := names }) start t.body := by
  refine ⟨fun h hbars hgap hblank hdeclares rest =>
    h.reads_blockParams source hbars hgap hblank hdeclares rest, ?_⟩
  intro c pos start tag before declared htag hattributes hbars hspells hname
  -- What the tag is kept as does not depend on how its attributes were read.
  have hkept := extractBlockParams_declared hattributes hbars hspells
  exact ⟨Builder.observe_finishTag source htag hname hkept,
    fun hends hparse => hends.element htag hkept hparse⟩

/-- A component with an attribute and two block parameters. -/
def twoParams : Source := ⟨"<X y as |a b|/>", ""⟩

/-- The text of `twoParams`. -/
def twoParamsText : Mustache.Content := .ofText "<X y as |a b|/>" ⟨0, 15⟩

/-- The start tag of `twoParams`, as it is read. -/
def twoParamsTag : StartTag where
  name := "X"
  selfClosing := true
  attributes := [⟨"y", .text ⟨"", ⟨5, 5⟩⟩, ⟨3, 5⟩⟩, ⟨"as", .text ⟨"", ⟨8, 8⟩⟩, ⟨5, 8⟩⟩,
    ⟨"|a", .text ⟨"", ⟨11, 11⟩⟩, ⟨8, 11⟩⟩, ⟨"b|", .text ⟨"", ⟨13, 13⟩⟩, ⟨11, 13⟩⟩]

/-- The start tag of `twoParams`, as it is kept. -/
def twoParamsKept : StartTag :=
  { twoParamsTag with attributes := twoParamsTag.attributes.take 1, blockParams := ["a", "b"] }

/-- The builder of `twoParams` behind its text, in the frame of the template. -/
def twoParamsBuilder (tag : Option PendingTag) (body : List Statement) : Builder where
  machine := { mode := .precompile, tagName := "X", offset := 15 }
  frames := [.block body]
  tag := tag

/-- The events of `twoParams` before the start tag ends. -/
def twoParamsEvents : List Markup.Event :=
  (Builder.textEvents { machine := { mode := .precompile } } twoParamsText).take 23

theorem declares_ab : Declares ["a", "b"] "|a b|".toList where
  between := ⟨"a b".toList, by decide +kernel, by decide +kernel⟩
  some_name := by decide
  unreserved := by
    have hnames : (["a", "b"].flatMap String.toList).all (!isReserved ·) = true := by decide +kernel
    intro name hname c hc
    simpa using List.all_eq_true.mp hnames c (List.mem_flatMap.mpr ⟨name, hname, hc⟩)

theorem twoParamsTag_bars : ∀ a ∈ twoParamsTag.attributes.take 1, '|' ∉ a.name.toList := by
  intro a ha
  obtain rfl := List.mem_singleton.mp ha
  decide

theorem twoParamsTag_spells : SpellsBlockParams ["a", "b"] (twoParamsTag.attributes.drop 1) :=
  ⟨"|a b|".toList, declares_ab, by decide +kernel⟩

theorem parseProgram_twoParams : Mustache.parseProgram (Mustache.lex twoParams.text) =
    .ok ⟨[.content twoParamsText], [], false, ⟨0, 15⟩⟩ := by with_unfolding_all rfl

theorem textEvents_twoParams :
    (Builder.push { machine := { mode := .precompile } } (.block [])).textEvents twoParamsText =
      twoParamsEvents ++ [Markup.Event.finishTag 15] := by decide +kernel

theorem observeAll_twoParams :
    Builder.observeAll twoParams
        ((Builder.push { machine := { mode := .precompile } } (.block [])).readText twoParamsText)
        twoParamsEvents =
      .ok (twoParamsBuilder (some (.opening twoParamsTag 0)) []) := by with_unfolding_all rfl

theorem endsTag_twoParams : Builder.EndsTag twoParams .precompile
    (twoParamsBuilder (some (.opening twoParamsTag 0)) []) 15 :=
  .intro parseProgram_twoParams .here textEvents_twoParams observeAll_twoParams

theorem parse_twoParams : parse twoParams .precompile =
    .ok (⟨[.element twoParamsKept [] ⟨0, 15⟩], ⟨0, 15⟩⟩, []) := by
  have hkept : extractBlockParams twoParamsTag = .ok twoParamsKept :=
    extractBlockParams_declared (List.take_append_drop 1 _).symm twoParamsTag_bars
      twoParamsTag_spells
  have hfinish : (twoParamsBuilder (some (.opening twoParamsTag 0)) []).observe twoParams
      (.finishTag 15) =
        .ok (twoParamsBuilder none [.element twoParamsKept [] ⟨0, 15⟩]) := by
    rw [Builder.observe, Builder.finishTag]
    simp only [twoParamsBuilder, Builder.finishStartTag, hkept]
    rfl
  have htext : Builder.content twoParams
      (Builder.push { machine := { mode := .precompile } } (.block [])) twoParamsText =
        .ok (twoParamsBuilder none [.element twoParamsKept [] ⟨0, 15⟩]) := by
    rw [Builder.content_eq, textEvents_twoParams, Builder.observeAll_append]
    exact ⟨_, observeAll_twoParams, Builder.observeAll_cons.mpr ⟨_, hfinish, rfl⟩⟩
  have hbuilt : builtProgram .precompile ⟨[.content twoParamsText], [], false, ⟨0, 15⟩⟩ =
      ⟨[.content twoParamsText], [], false, ⟨0, 15⟩⟩ := rfl
  refine parse_eq_ok.mpr ⟨_, parseProgram_twoParams, ?_⟩
  rw [hbuilt, build, Builder.program, Builder.nodes, Builder.node, htext]
  rfl

/-- The builder of `twoParams` behind the name of the attribute. -/
def twoParamsNamed : Builder where
  machine := { state := .afterAttributeName, mode := .precompile, tagName := "X", offset := 5 }
  frames := [.block []]
  tag := some (.opening { name := "X" } 0)
  attr := some { name := "y", start := 3, valueStart := 3 }

theorem twoParamsNamed_listing :
    Builder.Listing { name := "X" } 0 twoParamsNamed.machine twoParamsNamed ["y"] [] :=
  @Builder.Listing.after _ _ _ _ [] { name := "y", start := 3, valueStart := 3 }
    (fun _ h => nomatch h) rfl rfl rfl rfl rfl

/-- The text is read, the attribute stays, and the names are declared. -/
theorem startTag_blockParams_twoParams :
    (∃ events m' b', twoParamsNamed.machine.ReadsTo
        ("as".toList ++ [' '] ++ "|a b|".toList ++ "/>".toList) events m' "/>".toList ∧
      Builder.observeAll twoParams twoParamsNamed events = .ok b') ∧
      (∃ c', (twoParamsBuilder (some (.opening twoParamsTag 0)) []).observe twoParams
        (.finishTag 15) = .ok c') ∧
      HasElement twoParamsKept 0 [.element twoParamsKept [] ⟨0, 15⟩] := by
  obtain ⟨hreads, hends⟩ := @startTag_blockParams twoParams .precompile ["a", "b"]
  have hbars : ∀ name ∈ StartTag.attrNames { name := "X" } ++ ["y"], '|' ∉ name.toList := by
    intro name hname
    obtain rfl := List.mem_singleton.mp hname
    decide
  have hblank : ∀ c ∈ [' '], isTagBlank c = true := List.forall_mem_singleton.mpr rfl
  obtain ⟨events, m', b', hread, hrun, -⟩ := hreads twoParamsNamed_listing hbars
    (List.cons_ne_nil ' ' []) hblank declares_ab "/>".toList
  obtain ⟨haccepted, helement⟩ := hends (c := twoParamsBuilder (some (.opening twoParamsTag 0)) [])
    rfl (List.take_append_drop 1 _).symm twoParamsTag_bars twoParamsTag_spells (by decide)
  exact ⟨⟨events, m', b', hread, hrun⟩, haccepted, helement endsTag_twoParams parse_twoParams⟩

/-- A component with an attribute named `as` before its block parameter. -/
def twiceAs : Source := ⟨"<Foo as=\"x\" as |a|></Foo>", ""⟩

/-- The tag of an element. -/
def Statement.tag? : Statement → Option StartTag
  | .element tag _ _ => some tag
  | _ => none

/-- The parameter is not declared: its words stay among the attributes. -/
theorem parse_twiceAs :
    ∃ t warnings tag children span, parse twiceAs .precompile = .ok (t, warnings) ∧
      t.body = [.element tag children span] ∧
      tag.attributes.map (·.name) = ["as", "as", "|a|"] ∧ tag.blockParams = [] := by
  have hrun : (parse twiceAs .precompile).toOption.map (fun result =>
      result.1.body.map fun s => s.tag?.map fun tag =>
        (tag.attributes.map (·.name), tag.blockParams))
      = some [some (["as", "as", "|a|"], [])] := by decide +kernel
  obtain ⟨⟨t, warnings⟩, hparse, hbody⟩ := ok_of_map_toOption hrun
  obtain ⟨s, hbody, hs⟩ := List.map_eq_singleton_iff.mp hbody
  cases s with
  | element tag children span =>
    simp only [Statement.tag?, Option.map_some, Option.some.injEq, Prod.mk.injEq] at hs
    exact ⟨t, warnings, tag, children, span, hparse, hbody, hs⟩
  | _ => cases hs

end TemplateCompiler.Template
