/-
Reading in pieces.

A text that is read in two pieces is read as it is read at once, if the cut
between the pieces is one that no step looks across.  Four steps look past the
character they read: for the line feed of a line break, for the second dash
that opens a comment, for the end tag of a raw text and for the semicolon of a
reference.

* `Seam` — a cut that none of them crosses;
* `Machine.step_append` — a step in front of a seam does not depend on what
  stands behind it;
* `Machine.read_append_of_seam` — reading in two pieces is reading at once.
-/
import Mathlib.Data.List.TakeWhile
import Mathlib.Tactic.SplitIfs
import TemplateCompiler.Proofs.Markup.Reading

namespace TemplateCompiler.Markup

/-- The end tags that are waited for in raw texts. -/
def rawEndTags : List (List Char) :=
  ["</title>".toList, "</style>".toList, "</script>".toList]

/-- A cut between two pieces of a text that no step of the reader looks across. -/
structure Seam (resolver : Resolver) (a b : List Char) : Prop where
  /-- No carriage return is parted from its line feed. -/
  lineBreak : a.getLast? ≠ some '\r' ∨ b.head? ≠ some '\n'
  /-- No dash is parted from a second one. -/
  dash : a.getLast? ≠ some '-'
  /-- No end tag of a raw text is begun. -/
  endTag : ∀ tag ∈ rawEndTags, ∀ part, part ≠ [] → part <+: tag → part ≠ tag → ¬ part <:+ a
  /-- Nothing is decoded, or no ampersand stands behind the last semicolon. -/
  reference : (∀ body, resolver body = none) ∨ '&' ∉ a.reverse.takeWhile (· ≠ ';')

/-- What is left of the first piece ends at the same seam. -/
theorem Seam.of_suffix {resolver : Resolver} {a a' b : List Char} (h : Seam resolver a b)
    (hsuffix : a' <:+ a) : Seam resolver a' b := by
  obtain ⟨front, rfl⟩ := hsuffix
  have hlast : ∀ c, a'.getLast? = some c → (front ++ a').getLast? = some c := by
    intro c hc
    rw [List.getLast?_append, hc]
    rfl
  refine ⟨?_, fun hdash => h.dash (hlast _ hdash), ?_, ?_⟩
  · rcases h.lineBreak with hreturn | hfeed
    · exact .inl fun hr => hreturn (hlast _ hr)
    · exact .inr hfeed
  · intro tag htag part hne hpre hproper hend
    exact h.endTag tag htag part hne hpre hproper (hend.trans (List.suffix_append _ _))
  · rcases h.reference with hnone | hclosed
    · exact .inl hnone
    · refine .inr fun hmem => hclosed ?_
      rw [List.reverse_append, List.takeWhile_append]
      split
      · exact List.mem_append_left _ ((List.takeWhile_subset _) hmem)
      · exact hmem

/-- An ampersand that the seam leaves behind has its semicolon in front of it. -/
theorem semicolon_mem {rest : List Char}
    (h : '&' ∉ ('&' :: rest).reverse.takeWhile (· ≠ ';')) : ';' ∈ rest := by
  by_contra hsemi
  have hall : ∀ c ∈ ('&' :: rest).reverse, decide (c ≠ ';') = true := by
    intro c hc
    rcases List.mem_cons.mp (List.mem_reverse.mp hc) with rfl | hc
    · decide
    · exact decide_eq_true fun heq => hsemi (heq ▸ hc)
  rw [List.takeWhile_eq_self_iff.mpr hall] at h
  exact h (by simp)

/-! ### One character -/

/-- The reading of a character in a text that goes on. -/
def Reading.extend (r : Reading) (b : List Char) : Reading := { r with rest := r.rest ++ b }

/-- A step in a text that goes on. -/
def Step.extend (s : Step) (b : List Char) : Step := { s with rest := s.rest ++ b }

/-- Only a carriage return at the cut reads what stands behind it. -/
theorem Reading.of_append {c : Char} {rest b : List Char}
    (h : (c :: rest).getLast? ≠ some '\r' ∨ b.head? ≠ some '\n') :
    Reading.of c (rest ++ b) = (Reading.of c rest).extend b := by
  by_cases hc : c = '\r'
  · subst hc
    cases rest with
    | cons d rest =>
      by_cases hd : d = '\n'
      · subst hd
        rfl
      · simp only [Reading.of, List.cons_append, if_pos, Reading.extend]
        split <;> simp_all
    | nil =>
      have hfeed : b.head? ≠ some '\n' := h.resolve_left (by simp)
      cases b with
      | nil => rfl
      | cons d b =>
        have hd : d ≠ '\n' := by simpa using hfeed
        simp only [Reading.of, List.nil_append, if_pos, Reading.extend]
        split <;> simp_all
  · simp only [Reading.of, if_neg hc, Reading.extend]

namespace Machine

/-- A bracket that begins no end tag in the first piece begins none at all. -/
theorem isPrefixOf_append {tag a b : List Char} {c : Char}
    (h : ∀ part, part ≠ [] → part <+: tag → part ≠ tag → ¬ part <:+ c :: a) :
    tag.isPrefixOf (c :: a ++ b) = tag.isPrefixOf (c :: a) := by
  rw [Bool.eq_iff_iff, List.isPrefixOf_iff_prefix, List.isPrefixOf_iff_prefix]
  constructor
  · intro hpre
    rcases List.prefix_or_prefix_of_prefix hpre (List.prefix_append (c :: a) b) with hin | hout
    · exact hin
    · -- The first piece would end inside of the tag.
      by_cases heq : c :: a = tag
      · exact heq ▸ List.prefix_rfl
      · exact absurd List.suffix_rfl (h (c :: a) (by simp) hout heq)
  · intro hpre
    exact hpre.trans (List.prefix_append _ _)

theorem ignoresTag_append {m : Machine} {c : Char} {rest b : List Char}
    (h : Seam m.resolver (c :: rest) b) :
    m.ignoresTag (c :: rest ++ b) = m.ignoresTag (c :: rest) := by
  have htag : ∀ tag ∈ rawEndTags, tag.isPrefixOf (c :: rest ++ b) = tag.isPrefixOf (c :: rest) :=
    fun tag hmem => isPrefixOf_append (h.endTag tag hmem)
  rw [ignoresTag, ignoresTag, htag _ (by simp [rawEndTags]), htag _ (by simp [rawEndTags]),
    htag _ (by simp [rawEndTags])]

/-- What a reference needs stands in front of the seam, if it is decoded at all. -/
theorem reference?_append {m : Machine} {width : Nat} {rest b : List Char}
    (h : Seam m.resolver ('&' :: rest) b) :
    m.reference? (Reading.extend ⟨'&', width, rest⟩ b)
      = (m.reference? ⟨'&', width, rest⟩).map fun found => (found.1, found.2.extend b) := by
  rcases h.reference with hnone | hclosed
  · simp only [reference?, hnone, Option.map_none]
    split <;> split <;> rfl
  -- The semicolon stands in front of the seam, so the body ends there in both texts.
  · have hsemi : ';' ∈ rest := semicolon_mem hclosed
    have hne : rest.dropWhile (· ≠ ';') ≠ [] := by
      intro hnil
      simpa using List.dropWhile_eq_nil_iff.mp hnil ';' hsemi
    have hdrop : (rest ++ b).dropWhile (· ≠ ';') = rest.dropWhile (· ≠ ';') ++ b := by
      rw [List.dropWhile_append, if_neg (by simpa using hne)]
    have htake : (rest ++ b).takeWhile (· ≠ ';') = rest.takeWhile (· ≠ ';') := by
      rw [List.takeWhile_append, if_neg]
      intro hall
      have hlength := congrArg List.length
        (List.takeWhile_append_dropWhile (p := (· ≠ ';')) (l := rest))
      rw [List.length_append] at hlength
      exact hne (List.length_eq_zero_iff.mp (by omega))
    simp only [reference?, Reading.extend, hdrop, htake]
    cases hafter : rest.dropWhile (· ≠ ';') with
    | nil => exact absurd hafter hne
    | cons d after =>
      simp only [List.cons_append, Option.map_map]
      rfl

theorem takeReference_append {m : Machine} {c : Char} {rest b : List Char}
    (hc : (Reading.of c rest).char = '&') (h : Seam m.resolver (c :: rest) b)
    (tell : Char → Event) :
    m.takeReference ((Reading.of c rest).extend b) tell
      = (m.takeReference (Reading.of c rest) tell).extend b := by
  have hplain : Reading.of c rest = ⟨c, c.utf8Size, rest⟩ := Reading.of_eq (by rw [hc]; decide)
  rw [hplain] at hc ⊢
  obtain rfl : c = '&' := hc
  simp only [takeReference, reference?_append h]
  cases m.reference? ⟨'&', '&'.utf8Size, rest⟩ <;> rfl

/-- Two dashes are read together, and no dash stands at the cut. -/
theorem stepMarkupDeclaration_append {m : Machine} {c : Char} {rest b : List Char}
    (h : Seam m.resolver (c :: rest) b) :
    m.stepMarkupDeclaration ((Reading.of c rest).extend b)
      = (m.stepMarkupDeclaration (Reading.of c rest)).extend b := by
  by_cases hc : (Reading.of c rest).char = '-'
  · have hplain : Reading.of c rest = ⟨c, c.utf8Size, rest⟩ := Reading.of_eq (by rw [hc]; decide)
    rw [hplain] at hc ⊢
    obtain rfl : c = '-' := hc
    cases rest with
    | nil => exact absurd rfl h.dash
    | cons d rest =>
      by_cases hd : d = '-'
      · subst hd
        rfl
      · simp only [stepMarkupDeclaration, Reading.extend, List.cons_append]
        split <;> split <;> simp_all [Step.extend, take]
  · simp only [stepMarkupDeclaration, Reading.extend]
    split
    · contradiction
    · split
      · contradiction
      · rfl

/-! ### Steps and pieces -/

/-- A step in front of a seam does not depend on what stands behind it. -/
theorem step_append {m : Machine} {c : Char} {rest b : List Char}
    (h : Seam m.resolver (c :: rest) b) :
    m.step c (rest ++ b) = (m.step c rest).extend b := by
  have hreading := Reading.of_append h.lineBreak
  have htag := ignoresTag_append h
  rw [List.cons_append] at htag
  rw [step, step, hreading]
  cases hs : m.state
  case markupDeclarationOpen => exact stepMarkupDeclaration_append h
  all_goals
    simp only [stepBeforeData, stepData, stepTagOpen, stepCommentStart,
      stepCommentStartDash, stepComment, stepCommentEndDash, stepCommentEnd, stepTagName,
      stepEndTagName, stepBeforeAttributeName, stepAttributeName, stepAfterAttributeName,
      stepBeforeAttributeValue, stepQuotedValue, stepUnquotedValue, stepAfterQuotedValue,
      stepSelfClosing, stepEndTagOpen, htag,
      show ((Reading.of c rest).extend b).char = (Reading.of c rest).char from rfl]
    split_ifs
  all_goals first
    | rfl
    | exact takeReference_append ‹_› h _
    | exact takeReference_append (And.left ‹_›) h _

/-- A text that is cut at a seam is read in two pieces as it is read at once: the
same events in the same order, and the same machine at the end. -/
theorem read_append_of_seam (m : Machine) (a b : List Char) (h : Seam m.resolver a b) :
    m.read (a ++ b)
      = (((m.read a).1.read b).1, (m.read a).2 ++ ((m.read a).1.read b).2) := by
  fun_induction read m a with
  -- The piece is used up.
  | case1 m => rfl
  -- One step, and then the rest.
  | case2 m c rest next result ih =>
    obtain ⟨⟨piece, hpiece, -⟩, hresolver⟩ := m.step_reads c rest
    have hseam : Seam next.machine.resolver next.rest b := by
      rw [hresolver]
      exact h.of_suffix ⟨piece, hpiece.symm⟩
    rw [List.cons_append, read, step_append h]
    show (((next.machine.read (next.rest ++ b)).1,
      next.events ++ (next.machine.read (next.rest ++ b)).2)) = _
    rw [ih hseam, List.append_assoc]

/-- A raw text with a reference, cut behind a carriage return. -/
def rawText : List Char := "<title>a&lt;b\r".toList

/-- The end tag of the raw text. -/
def rawTextEnd : List Char := "</title>".toList

theorem read_append_of_seam_title :
    Seam Resolver.html rawText rawTextEnd ∧
      Machine.read { mode := .precompile } (rawText ++ rawTextEnd)
        = (((Machine.read { mode := .precompile } rawText).1.read rawTextEnd).1,
          (Machine.read { mode := .precompile } rawText).2
            ++ ((Machine.read { mode := .precompile } rawText).1.read rawTextEnd).2) := by
  have hseam : Seam Resolver.html rawText rawTextEnd := by
    refine ⟨.inr (by decide), by decide, ?_, .inr (by decide)⟩
    -- What ends the first piece has a carriage return, and no end tag has one.
    intro tag htag part hne hpre _ ⟨front, hfront⟩
    have hlast : part.getLast? = some '\r' := by
      have hrawText : rawText.getLast? = some '\r' := by decide
      rw [← hfront, List.getLast?_append] at hrawText
      obtain ⟨c, hc⟩ := Option.ne_none_iff_exists'.mp (mt List.getLast?_eq_none_iff.mp hne)
      rw [hc] at hrawText ⊢
      exact hrawText
    have hnone : ∀ tag ∈ rawEndTags, '\r' ∉ tag := by decide
    exact hnone tag htag (hpre.subset (List.mem_of_getLast? hlast))
  exact ⟨hseam, read_append_of_seam { mode := .precompile } rawText rawTextEnd hseam⟩

end Machine

end TemplateCompiler.Markup
