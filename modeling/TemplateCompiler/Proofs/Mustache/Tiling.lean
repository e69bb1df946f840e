/-
The tokens of a source tile it.

* `Tile` — what a token leaves out in front of it, and what it covers;
* `Tiles` — a text cut into the tiles of its tokens, one after the other;
* `lexFrom_tiles` — the lexer cuts every text so, wherever it starts to read;
* `Tiles.covered_or_skipped`, `Tiles.value` — what is left out, and where texts stand;
* `lex_tiling` — the tokens of a source are in order on it, cover all but blanks in tags
  and backslashes before escaped braces, and end with the one `eof`.

Whether a blank is left out depends on what was read before it, so tiles know the text
before them and whether it ends inside a tag.  A backslash can be left out only where
the lexer did not see one before it, since two of them are a text.
-/
import Mathlib.Algebra.Group.Nat.Defs
import TemplateCompiler.Proofs.Mustache.Faults
import TemplateCompiler.Proofs.Mustache.Lengths

namespace TemplateCompiler.Mustache

open Text (byteLength byteLength_append)

/-! ### Tiles -/

/-- After a token of this kind the lexer is inside a tag. -/
def TokenKind.staysInside : TokenKind → Bool
  | .eof => false
  | kind => !(kind.isWhole || kind.closesTag)

theorem TokenKind.InTag.staysInside {kind : TokenKind} (h : kind.InTag) :
    kind.staysInside = !(kind.isWhole || kind.closesTag) := by
  cases kind <;> first
    | rfl
    | exact h.elim

/-- What a token leaves out in front of it, and what it covers, between the text before
and the text after.  Blanks are left out inside a tag only, and a backslash only alone. -/
structure Tile (inside : Bool) (before gap piece after : List Char) (kind : TokenKind) : Prop where
  skips : gap = [] ∨ (inside = true ∧ ∀ c ∈ gap, Text.isBlank c = true) ∨
    gap = ['\\'] ∧ before.getLast? ≠ some '\\' ∧
      ∃ value, kind = .content value ∧ ['{', '{'] <+: value.toList
  covers : ∀ value, kind = .content value →
    piece = value.toList ∨ piece = value.toList ++ ['\\'] ∧ ['{', '{'] <+: after

/-- A text cut into the tiles of its tokens, up to the end of the source. -/
inductive Tiles : Bool → List Char → List Char → List Token → Prop
  | eof {inside : Bool} {before gap : List Char} (h : Tile inside before gap [] [] .eof) :
    Tiles inside before gap [⟨.eof, .point (byteLength (before ++ gap))⟩]
  | token {inside : Bool} {before gap piece after : List Char} {kind : TokenKind} {ts : List Token}
    (h : Tile inside before gap piece after kind)
    (hafter : Tiles kind.staysInside (before ++ gap ++ piece) after ts) :
    Tiles inside before (gap ++ (piece ++ after))
      (⟨kind, byteLength (before ++ gap), byteLength (before ++ gap ++ piece)⟩ :: ts)

theorem byteLength_head_le {front rest : List Char} {n : Nat} (h : byteLength (front ++ rest) ≤ n) :
    byteLength front ≤ n := by
  rw [byteLength_append] at h
  omega

/-- The end of the source, after blanks inside a tag. -/
theorem Tiles.last {inside : Bool} {before gap : List Char} {stop : Nat}
    (hstop : stop = byteLength (before ++ gap)) (hlength : byteLength (before ++ gap) ≤ maxOffset)
    (hgap : gap = [] ∨ inside = true ∧ ∀ c ∈ gap, Text.isBlank c = true) :
    Tiles inside before gap [⟨.eof, .ofOffsets stop stop⟩] := by
  rw [hstop, Span.ofOffsets_of_le hlength hlength]
  exact .eof ⟨hgap.imp_right .inl, fun _ h => by cases h⟩

/-- A token for text in front of tiles, after a backslash that escapes its braces.  Its own
last backslash may be dropped before braces. -/
theorem Tiles.content {inside : Bool} {before gap value piece after : List Char}
    {ts : List Token} {start stop : Nat} (hvalue : value ≠ [])
    (hgap : gap = [] ∨ gap = ['\\'] ∧ before.getLast? ≠ some '\\' ∧ ['{', '{'] <+: value)
    (hpiece : piece = value ∨ piece = value ++ ['\\'] ∧ ['{', '{'] <+: after)
    (hstart : start = byteLength (before ++ gap))
    (hstop : stop = byteLength (before ++ gap ++ piece))
    (hlength : byteLength (before ++ gap ++ piece ++ after) ≤ maxOffset)
    (h : Tiles false (before ++ gap ++ piece) after ts) :
    Tiles inside before (gap ++ (piece ++ after)) (contentTokens value start stop ++ ts) := by
  have hle := byteLength_head_le hlength
  rw [contentTokens, if_neg (by simpa using hvalue), hstart, hstop,
    Span.ofOffsets_of_le (byteLength_head_le hle) hle]
  refine .token ⟨?_, ?_⟩ h
  · rcases hgap with hgap | ⟨hgap, hlast, hbraces⟩
    · exact .inl hgap
    · exact .inr (.inr ⟨hgap, hlast, _, rfl, by rwa [String.toList_ofList]⟩)
  · rintro value' hvalue'
    cases hvalue'
    rwa [String.toList_ofList]

/-- A run of text in front of tiles; an empty run is no token. -/
theorem Tiles.text {inside : Bool} {before value piece after : List Char} {ts : List Token}
    {start stop : Nat}
    (hpiece : piece = value ∨ value ≠ [] ∧ piece = value ++ ['\\'] ∧ ['{', '{'] <+: after)
    (hstart : start = byteLength before) (hstop : stop = byteLength (before ++ piece))
    (hlength : byteLength (before ++ piece ++ after) ≤ maxOffset)
    (h : ∀ inside, Tiles inside (before ++ piece) after ts) :
    Tiles inside before (piece ++ after) (contentTokens value start stop ++ ts) := by
  by_cases hvalue : value = []
  · obtain rfl : piece = value := hpiece.resolve_right fun h => h.1 hvalue
    subst hvalue
    simpa [contentTokens] using h inside
  · rw [← List.append_nil before] at hstart hstop hlength
    have htiles := h false
    rw [← List.append_nil before] at htiles
    exact .content hvalue (.inl rfl) (hpiece.imp id And.right) hstart hstop hlength htiles

/-- Where the lexer may start to read: inside a tag blanks are left out, and a backslash that
starts a text is not the second of two. -/
def Mode.Begins (inside : Bool) (before input : List Char) : Mode → Prop
  | .content => (splitAtBraces input).1 = ['\\'] → before.getLast? ≠ some '\\'
  | .tag => inside = true ∨ headIs Text.isBlank input = false

theorem eq_dropLast_append {text : List Char} (h : ['\\'] <:+ text) :
    text = text.dropLast ++ ['\\'] := by
  obtain ⟨front, rfl⟩ := h
  rw [List.dropLast_concat]

theorem headIs_braces {input : List Char} (h : ['{', '{'] <+: input) :
    headIs Text.isBlank input = false := by
  obtain ⟨rest, rfl⟩ := h
  rfl

theorem escapedText_braces_prefix {input : List Char} (h : ['{', '{'] <+: input) :
    ['{', '{'] <+: escapedText input := by
  obtain ⟨tail, rfl⟩ := h
  exact List.prefix_append _ _

/-- After escaped text the lexer does not start with a backslash that follows another. -/
theorem escapedText_getLast? {input after : List Char} (hbraces : ['{', '{'] <+: input)
    (hall : escapedText input ++ after = input) (hafter : (splitAtBraces after).1 = ['\\']) :
    (escapedText input).getLast? ≠ some '\\' := by
  obtain ⟨tail, rfl⟩ := hbraces
  have htail := splitAtBraces_append tail
  simp only [List.cons_append, List.nil_append, escapedText_eq, List.cons.injEq, true_and] at hall ⊢
  split at hall
  · next hnone =>
    rw [List.isEmpty_iff.mp hnone, List.append_nil] at htail
    rw [htail] at hall
    obtain rfl : after = [] := List.append_right_eq_self.mp hall
    cases hafter
  · next hsome =>
    rw [if_neg hsome, List.getLast?_cons, List.getLast?_cons]
    -- What was dropped from the end of the text is what the lexer starts with.
    have hdropped : ∀ {dropped : List Char},
        (splitAtBraces tail).1 = beforeEscapes (splitAtBraces tail).1 ++ dropped →
          dropped = ['\\'] := by
      intro dropped hsplit
      have hdrop : splitAtBraces after = (dropped, (splitAtBraces tail).2) := by
        refine splitAtBraces_drop (beforeEscapes (splitAtBraces tail).1) ?_
        rw [hall, ← hsplit]
      rw [← hafter, hdrop]
    rcases beforeEscapes_cases (splitAtBraces tail).1 with htwo | ⟨-, hlast⟩
    · cases hdropped htwo
    · cases hkept : (beforeEscapes (splitAtBraces tail).1).getLast? with
      | none => decide
      | some c => rwa [hkept] at hlast

/-- Blanks inside a tag are left out, and elsewhere there are none. -/
theorem Mode.Begins.gap {inside : Bool} {before input : List Char}
    (h : Mode.tag.Begins inside before input) :
    input.takeWhile Text.isBlank = [] ∨
      inside = true ∧ ∀ c ∈ input.takeWhile Text.isBlank, Text.isBlank c = true := by
  rcases h with hinside | hhead
  · exact .inr ⟨hinside, fun c hc => List.mem_takeWhile_imp hc⟩
  · cases input with
    | nil => exact .inl rfl
    | cons c rest =>
      have hc : Text.isBlank c = false := hhead
      exact .inl (by simp [hc])

/-- After a token inside a tag the lexer is still there, or behind a closing brace. -/
theorem tagLexeme_begins (c : Char) (rest before : List Char) :
    (if (tagLexeme c rest).ends then Mode.content else Mode.tag).Begins
      (tagLexeme c rest).kind.staysInside (before ++ c :: rest.take (tagLexeme c rest).more)
      (rest.drop (tagLexeme c rest).more) := by
  split
  · next hends =>
    have hclosed := (tagLexeme_fits c rest).closed hends
    have hlast : (before ++ c :: rest.take (tagLexeme c rest).more).getLast? = some '}' := by
      rw [List.getLast?_append_of_ne_nil _ (List.cons_ne_nil _ _), ← List.take_succ_cons,
        List.getLast?_take, if_neg (Nat.succ_ne_zero _), Nat.succ_sub_one, hclosed]
      rfl
    intro _
    rw [hlast]
    decide
  · next hends =>
    refine .inl ?_
    rw [(tagLexeme_inTag c rest).staysInside, ← tagLexeme_ends]
    simpa using hends

/-- The lexer cuts a text into tiles. -/
theorem lexFrom_tiles (mode : Mode) (offset : Nat) (input : List Char) :
    ∀ (inside : Bool) (before : List Char), offset = byteLength before →
      byteLength (before ++ input) ≤ maxOffset → mode.Begins inside before input →
        Tiles inside before input (lexFrom mode offset input) := by
  fun_induction lexFrom mode offset input with
  -- Text up to the end.
  | case1 offset input text stop h =>
    rintro inside before hoffset hlength -
    have hinput : text ++ [] = input := append_of_splitAtBraces h
    have hstop : stop = byteLength (before ++ text) := by rw [byteLength_append, ← hoffset]
    rw [← hinput, ← List.append_assoc before] at hlength
    rw [← hinput]
    exact .text (.inl rfl) hoffset hstop hlength fun _ =>
      .last (by rw [List.append_nil, hstop]) hlength (.inl rfl)
  -- A tag behind two backslashes.
  | case2 offset input text stop brace rest h hdouble ih =>
    rintro inside before hoffset hlength -
    have hinput : text ++ brace :: rest = input := append_of_splitAtBraces h
    have hbraces : ['{', '{'] <+: brace :: rest := splitAtBraces_snd h
    -- The first of two backslashes is text, so there is a token that covers the second.
    obtain ⟨front, hfront⟩ := List.isSuffixOf_iff_suffix.mp hdouble
    have htext : text = text.dropLast ++ ['\\'] :=
      eq_dropLast_append ⟨front ++ ['\\'], by simpa using hfront⟩
    have hvalue : text.dropLast ≠ [] := by
      rw [← hfront]
      simp
    have hstop : stop = byteLength (before ++ text) := by rw [byteLength_append, ← hoffset]
    rw [← hinput, ← List.append_assoc] at hlength
    rw [← hinput]
    exact .text (.inr ⟨hvalue, htext, hbraces⟩) hoffset hstop hlength fun inside =>
      ih inside _ hstop hlength (.inr (headIs_braces hbraces))
  -- Braces behind one backslash.
  | case3 offset input text stop brace rest h hdouble hsingle escaped next ih =>
    rintro inside before hoffset hlength hbegins
    have hinput : text ++ brace :: rest = input := append_of_splitAtBraces h
    have hbraces : ['{', '{'] <+: brace :: rest := splitAtBraces_snd h
    have htail : escaped ++ rest.drop (escaped.length - 1) = brace :: rest :=
      escapedText_append brace rest
    have htext : text = text.dropLast ++ ['\\'] :=
      eq_dropLast_append (List.isSuffixOf_iff_suffix.mp hsingle)
    have hescaped : ['{', '{'] <+: escaped := escapedText_braces_prefix hbraces
    have hne : escaped ≠ [] := hescaped.ne_nil (by simp)
    generalize rest.drop (escaped.length - 1) = after at ih htail
    have hstop : stop = byteLength (before ++ text) := by rw [byteLength_append, ← hoffset]
    have hnext : next = byteLength (before ++ text ++ escaped) := by
      rw [byteLength_append, ← hstop]
    have hlast : (splitAtBraces after).1 = ['\\'] →
        (before ++ text ++ escaped).getLast? ≠ some '\\' := by
      intro hafter
      rw [List.getLast?_append_of_ne_nil _ hne]
      exact escapedText_getLast? hbraces htail hafter
    rw [← hinput, ← htail, ← List.append_assoc, ← List.append_assoc] at hlength
    rw [← hinput, ← htail, List.append_assoc (contentTokens _ _ _)]
    have hafter := fun inside => ih inside _ hnext hlength hlast
    by_cases hvalue : text.dropLast = []
    · -- The backslash stands at the start, so no token covers it.
      have hslash : text = ['\\'] := by rw [htext, hvalue, List.nil_append]
      rw [hvalue, show contentTokens [] offset stop = [] from rfl, List.nil_append]
      exact .content hne (.inr ⟨hslash, hbegins hslash, hescaped⟩) (.inl rfl) hstop hnext hlength
        (hafter false)
    · refine .text (.inr ⟨hvalue, htext, ?_⟩) hoffset hstop ?_ fun _ =>
        .text (.inl rfl) hstop hnext hlength hafter
      · exact hescaped.trans (List.prefix_append _ _)
      · rwa [← List.append_assoc]
  -- A tag behind other text.
  | case4 offset input text stop brace rest h hdouble hsingle ih =>
    rintro inside before hoffset hlength -
    have hinput : text ++ brace :: rest = input := append_of_splitAtBraces h
    have hbraces : ['{', '{'] <+: brace :: rest := splitAtBraces_snd h
    have hstop : stop = byteLength (before ++ text) := by rw [byteLength_append, ← hoffset]
    rw [← hinput, ← List.append_assoc] at hlength
    rw [← hinput]
    exact .text (.inl rfl) hoffset hstop hlength fun inside =>
      ih inside _ hstop hlength (.inr (headIs_braces hbraces))
  -- The end, inside a tag.
  | case5 offset input start h =>
    rintro inside before hoffset hlength hbegins
    have hinput := takeWhile_blank_of_dropWhile h
    have hstart : start = byteLength (before ++ input) := by
      rw [byteLength_append, ← hoffset, ← hinput]
    have hgap := hbegins.gap
    rw [hinput] at hgap
    exact .last hstart hlength hgap
  -- A token of a tag.
  | case6 offset input start c rest h lexeme stop ih =>
    rintro inside before hoffset hlength hbegins
    have hinput := append_of_dropWhile_blank h lexeme.more
    have hgap := hbegins.gap
    have hstart : start = byteLength (before ++ input.takeWhile Text.isBlank) := by
      rw [byteLength_append, ← hoffset]
    generalize input.takeWhile Text.isBlank = gap at hinput hgap hstart
    have hstop : stop = byteLength (before ++ gap ++ c :: rest.take lexeme.more) := by
      rw [byteLength_append, ← hstart]
    rw [← hinput, ← List.append_assoc, ← List.append_assoc] at hlength
    have hle := byteLength_head_le hlength
    have hafter := ih lexeme.kind.staysInside _ hstop hlength (tagLexeme_begins c rest _)
    rw [← hinput, hstart, hstop, Span.ofOffsets_of_le (byteLength_head_le hle) hle]
    exact .token ⟨hgap.imp_right .inl, fun value hvalue =>
      absurd hvalue ((tagLexeme_inTag c rest).ne_content value)⟩ (hstop ▸ hafter)

/-! ### What tiles say about tokens -/

section Tiles

variable {inside : Bool} {before input : List Char} {ts : List Token}

theorem Tiles.start_le (h : Tiles inside before input ts) :
    ∀ t ∈ ts, byteLength before ≤ t.span.start ∧ t.span.start ≤ t.span.stop := by
  induction h with
  | eof h =>
    refine List.forall_mem_singleton.mpr ⟨?_, Nat.le_refl _⟩
    show byteLength _ ≤ byteLength (_ ++ _)
    rw [byteLength_append]
    omega
  | token h hafter ih =>
    refine List.forall_mem_cons.mpr ⟨?_, fun t ht => ⟨?_, (ih t ht).2⟩⟩
    · simp only [byteLength_append]
      omega
    · have hle := (ih t ht).1
      simp only [byteLength_append] at hle
      omega

/-- Tokens do not overlap. -/
theorem Tiles.pairwise (h : Tiles inside before input ts) :
    ts.Pairwise fun a b => a.span.stop ≤ b.span.start := by
  induction h with
  | eof h => exact List.pairwise_singleton _ _
  | token h hafter ih => exact List.pairwise_cons.mpr ⟨fun t ht => (hafter.start_le t ht).1, ih⟩

/-- The last token is at the end of the source. -/
theorem Tiles.getLast? (h : Tiles inside before input ts) :
    ts.getLast? = some ⟨.eof, .point (byteLength (before ++ input))⟩ := by
  induction h with
  | eof h => rfl
  | @token inside before gap piece after kind ts h hafter ih =>
    rw [List.getLast?_cons, ih, Option.getD_some, List.append_assoc, List.append_assoc]

/-- A text is a piece of the source, but for a backslash in front of braces. -/
theorem Tiles.value (h : Tiles inside before input ts) :
    ∀ t ∈ ts, ∀ value, t.kind = .content value → ∃ front back,
      before ++ input = front ++ value.toList ++ back ∧ t.span.start = byteLength front ∧
        (t.span.stop = byteLength (front ++ value.toList) ∨
          t.span.stop = byteLength (front ++ value.toList) + 1 ∧ ['\\', '{', '{'] <+: back) := by
  induction h with
  | eof h => simp
  | @token inside before gap piece after kind ts h hafter ih =>
    rw [← List.append_assoc, ← List.append_assoc]
    refine List.forall_mem_cons.mpr ⟨fun value hvalue => ?_, ih⟩
    rcases h.covers value hvalue with rfl | ⟨rfl, hbraces⟩
    · exact ⟨before ++ gap, after, rfl, rfl, .inl rfl⟩
    · have hslash : ('\\' : Char).utf8Size = 1 := rfl
      refine ⟨before ++ gap, '\\' :: after, by simp, rfl, .inr ⟨?_, ?_⟩⟩
      · simp [byteLength_append, Nat.add_assoc, hslash]
      · exact (List.prefix_cons_inj _).mpr hbraces

end Tiles

/-- An offset in a text is in one of its characters. -/
theorem exists_char_at {text : List Char} {offset : Nat} (h : offset < byteLength text) :
    ∃ before c after, text = before ++ c :: after ∧ byteLength before ≤ offset ∧
      offset < byteLength before + c.utf8Size := by
  induction text generalizing offset with
  | nil => exact absurd h (Nat.not_lt_zero _)
  | cons c text ih =>
    by_cases hc : offset < c.utf8Size
    · exact ⟨[], c, text, rfl, Nat.zero_le _, by simpa using hc⟩
    · rw [Text.byteLength_cons] at h
      have hrest : offset - c.utf8Size < byteLength text := by omega
      obtain ⟨before, d, after, rfl, hstart, hstop⟩ := ih hrest
      refine ⟨c :: before, d, after, rfl, ?_, ?_⟩ <;> rw [Text.byteLength_cons] <;> omega

/-- After these tokens the lexer is inside a tag. -/
def InsideTag (ts : List Token) : Prop := ∃ t, ts.getLast? = some t ∧ t.kind.staysInside = true

theorem InsideTag.concat {ts : List Token} {t : Token} (h : t.kind.staysInside = true) :
    InsideTag (ts ++ [t]) :=
  ⟨t, List.getLast?_concat, h⟩

/-- What the tokens of a source leave out. -/
inductive Skipped (source : List Char) (ts : List Token) (offset : Nat) : Prop
  /-- A blank that is read inside a tag, after some tokens and before the others. -/
  | blank {before after : List Char} {c : Char} {earlier later : List Token}
    (text_eq : source = before ++ c :: after) (blank : Text.isBlank c = true)
    (start_le : byteLength before ≤ offset) (lt_stop : offset < byteLength before + c.utf8Size)
    (tokens_eq : ts = earlier ++ later) (earlier_le : ∀ t ∈ earlier, t.span.stop ≤ offset)
    (lt_later : ∀ t ∈ later, offset < t.span.start) (inside : InsideTag earlier)
  /-- A backslash, alone, in front of braces that begin the text of a token. -/
  | backslash {before after : List Char} {t : Token} {value : String}
    (text_eq : source = before ++ '\\' :: '{' :: '{' :: after)
    (alone : before.getLast? ≠ some '\\') (offset_eq : offset = byteLength before) (mem : t ∈ ts)
    (start_eq : t.span.start = offset + 1) (kind_eq : t.kind = .content value)
    (braces : ['{', '{'] <+: value.toList)

/-- What a token leaves out in front of it. -/
theorem Tile.skipped {inside : Bool} {before gap piece after : List Char} {kind : TokenKind}
    (h : Tile inside before gap piece after kind) {earlier : List Token} (later : List Token)
    {offset stop : Nat}
    (hearlier : ∀ t ∈ earlier, t.span.stop ≤ byteLength before)
    (hinside : inside = true → InsideTag earlier)
    (hlater : ∀ t ∈ later, byteLength (before ++ gap) ≤ t.span.start)
    (hmem : ⟨kind, byteLength (before ++ gap), stop⟩ ∈ later)
    (hstart : byteLength before ≤ offset) (hstop : offset < byteLength (before ++ gap)) :
    Skipped (before ++ (gap ++ (piece ++ after))) (earlier ++ later) offset := by
  rw [byteLength_append] at hstop
  rcases h.skips with rfl | ⟨rfl, hblank⟩ | ⟨rfl, halone, value, rfl, hbraces⟩
  · exact absurd hstop (Nat.not_lt.mpr hstart)
  -- A blank in a tag: the character that holds the offset is one of the gap.
  · obtain ⟨front, c, back, rfl, hfront, hc⟩ : ∃ front c back, gap = front ++ c :: back ∧
        byteLength front ≤ offset - byteLength before ∧
        offset - byteLength before < byteLength front + c.utf8Size := exists_char_at (by omega)
    have htext : before ++ ((front ++ c :: back) ++ (piece ++ after))
        = (before ++ front) ++ c :: (back ++ (piece ++ after)) := by simp
    have hc' : c ∈ front ++ c :: back := List.mem_append_right _ List.mem_cons_self
    refine .blank htext (hblank c hc') ?_ ?_ rfl ?_ ?_ (hinside rfl)
    · rw [byteLength_append]
      omega
    · rw [byteLength_append]
      omega
    · exact fun t ht => Nat.le_trans (hearlier t ht) hstart
    · intro t ht
      have hle := hlater t ht
      rw [byteLength_append] at hle
      omega
  -- A backslash, which is one byte, so the offset is where it stands.
  · have hslash : byteLength ['\\'] = 1 := rfl
    obtain ⟨more, hmore⟩ : ['{', '{'] <+: piece := by
      rcases h.covers value rfl with rfl | ⟨rfl, -⟩
      · exact hbraces
      · exact hbraces.trans (List.prefix_append _ _)
    obtain rfl : offset = byteLength before := by omega
    have htext : before ++ (['\\'] ++ (piece ++ after))
        = before ++ '\\' :: '{' :: '{' :: (more ++ after) := by simp [← hmore]
    refine .backslash htext halone rfl (List.mem_append_right _ hmem) ?_ rfl hbraces
    rw [byteLength_append, hslash]

/-- Every byte is covered by a token, or left out. -/
theorem Tiles.covered_or_skipped {inside : Bool} {before input : List Char} {ts : List Token}
    (h : Tiles inside before input ts) (earlier : List Token)
    (hearlier : ∀ t ∈ earlier, t.span.stop ≤ byteLength before)
    (hinside : inside = true → InsideTag earlier) {offset : Nat}
    (hstart : byteLength before ≤ offset) (hstop : offset < byteLength (before ++ input)) :
    (∃ t ∈ ts, t.span.contains offset = true) ∨
      Skipped (before ++ input) (earlier ++ ts) offset := by
  induction h generalizing earlier with
  | @eof inside before gap h =>
    have hskipped := h.skipped [⟨.eof, .point (byteLength (before ++ gap))⟩] hearlier hinside
      (List.forall_mem_singleton.mpr (Nat.le_refl _)) List.mem_cons_self hstart hstop
    rw [List.append_nil, List.append_nil] at hskipped
    exact .inr hskipped
  | @token inside before gap piece after kind ts h hafter ih =>
    -- The byte is in front of the first token, in it, or behind it.
    by_cases hgap : offset < byteLength (before ++ gap)
    · refine .inr (h.skipped _ hearlier hinside ?_ List.mem_cons_self hstart hgap)
      refine List.forall_mem_cons.mpr ⟨Nat.le_refl _, fun t ht => ?_⟩
      have hle := (hafter.start_le t ht).1
      rw [byteLength_append] at hle
      omega
    by_cases hpiece : offset < byteLength (before ++ gap ++ piece)
    · refine .inl ⟨_, List.mem_cons_self, ?_⟩
      simp only [Span.contains, Bool.and_eq_true, decide_eq_true_eq]
      omega
    · have hend : ∀ t ∈ earlier ++
          [⟨kind, byteLength (before ++ gap), byteLength (before ++ gap ++ piece)⟩],
          t.span.stop ≤ byteLength (before ++ gap ++ piece) := by
        refine List.forall_mem_append.mpr
          ⟨fun t ht => ?_, List.forall_mem_singleton.mpr (Nat.le_refl _)⟩
        have hle := hearlier t ht
        simp only [byteLength_append]
        omega
      rw [← List.append_assoc, ← List.append_assoc] at hstop ⊢
      rcases ih _ hend (fun hkind => .concat hkind) (Nat.not_lt.mp hpiece) hstop with
        ⟨t, ht, hcontains⟩ | hskipped
      · exact .inl ⟨t, List.mem_cons_of_mem _ ht, hcontains⟩
      · rw [List.append_assoc earlier] at hskipped
        exact .inr hskipped

/-! ### The tokens of a source -/

/-- Tokens tile a source: they stand on it in order, end with the one `eof` at its end, cover
all but blanks inside tags and backslashes in front of escaped braces, and those for text
cover their text, with at most one backslash more. -/
structure Tiling (source : String) (ts : List Token) : Prop where
  ends : ∃ init, ts = init ++ [⟨.eof, .point (byteLength source.toList)⟩] ∧
    ∀ t ∈ init, t.kind ≠ .eof
  cuts : ∀ t ∈ ts, t.span.start ≤ t.span.stop ∧ Text.Cut source.toList t.span.start ∧
    Text.Cut source.toList t.span.stop
  ordered : ts.Pairwise fun a b => a.span.stop ≤ b.span.start
  skipped : ∀ offset < byteLength source.toList, (∀ t ∈ ts, t.span.contains offset = false) →
    Skipped source.toList ts offset
  value : ∀ t ∈ ts, ∀ value, t.kind = .content value → ∃ front back,
    source.toList = front ++ value.toList ++ back ∧ t.span.start = byteLength front ∧
      (t.span.stop = byteLength (front ++ value.toList) ∨
        t.span.stop = byteLength (front ++ value.toList) + 1 ∧ ['\\', '{', '{'] <+: back)

/-- The tokens of a source tile it, and no rule asks for more than there is to read. -/
theorem lex_tiling {source : String} (hlength : byteLength source.toList < 2 ^ 32) :
    (∀ c rest, (tagLexeme c rest).more ≤ rest.length) ∧ Tiling source (lex source) := by
  have hmax : byteLength source.toList ≤ maxOffset := Nat.le_of_lt_succ hlength
  have htiles : Tiles false [] source.toList (lex source) :=
    lexFrom_tiles .content 0 source.toList false [] rfl hmax fun _ => by simp
  refine ⟨fun c rest => Nat.le_of_lt_succ (tagLexeme_fits c rest).more_lt, ?_⟩
  refine ⟨?ends, fun t ht => ⟨(htiles.start_le t ht).2, lex_cuts hmax t ht⟩, htiles.pairwise,
    fun offset hoffset huncovered => ?skipped, htiles.value⟩
  case ends =>
    obtain ⟨init, stop, htokens, hinit⟩ := lex_ends source
    have hlast := htiles.getLast?
    rw [htokens, List.getLast?_concat, Option.some.injEq] at hlast
    exact ⟨init, by rw [htokens, hlast, List.nil_append], hinit⟩
  case skipped =>
    rcases htiles.covered_or_skipped [] (by simp) (by simp) (Nat.zero_le _) hoffset with
      ⟨t, ht, hcovered⟩ | hskipped
    · rw [huncovered t ht] at hcovered
      cases hcovered
    · exact hskipped

/-- A text that ends with a backslash before a tag with blanks in it, and escaped braces with
another pair behind them. -/
theorem lex_tiling_escapes :
    let source := "a\\\\\x7b\x7b b \x7d\x7d\\\x7b\x7bc\\\x7b\x7b"
    (lex source).map (fun t => (t.span.start, t.span.stop))
        = [(0, 3), (3, 5), (6, 7), (8, 10), (11, 14), (15, 17), (17, 17)] ∧
      byteLength source.toList < 2 ^ 32 ∧
      (∀ c rest, (tagLexeme c rest).more ≤ rest.length) ∧ Tiling source (lex source) := by
  intro source
  have hlength : byteLength source.toList < 2 ^ 32 := by decide
  exact ⟨by decide +kernel, hlength, lex_tiling hlength⟩

end TemplateCompiler.Mustache
