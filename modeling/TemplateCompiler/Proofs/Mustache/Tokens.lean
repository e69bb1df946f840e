/-
The tokens of a source, in order.

* `Token.Placed` — the span of a token has room for what it carries;
* `InOrder` — tokens one after the other between two offsets;
* `lex_inOrder` — so are the tokens of a source, from its start to its end;
* `lex_ends` — they end with `eof`, which is found nowhere else.
-/
import TemplateCompiler.Proofs.Mustache.Text

namespace TemplateCompiler.Mustache

/-! ### Order -/

/-- The span of a token: it has room for a text as far as offsets are held, and
only `eof` may be where nothing was read yet. -/
structure Token.Placed (t : Token) : Prop where
  start_le : t.span.start ≤ t.span.stop
  stop_pos : t.kind ≠ .eof → 0 < t.span.stop
  room : ∀ text, t.kind = .content text → t.span.start ≤ maxOffset ∧
    min (t.span.start + Text.byteLength text.toList) maxOffset ≤ t.span.stop

/-- Tokens stand one after the other between two offsets. -/
def InOrder (lo : Nat) : List Token → Nat → Prop
  | [], hi => lo ≤ hi
  | t :: rest, hi => lo ≤ t.span.start ∧ t.Placed ∧ InOrder t.span.stop rest hi

theorem InOrder.le {lo hi : Nat} {ts : List Token} (h : InOrder lo ts hi) : lo ≤ hi := by
  induction ts generalizing lo with
  | nil => exact h
  | cons t rest ih =>
    obtain ⟨hstart, hspan, hrest⟩ := h
    exact Nat.le_trans hstart (Nat.le_trans hspan.start_le (ih hrest))

theorem InOrder.mono {lo lo' hi : Nat} {ts : List Token} (h : InOrder lo ts hi) (hle : lo' ≤ lo) :
    InOrder lo' ts hi := by
  cases ts with
  | nil => exact Nat.le_trans hle h
  | cons t rest => exact ⟨Nat.le_trans hle h.1, h.2⟩

theorem InOrder.weaken {lo hi hi' : Nat} {ts : List Token} (h : InOrder lo ts hi) (hle : hi ≤ hi') :
    InOrder lo ts hi' := by
  induction ts generalizing lo with
  | nil => exact Nat.le_trans h hle
  | cons t rest ih => exact ⟨h.1, h.2.1, ih h.2.2⟩

theorem inOrder_append {lo hi : Nat} {ts us : List Token} :
    InOrder lo (ts ++ us) hi ↔ ∃ mid, InOrder lo ts mid ∧ InOrder mid us hi := by
  induction ts generalizing lo with
  | nil =>
    constructor
    · intro h
      exact ⟨lo, Nat.le_refl lo, h⟩
    · rintro ⟨mid, hle, h⟩
      exact h.mono hle
  | cons t ts ih =>
    simp only [List.cons_append, InOrder, ih]
    constructor
    · rintro ⟨hstart, hspan, mid, hts, hus⟩
      exact ⟨mid, ⟨hstart, hspan, hts⟩, hus⟩
    · rintro ⟨mid, ⟨hstart, hspan, hts⟩, hus⟩
      exact ⟨hstart, hspan, mid, hts, hus⟩

theorem byteLength_pos {value : List Char} (h : value ≠ []) : 0 < Text.byteLength value := by
  cases value with
  | nil => exact absurd rfl h
  | cons c rest =>
    rw [Text.byteLength_cons]
    exact Nat.add_pos_left c.utf8Size_pos _

theorem byteLength_dropLast_le (value : List Char) :
    Text.byteLength value.dropLast ≤ Text.byteLength value := by
  cases value with
  | nil => exact Nat.le_refl _
  | cons c rest =>
    conv => rhs; rw [← List.dropLast_concat_getLast (List.cons_ne_nil c rest)]
    rw [Text.byteLength_append]
    exact Nat.le_add_right _ _

/-- A token that reads something, and no text. -/
theorem placed_of_not_content {kind : TokenKind} {start stop : Nat} (h : start < stop)
    (hkind : ∀ text, kind ≠ .content text) : Token.Placed ⟨kind, .ofOffsets start stop⟩ := by
  have hmax : 0 < maxOffset := by decide
  refine ⟨?_, fun _ => ?_, fun text htext => absurd htext (hkind text)⟩
  · show min start maxOffset ≤ min stop maxOffset
    omega
  · show 0 < min stop maxOffset
    omega

theorem contentTokens_inOrder {value : List Char} {start stop : Nat}
    (h : start + Text.byteLength value ≤ stop) :
    InOrder (min start maxOffset) (contentTokens value start stop) (min stop maxOffset) := by
  have hmin : min start maxOffset ≤ min stop maxOffset := by omega
  rw [contentTokens]
  split
  · exact hmin
  · next hvalue =>
    have hpos : 0 < Text.byteLength value := byteLength_pos (by simpa using hvalue)
    have hmax : 0 < maxOffset := by decide
    refine ⟨Nat.le_refl _, ⟨hmin, fun _ => ?_, fun text htext => ?_⟩, Nat.le_refl _⟩
    · show 0 < min stop maxOffset
      omega
    · obtain rfl : String.ofList value = text := TokenKind.content.inj htext
      rw [String.toList_ofList]
      show min start maxOffset ≤ maxOffset ∧
        min (min start maxOffset + Text.byteLength value) maxOffset ≤ min stop maxOffset
      omega

theorem eof_placed (offset : Nat) : Token.Placed ⟨.eof, .ofOffsets offset offset⟩ :=
  ⟨Nat.le_refl _, fun h => absurd rfl h, fun _ h => by cases h⟩

/-- The tokens of the rest of a template, up to the end of the template. -/
theorem lexFrom_inOrder (mode : Mode) (offset : Nat) (input : List Char) :
    InOrder (min offset maxOffset) (lexFrom mode offset input)
      (min (offset + Text.byteLength input) maxOffset) := by
  -- A backslash in front of braces is read, but is no part of the text.
  have hdrop : ∀ {offset : Nat} (text : List Char),
      offset + Text.byteLength text.dropLast ≤ offset + Text.byteLength text :=
    fun text => Nat.add_le_add_left (byteLength_dropLast_le text) _
  fun_induction lexFrom mode offset input with
  -- Text up to the end.
  | case1 offset input text stop h =>
    have hinput : text ++ [] = input := append_of_splitAtBraces h
    rw [← hinput, List.append_nil]
    exact inOrder_append.mpr ⟨_, contentTokens_inOrder (Nat.le_refl _),
      Nat.le_refl _, eof_placed _, Nat.le_refl _⟩
  -- A tag behind two backslashes.
  | case2 offset input text stop brace rest h hdouble ih =>
    have hinput : text ++ brace :: rest = input := append_of_splitAtBraces h
    rw [← hinput, Text.byteLength_append, ← Nat.add_assoc]
    exact inOrder_append.mpr ⟨_, contentTokens_inOrder (hdrop text), ih⟩
  -- Braces behind one backslash.
  | case3 offset input text stop brace rest h hdouble hsingle escaped next ih =>
    have hinput : text ++ brace :: rest = input := append_of_splitAtBraces h
    have htail : escaped ++ rest.drop (escaped.length - 1) = brace :: rest :=
      escapedText_append brace rest
    rw [← hinput, ← htail, Text.byteLength_append, Text.byteLength_append, ← Nat.add_assoc,
      ← Nat.add_assoc, List.append_assoc]
    exact inOrder_append.mpr ⟨_, contentTokens_inOrder (hdrop text),
      inOrder_append.mpr ⟨_, contentTokens_inOrder (Nat.le_refl _), ih⟩⟩
  -- A tag behind other text.
  | case4 offset input text stop brace rest h hdouble hsingle ih =>
    have hinput : text ++ brace :: rest = input := append_of_splitAtBraces h
    rw [← hinput, Text.byteLength_append, ← Nat.add_assoc]
    exact inOrder_append.mpr ⟨_, contentTokens_inOrder (Nat.le_refl _), ih⟩
  -- The end, inside a tag.
  | case5 offset input start h =>
    have hbytes : offset + Text.byteLength input = start := by
      rw [← takeWhile_blank_of_dropWhile h]
    rw [hbytes]
    refine ⟨?_, eof_placed start, Nat.le_refl _⟩
    show min offset maxOffset ≤ min start maxOffset
    omega
  -- A token of a tag.
  | case6 offset input start c rest h lexeme stop ih =>
    have hinput := append_of_dropWhile_blank h lexeme.more
    have hbytes : offset + Text.byteLength input
        = stop + Text.byteLength (rest.drop lexeme.more) := by
      rw [← hinput, Text.byteLength_append, Text.byteLength_append]
      omega
    rw [hbytes]
    have hstart : min offset maxOffset ≤ min start maxOffset := by omega
    have hstop : start < stop := Nat.lt_add_of_pos_right (byteLength_pos (by simp))
    exact ⟨hstart, placed_of_not_content hstop (tagLexeme_inTag c rest).ne_content, ih⟩

/-- The tokens of a source stand in order from its start to its end. -/
theorem lex_inOrder (source : String) :
    InOrder 0 (lex source) (min (Text.byteLength source.toList) maxOffset) := by
  have h := lexFrom_inOrder .content 0 source.toList
  rw [Nat.zero_min, Nat.zero_add] at h
  exact h

/-! ### The end -/

/-- Tokens end with `eof`, and none before it is. -/
def Ends (ts : List Token) : Prop :=
  ∃ init stop, ts = init ++ [⟨.eof, .point stop⟩] ∧ ∀ t ∈ init, t.kind ≠ .eof

theorem Ends.after {front ts : List Token} (hfront : ∀ t ∈ front, t.kind ≠ .eof) (h : Ends ts) :
    Ends (front ++ ts) := by
  obtain ⟨init, stop, rfl, hinit⟩ := h
  exact ⟨front ++ init, stop, by rw [List.append_assoc], List.forall_mem_append.mpr ⟨hfront, hinit⟩⟩

theorem contentTokens_not_eof (value : List Char) (start stop : Nat) :
    ∀ t ∈ contentTokens value start stop, t.kind ≠ .eof := by
  rw [contentTokens]
  split <;> simp

theorem lexFrom_ends (mode : Mode) (offset : Nat) (input : List Char) :
    Ends (lexFrom mode offset input) := by
  fun_induction lexFrom mode offset input with
  -- Text up to the end.
  | case1 offset input text stop h =>
    exact Ends.after (contentTokens_not_eof _ _ _) ⟨[], _, rfl, by simp⟩
  -- A tag behind two backslashes.
  | case2 offset input text stop brace rest h hdouble ih =>
    exact ih.after (contentTokens_not_eof _ _ _)
  -- Braces behind one backslash.
  | case3 offset input text stop brace rest h hdouble hsingle escaped next ih =>
    exact ih.after (List.forall_mem_append.mpr
      ⟨contentTokens_not_eof _ _ _, contentTokens_not_eof _ _ _⟩)
  -- A tag behind other text.
  | case4 offset input text stop brace rest h hdouble hsingle ih =>
    exact ih.after (contentTokens_not_eof _ _ _)
  -- The end, inside a tag.
  | case5 offset input start h => exact ⟨[], _, rfl, by simp⟩
  -- A token of a tag.
  | case6 offset input start c rest h lexeme stop ih =>
    have hfirst : ∀ t ∈ [(⟨lexeme.kind, .ofOffsets start stop⟩ : Token)], t.kind ≠ .eof :=
      List.forall_mem_singleton.mpr (tagLexeme_inTag c rest).ne_eof
    exact ih.after hfirst

theorem lex_ends (source : String) : Ends (lex source) := lexFrom_ends .content 0 source.toList

end TemplateCompiler.Mustache
