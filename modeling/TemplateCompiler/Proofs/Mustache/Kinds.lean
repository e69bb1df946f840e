/-
Kinds of tokens, by where they stand.

* `TokenKind.opensTag`, `isWord`, `closesTag`, `isWhole` — what begins a tag, stands
  in one, ends one, or is a whole one;
* `tagLexeme_inTag` — a token that is looked for inside a tag is no text and not the
  end;
* `tagLexeme_ends` — the tag ends with the tokens that close it or are a whole one;
* `tagLexeme_opens` — only braces open a tag.
-/
import TemplateCompiler.Mustache.Lexer

namespace TemplateCompiler.Mustache

namespace TokenKind

/-- A token inside a tag is neither text nor the end. -/
def InTag : TokenKind → Prop
  | .content _ | .eof => False
  | _ => True

theorem InTag.ne_content {k : TokenKind} (h : k.InTag) (value : String) : k ≠ .content value := by
  rintro rfl
  exact h

theorem InTag.ne_eof {k : TokenKind} (h : k.InTag) : k ≠ .eof := by
  rintro rfl
  exact h

/-- A kind of token that a tag begins with. -/
def opensTag : TokenKind → Bool
  | .open _ _ | .openUnescaped _ | .openBlock _ | .openEndBlock _ | .openInverseChain _
  | .openPartial _ => true
  | _ => false

/-- A kind of token that stands inside a tag. -/
def isWord : TokenKind → Bool
  | .openSexpr | .closeSexpr | .equals | .data | .sep _ | .id _ | .string _ | .number _ | .boolean _
  | .undefined | .null | .openBlockParams | .closeBlockParams => true
  | _ => false

/-- A kind of token that ends a tag. -/
def closesTag : TokenKind → Bool
  | .close _ | .closeUnescaped _ => true
  | _ => false

/-- A kind of token that stands between tags, or is a whole one. -/
def isWhole : TokenKind → Bool
  | .content _ | .comment _ _ | .inverse _ => true
  | _ => false

/-- A kind of token that the lexer gives up with. -/
def isInvalid : TokenKind → Bool
  | .invalid _ => true
  | _ => false

end TokenKind

/-! ### What the rules find -/

/-- A token that stands in a tag or closes it, or that the lexer gives up with. -/
def Lexeme.isInner (l : Lexeme) : Bool :=
  if l.ends then l.kind.closesTag else l.kind.isWord || l.kind.isInvalid

/-- A token that opens a tag or is a whole one, or that the lexer gives up with. -/
def Lexeme.isOuter (l : Lexeme) : Bool :=
  match l.kind with
  | .comment _ _ | .inverse _ => l.ends
  | .openInverse _ | .openPartialBlock | .openDecorator | .openDecoratorBlock | .openRawBlock =>
      !l.ends
  | kind => (kind.opensTag || kind.isInvalid) && !l.ends

theorem commentLexeme_outer (input : List Char) (long : Bool) :
    (commentLexeme input long).isOuter = true := by
  rw [commentLexeme]
  split <;> rfl

theorem openLexeme_outer (input : List Char) (strip : Bool) (base : Nat) (tail : List Char) :
    (openLexeme input strip base tail).isOuter = true := by
  unfold openLexeme
  repeat' split
  all_goals first
    | exact commentLexeme_outer _ _
    | rfl

theorem openRule_outer {input : List Char} {l : Lexeme} (h : openRule input = some l) :
    l.isOuter = true := by
  unfold openRule at h
  split at h <;> cases h
  · rfl
  · exact openLexeme_outer _ _ _ _
  · exact openLexeme_outer _ _ _ _

/-- All rules but the one for opening braces find what stands in a tag or closes it. -/
theorem innerRules_inner {rule : Rule} (hrule : rule ∈ tagRules.tail) {input : List Char}
    {l : Lexeme}
    (h : rule input = some l) : l.isInner = true := by
  simp only [tagRules, List.tail_cons, List.mem_cons, List.not_mem_nil, or_false] at hrule
  -- One case for each rule, in the order of the table.
  rcases hrule with rfl | rfl | rfl | rfl | rfl | rfl | rfl | rfl | rfl | rfl | rfl
  · unfold punctuationRule at h
    split at h <;> cases h <;> rfl
  · unfold dotRule at h
    split at h <;> cases h
    · rfl
    · split <;> rfl
    · rfl
  · unfold closeRule at h
    split at h <;> cases h <;> rfl
  · unfold stringRule at h
    repeat' split at h
    all_goals cases h
    all_goals rfl
  · unfold dataRule at h
    split at h <;> cases h
    rfl
  · obtain ⟨⟨word, kind⟩, hmem, hword⟩ := List.exists_of_findSome?_eq_some h
    -- The words that are values are in a table of their own.
    have hkind : kind.isWord = true := by
      simp only [valueWords, List.mem_cons, List.not_mem_nil, Prod.mk.injEq, or_false] at hmem
      rcases hmem with ⟨-, rfl⟩ | ⟨-, rfl⟩ | ⟨-, rfl⟩ | ⟨-, rfl⟩ <;> rfl
    simp only at hword
    repeat' split at hword
    all_goals cases hword
    simp [Lexeme.isInner, hkind]
  · obtain ⟨-, h⟩ := Option.ite_none_right_eq_some.mp h
    cases h
    rfl
  · unfold openBlockParamsRule at h
    split at h
    · simp only at h
      split at h
      · obtain ⟨-, h⟩ := Option.ite_none_right_eq_some.mp h
        cases h
        rfl
      · cases h
    · cases h
  · unfold barRule at h
    split at h <;> cases h
    rfl
  · obtain ⟨-, h⟩ := Option.ite_none_right_eq_some.mp h
    cases h
    rfl
  · unfold bracketRule at h
    split at h
    · obtain ⟨length, -, rfl⟩ := Option.map_eq_some_iff.mp h
      rfl
    · cases h

/-- A token is found by the rule for opening braces, or by another, or by none. -/
theorem tagLexeme_cases (c : Char) (rest : List Char) :
    (openRule (c :: rest) = some (tagLexeme c rest) ∧ (tagLexeme c rest).isOuter = true) ∨
      (tagLexeme c rest).isInner = true := by
  rw [tagLexeme]
  cases hfound : tagRules.findSome? (· (c :: rest)) with
  | none => exact .inr rfl
  | some l =>
    rw [tagRules, List.findSome?_cons] at hfound
    cases hopen : openRule (c :: rest) with
    | some l' =>
      rw [hopen] at hfound
      cases hfound
      exact .inl ⟨rfl, openRule_outer hopen⟩
    | none =>
      rw [hopen] at hfound
      obtain ⟨rule, hmem, hl⟩ := List.exists_of_findSome?_eq_some hfound
      exact .inr (innerRules_inner hmem hl)

theorem Lexeme.of_outer {l : Lexeme} (h : l.isOuter = true) :
    l.kind.InTag ∧ l.ends = (l.kind.isWhole || l.kind.closesTag) := by
  obtain ⟨kind, more, ends⟩ := l
  cases kind <;> cases ends <;> first
    | exact ⟨trivial, rfl⟩
    | cases h

theorem Lexeme.of_inner {l : Lexeme} (h : l.isInner = true) :
    l.kind.InTag ∧ l.ends = (l.kind.isWhole || l.kind.closesTag) ∧ l.kind.opensTag = false := by
  obtain ⟨kind, more, ends⟩ := l
  cases kind <;> cases ends <;> first
    | exact ⟨trivial, rfl, rfl⟩
    | cases h

theorem tagLexeme_inTag (c : Char) (rest : List Char) : (tagLexeme c rest).kind.InTag := by
  rcases tagLexeme_cases c rest with ⟨-, houter⟩ | hinner
  · exact (Lexeme.of_outer houter).1
  · exact (Lexeme.of_inner hinner).1

/-- A tag ends with what closes it, and with a token that is a whole tag. -/
theorem tagLexeme_ends (c : Char) (rest : List Char) :
    (tagLexeme c rest).ends
      = ((tagLexeme c rest).kind.isWhole || (tagLexeme c rest).kind.closesTag) := by
  rcases tagLexeme_cases c rest with ⟨-, houter⟩ | hinner
  · exact (Lexeme.of_outer houter).2
  · exact (Lexeme.of_inner hinner).2.1

/-- Only braces open a tag. -/
theorem tagLexeme_opens {c : Char} {rest : List Char}
    (h : (tagLexeme c rest).kind.opensTag = true) :
    openRule (c :: rest) = some (tagLexeme c rest) := by
  rcases tagLexeme_cases c rest with ⟨hopen, -⟩ | hinner
  · exact hopen
  · rw [(Lexeme.of_inner hinner).2.2] at h
    cases h

end TemplateCompiler.Mustache
