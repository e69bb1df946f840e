/-
Tokens that open and close tags in turn.

* `Tagged` — tokens in their order, with whether each stands in a tag or between
  tags;
* `statements_tagged` — the tokens of a derivation do, from one place between tags to
  another;
* `parseProgram_valid` — a program has no token that the lexer gave up with.
-/
import TemplateCompiler.Proofs.Mustache.Kinds
import TemplateCompiler.Proofs.Mustache.Unambiguity

namespace TemplateCompiler.Mustache

/-! ### Tags in turn -/

/-- Tokens that open and close tags in turn. -/
inductive Tagged : Mode → List Token → Mode → Prop
  | nil {mode : Mode} : Tagged mode [] mode
  | whole {t : Token} {ts : List Token} {mode : Mode} (ht : t.kind.isWhole = true)
    (h : Tagged .content ts mode) : Tagged .content (t :: ts) mode
  | opens {t : Token} {ts : List Token} {mode : Mode} (ht : t.kind.opensTag = true)
    (h : Tagged .tag ts mode) : Tagged .content (t :: ts) mode
  | word {t : Token} {ts : List Token} {mode : Mode} (ht : t.kind.isWord = true)
    (h : Tagged .tag ts mode) : Tagged .tag (t :: ts) mode
  | closes {t : Token} {ts : List Token} {mode : Mode} (ht : t.kind.closesTag = true)
    (h : Tagged .content ts mode) : Tagged .tag (t :: ts) mode

namespace Tagged

variable {mode mode₁ mode' : Mode} {ts us : List Token}

theorem append (h : Tagged mode ts mode₁) (h' : Tagged mode₁ us mode') :
    Tagged mode (ts ++ us) mode' := by
  induction h with
  | nil => exact h'
  | whole ht _ ih => exact .whole ht (ih h')
  | opens ht _ ih => exact .opens ht (ih h')
  | word ht _ ih => exact .word ht (ih h')
  | closes ht _ ih => exact .closes ht (ih h')

theorem split (h : Tagged mode (ts ++ us) mode') :
    ∃ mode₁, Tagged mode ts mode₁ ∧ Tagged mode₁ us mode' := by
  induction ts generalizing mode with
  | nil => exact ⟨mode, .nil, h⟩
  | cons t ts ih =>
    cases h with
    | whole ht h =>
      obtain ⟨mode₁, hts, hus⟩ := ih h
      exact ⟨mode₁, .whole ht hts, hus⟩
    | opens ht h =>
      obtain ⟨mode₁, hts, hus⟩ := ih h
      exact ⟨mode₁, .opens ht hts, hus⟩
    | word ht h =>
      obtain ⟨mode₁, hts, hus⟩ := ih h
      exact ⟨mode₁, .word ht hts, hus⟩
    | closes ht h =>
      obtain ⟨mode₁, hts, hus⟩ := ih h
      exact ⟨mode₁, .closes ht hts, hus⟩

/-- No token that the lexer gave up with. -/
theorem valid (h : Tagged mode ts mode') : ∀ t ∈ ts, t.kind.isInvalid = false := by
  induction h with
  | nil => simp
  | @whole t _ _ ht _ ih | @opens t _ _ ht _ ih | @word t _ _ ht _ ih | @closes t _ _ ht _ ih =>
    refine List.forall_mem_cons.mpr ⟨?_, ih⟩
    cases hkind : t.kind with
    | invalid c =>
      rw [hkind] at ht
      cases ht
    | _ => rfl

/-- Words stay inside a tag. -/
theorem of_words (h : ∀ t ∈ ts, t.kind.isWord = true) : Tagged .tag ts .tag := by
  induction ts with
  | nil => exact .nil
  | cons t ts ih =>
    rw [List.forall_mem_cons] at h
    exact .word h.1 (ih h.2)

/-- A tag with words in it. -/
theorem of_tag {mark close : Token} (hmark : mark.kind.opensTag = true)
    (h : ∀ t ∈ ts, t.kind.isWord = true) (hclose : close.kind.closesTag = true) :
    Tagged .content (mark :: (ts ++ [close])) .content :=
  .opens hmark ((of_words h).append (.closes hclose .nil))

end Tagged

/-! ### Words -/

theorem tailTokens_words (rest : List (Leaf Char × Leaf String)) :
    ∀ t ∈ tailTokens rest, t.kind.isWord = true := by
  induction rest with
  | nil => simp [tailTokens]
  | cons s rest ih =>
    simp only [tailTokens, List.forall_mem_cons]
    exact ⟨rfl, rfl, ih⟩

mutual

/-- An expression consists of words. -/
theorem ExprTree.words : (e : ExprTree) → ∀ t ∈ e.tokens, t.kind.isWord = true
  | .path ⟨data, first, rest⟩ => by
    rw [ExprTree.tokens, PathTree.tokens, List.forall_mem_append, List.forall_mem_cons]
    refine ⟨?_, rfl, tailTokens_words rest⟩
    intro t ht
    obtain ⟨span, -, rfl⟩ := List.mem_map.mp ht
    rfl
  | .literal value span => by
    rw [ExprTree.tokens]
    cases value <;> exact List.forall_mem_singleton.mpr rfl
  | .sub opening call closing => by
    rw [ExprTree.tokens, List.forall_mem_cons, List.forall_mem_append]
    exact ⟨rfl, callTokens_words call, List.forall_mem_singleton.mpr rfl⟩

theorem callTokens_words : (call : CallTree ExprTree) →
    ∀ t ∈ callTokens call, t.kind.isWord = true
  | ⟨callee, params, pairs⟩ => by
    rw [callTokens, List.forall_mem_append, List.forall_mem_append]
    exact ⟨callee.words, exprsTokens_words params, pairsTokens_words pairs⟩

theorem exprsTokens_words : (es : List ExprTree) → ∀ t ∈ exprsTokens es, t.kind.isWord = true
  | [] => by simp [exprsTokens]
  | e :: rest => by
    rw [exprsTokens, List.forall_mem_append]
    exact ⟨e.words, exprsTokens_words rest⟩

theorem pairsTokens_words : (ps : List (PairTree ExprTree)) →
    ∀ t ∈ pairsTokens ps, t.kind.isWord = true
  | [] => by simp [pairsTokens]
  | ⟨key, equals, value⟩ :: rest => by
    rw [pairsTokens, List.forall_mem_cons, List.forall_mem_cons, List.forall_mem_append]
    exact ⟨rfl, rfl, value.words, pairsTokens_words rest⟩

end

theorem paramsTokens_words (params : Option ParamsTree) :
    ∀ t ∈ paramsTokens params, t.kind.isWord = true := by
  cases params with
  | none => simp [paramsTokens]
  | some p =>
    rw [paramsTokens, ParamsTree.tokens, List.forall_mem_cons, List.forall_mem_append]
    refine ⟨rfl, fun t ht => ?_, List.forall_mem_singleton.mpr rfl⟩
    obtain ⟨name, -, rfl⟩ := List.mem_map.mp ht
    rfl

/-! ### Statements -/

theorem OpeningTree.tagged (o : OpeningTree) : Tagged .tag o.tokens .content :=
  (Tagged.of_words (callTokens_words o.call)).append
    ((Tagged.of_words (paramsTokens_words o.params)).append (.closes rfl .nil))

theorem ClosingTree.tagged (c : ClosingTree) : Tagged .content c.tokens .content :=
  .of_tag rfl c.name.words rfl

mutual

/-- A statement stands between tags, and opens and closes its own. -/
theorem StatementTree.tagged : (s : StatementTree) → Tagged .content s.tokens .content
  | .content text => by
    rw [StatementTree.tokens]
    exact .whole rfl .nil
  | .comment text => by
    rw [StatementTree.tokens]
    exact .whole rfl .nil
  | .mustache mark call close => by
    rw [StatementTree.tokens]
    exact .of_tag rfl (callTokens_words call) rfl
  | .unescaped mark call close => by
    rw [StatementTree.tokens]
    exact .of_tag rfl (callTokens_words call) rfl
  | .partialCall mark call close => by
    rw [StatementTree.tokens]
    exact .of_tag rfl (callTokens_words call) rfl
  | .block mark opening body inverse closing => by
    rw [StatementTree.tokens]
    exact .opens rfl (opening.tagged.append ((statements_tagged body).append
      ((other_tagged inverse).append closing.tagged)))

theorem statements_tagged : (ss : List StatementTree) →
    Tagged .content (statementsTokens ss) .content
  | [] => by
    rw [statementsTokens]
    exact .nil
  | s :: rest => by
    rw [statementsTokens]
    exact s.tagged.append (statements_tagged rest)

theorem InverseTree.tagged : (i : InverseTree) → Tagged .content i.tokens .content
  | .plain mark body => by
    rw [InverseTree.tokens]
    exact .whole rfl (statements_tagged body)
  | .chain mark opening body inverse => by
    rw [InverseTree.tokens]
    exact .opens rfl (opening.tagged.append ((statements_tagged body).append
      (other_tagged inverse)))

theorem other_tagged : (i : Option InverseTree) → Tagged .content (otherTokens i) .content
  | none => by
    rw [otherTokens]
    exact .nil
  | some i => by
    rw [otherTokens]
    exact i.tagged

end

/-- A program has no token that the lexer gave up with. -/
theorem parseProgram_valid {ts : List Token} {p : Program} (hends : Ends ts)
    (h : parseProgram ts = .ok p) : ∀ t ∈ ts, t.kind.isInvalid = false := by
  obtain ⟨⟨body, eof⟩, rfl, -, -⟩ := parseProgram_sound hends h
  rw [RootTree.tokens, List.forall_mem_append]
  exact ⟨(statements_tagged body).valid, List.forall_mem_singleton.mpr rfl⟩

end TemplateCompiler.Mustache
