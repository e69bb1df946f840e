/-
The same tokens at other places.

A derivation can be moved to other places (`StatementTree.move`).  The way back is
open too: a derivation of moved tokens comes from a derivation of the tokens where
they were, so where tokens stand does not decide whether they spell a program.

* `StatementTree.lift` — the derivation where the tokens were;
* `parseProgram_lift` — tokens that spell a program when they are moved spell one of
  the same shape where they are.

Design notes: moving may put many tokens in one place, so there is no function back.
The derivation is rebuilt along the tokens instead, one rule of the grammar after
the other.
-/
import TemplateCompiler.Proofs.Mustache.Shapes

namespace TemplateCompiler.Mustache

section Lifting

variable {g : Nat → Nat}

/-- The first of some moved tokens, where it was. -/
theorem lift_token {kind : TokenKind} {span : Span} {rest ts : List Token}
    (h : ts.map (·.move g) = ⟨kind, span⟩ :: rest) :
    ∃ span' ts', ts = ⟨kind, span'⟩ :: ts' ∧ span'.move g = span ∧ ts'.map (·.move g) = rest := by
  obtain ⟨⟨kind', span'⟩, ts', rfl, ht, hrest⟩ := List.map_eq_cons_iff.mp h
  obtain ⟨rfl, hspan⟩ := Token.mk.inj ht
  exact ⟨span', ts', rfl, hspan, hrest⟩

theorem lift_last {kind : TokenKind} {span : Span} {ts : List Token}
    (h : ts.map (·.move g) = [⟨kind, span⟩]) :
    ∃ span', ts = [⟨kind, span'⟩] ∧ span'.move g = span := by
  obtain ⟨span', ts', rfl, hspan, hrest⟩ := lift_token h
  obtain rfl := List.map_eq_nil_iff.mp hrest
  exact ⟨span', rfl, hspan⟩

theorem lift_names {names : List (Leaf String)} {ts : List Token}
    (h : ts.map (·.move g) = namesTokens names) :
    ∃ names', namesTokens names' = ts ∧ names'.map (Leaf.move g) = names := by
  induction names generalizing ts with
  | nil =>
    obtain rfl := List.map_eq_nil_iff.mp h
    exact ⟨[], rfl, rfl⟩
  | cons name names ih =>
    obtain ⟨span, ts, rfl, hspan, hrest⟩ := lift_token h
    obtain ⟨names', rfl, rfl⟩ := ih hrest
    exact ⟨⟨name.value, span⟩ :: names', rfl, by simp [Leaf.move, hspan]⟩

theorem lift_tail {rest : List (Leaf Char × Leaf String)} {ts : List Token}
    (h : ts.map (·.move g) = tailTokens rest) :
    ∃ rest', tailTokens rest' = ts ∧ rest'.map (fun s => (s.1.move g, s.2.move g)) = rest := by
  induction rest generalizing ts with
  | nil =>
    obtain rfl := List.map_eq_nil_iff.mp h
    exact ⟨[], rfl, rfl⟩
  | cons s rest ih =>
    obtain ⟨mark, name⟩ := s
    obtain ⟨span, ts, rfl, hspan, h⟩ := lift_token h
    obtain ⟨span', ts, rfl, hspan', h⟩ := lift_token h
    obtain ⟨rest', rfl, rfl⟩ := ih h
    exact ⟨(⟨mark.value, span⟩, ⟨name.value, span'⟩) :: rest', rfl,
      by simp [Leaf.move, hspan, hspan']⟩

theorem PathTree.lift {p : PathTree} {ts : List Token} (h : ts.map (·.move g) = p.tokens) :
    ∃ p' : PathTree, p'.tokens = ts ∧ p'.move g = p := by
  obtain ⟨data, first, rest⟩ := p
  cases data with
  | none =>
    obtain ⟨span, ts, rfl, hspan, h⟩ := lift_token h
    obtain ⟨rest', rfl, rfl⟩ := lift_tail h
    exact ⟨⟨none, ⟨first.value, span⟩, rest'⟩, rfl, by simp [PathTree.move, Leaf.move, hspan]⟩
  | some data =>
    obtain ⟨span, ts, rfl, hspan, h⟩ := lift_token h
    obtain ⟨span', ts, rfl, hspan', h⟩ := lift_token h
    obtain ⟨rest', rfl, rfl⟩ := lift_tail h
    exact ⟨⟨some span, ⟨first.value, span'⟩, rest'⟩, rfl,
      by simp [PathTree.move, Leaf.move, hspan, hspan']⟩

mutual

theorem ExprTree.lift : (e : ExprTree) → {ts : List Token} → ts.map (·.move g) = e.tokens →
    ∃ e' : ExprTree, e'.tokens = ts ∧ e'.move g = e
  | .path p, ts, h => by
    rw [ExprTree.tokens] at h
    obtain ⟨p', htokens, rfl⟩ := PathTree.lift h
    exact ⟨.path p', by rw [ExprTree.tokens, htokens], by rw [ExprTree.move]⟩
  | .literal value span, ts, h => by
    rw [ExprTree.tokens] at h
    obtain ⟨span', rfl, rfl⟩ := lift_last h
    exact ⟨.literal value span', by rw [ExprTree.tokens], by rw [ExprTree.move]⟩
  | .sub opening call closing, ts, h => by
    rw [ExprTree.tokens] at h
    obtain ⟨opening', rest, rfl, rfl, hrest⟩ := lift_token h
    obtain ⟨inner, last, rfl, hcall, hlast⟩ := List.map_eq_append_iff.mp hrest
    obtain ⟨call', rfl, rfl⟩ := lift_call call hcall
    obtain ⟨closing', rfl, rfl⟩ := lift_last hlast
    exact ⟨.sub opening' call' closing', by rw [ExprTree.tokens], by rw [ExprTree.move]⟩

theorem lift_call : (call : CallTree ExprTree) → {ts : List Token} →
    ts.map (·.move g) = callTokens call →
      ∃ call' : CallTree ExprTree, callTokens call' = ts ∧ moveCall g call' = call
  | ⟨callee, params, pairs⟩, ts, h => by
    rw [callTokens] at h
    obtain ⟨ts, more, rfl, hcallee, h⟩ := List.map_eq_append_iff.mp h
    obtain ⟨us, vs, rfl, hparams, hpairs⟩ := List.map_eq_append_iff.mp h
    obtain ⟨callee', rfl, rfl⟩ := callee.lift hcallee
    obtain ⟨params', rfl, rfl⟩ := lift_exprs params hparams
    obtain ⟨pairs', rfl, rfl⟩ := lift_pairs pairs hpairs
    exact ⟨⟨callee', params', pairs'⟩, by rw [callTokens], by rw [moveCall]⟩

theorem lift_exprs : (es : List ExprTree) → {ts : List Token} → ts.map (·.move g) = exprsTokens es →
    ∃ es' : List ExprTree, exprsTokens es' = ts ∧ moveExprs g es' = es
  | [], ts, h => by
    rw [exprsTokens, List.map_eq_nil_iff] at h
    exact ⟨[], by rw [exprsTokens, h], by rw [moveExprs]⟩
  | e :: rest, ts, h => by
    rw [exprsTokens] at h
    obtain ⟨ts, us, rfl, he, hrest⟩ := List.map_eq_append_iff.mp h
    obtain ⟨e', rfl, rfl⟩ := e.lift he
    obtain ⟨rest', rfl, rfl⟩ := lift_exprs rest hrest
    exact ⟨e' :: rest', by rw [exprsTokens], by rw [moveExprs]⟩

theorem lift_pairs : (ps : List (PairTree ExprTree)) → {ts : List Token} →
    ts.map (·.move g) = pairsTokens ps →
      ∃ ps' : List (PairTree ExprTree), pairsTokens ps' = ts ∧ movePairs g ps' = ps
  | [], ts, h => by
    rw [pairsTokens, List.map_eq_nil_iff] at h
    exact ⟨[], by rw [pairsTokens, h], by rw [movePairs]⟩
  | ⟨key, equals, value⟩ :: rest, ts, h => by
    rw [pairsTokens] at h
    obtain ⟨key', ts₁, rfl, hkey, h₁⟩ := lift_token h
    obtain ⟨equals', ts₂, rfl, rfl, h₂⟩ := lift_token h₁
    obtain ⟨us, vs, rfl, hvalue, hrest⟩ := List.map_eq_append_iff.mp h₂
    obtain ⟨value', rfl, rfl⟩ := value.lift hvalue
    obtain ⟨rest', rfl, rfl⟩ := lift_pairs rest hrest
    exact ⟨⟨⟨key.value, key'⟩, equals', value'⟩ :: rest', by rw [pairsTokens],
      by rw [movePairs, Leaf.move, hkey]⟩

end

theorem OpeningTree.lift {o : OpeningTree} {ts : List Token} (h : ts.map (·.move g) = o.tokens) :
    ∃ o' : OpeningTree, o'.tokens = ts ∧ o'.move g = o := by
  obtain ⟨call, params, close⟩ := o
  rw [OpeningTree.tokens] at h
  obtain ⟨ts, more, rfl, hcall, h⟩ := List.map_eq_append_iff.mp h
  obtain ⟨us, vs, rfl, hparams, hclose⟩ := List.map_eq_append_iff.mp h
  obtain ⟨call', rfl, rfl⟩ := lift_call call hcall
  obtain ⟨close', rfl, hspan⟩ := lift_last hclose
  have hmove : (⟨close.value, close'⟩ : Leaf Bool).move g = close := by rw [Leaf.move, hspan]
  cases params with
  | none =>
    obtain rfl := List.map_eq_nil_iff.mp hparams
    exact ⟨⟨call', none, ⟨close.value, close'⟩⟩, rfl, by rw [OpeningTree.move, hmove]; rfl⟩
  | some p =>
    obtain ⟨opening, first, rest, closing⟩ := p
    rw [paramsTokens, ParamsTree.tokens] at hparams
    obtain ⟨opening', inner, rfl, rfl, hinner⟩ := lift_token hparams
    obtain ⟨names, last, rfl, hnames, hlast⟩ := List.map_eq_append_iff.mp hinner
    obtain ⟨names', rfl, hmoved⟩ := lift_names hnames
    obtain ⟨closing', rfl, rfl⟩ := lift_last hlast
    -- There is at least one name, and moving keeps how many there are.
    cases names' with
    | nil => cases hmoved
    | cons first' rest' =>
      obtain ⟨rfl, rfl⟩ := List.cons.inj hmoved
      exact ⟨⟨call', some ⟨opening', first', rest', closing'⟩, ⟨close.value, close'⟩⟩, rfl,
        by rw [OpeningTree.move, hmove]; rfl⟩

theorem ClosingTree.lift {c : ClosingTree} {ts : List Token} (h : ts.map (·.move g) = c.tokens) :
    ∃ c' : ClosingTree, c'.tokens = ts ∧ c'.move g = c := by
  obtain ⟨mark, name, close⟩ := c
  rw [ClosingTree.tokens] at h
  obtain ⟨mark', ts, rfl, hmark, h⟩ := lift_token h
  obtain ⟨ts, last, rfl, hname, hlast⟩ := List.map_eq_append_iff.mp h
  obtain ⟨name', rfl, rfl⟩ := name.lift hname
  obtain ⟨close', rfl, hclose⟩ := lift_last hlast
  exact ⟨⟨⟨mark.value, mark'⟩, name', ⟨close.value, close'⟩⟩, rfl,
    by simp only [ClosingTree.move, Leaf.move, hmark, hclose]⟩

/-- A tag with a call between two tokens. -/
theorem lift_tag {kind kind' : TokenKind} {mark close : Span} {call : CallTree ExprTree}
    {ts : List Token}
    (h : ts.map (·.move g) = ⟨kind, mark⟩ :: (callTokens call ++ [⟨kind', close⟩])) :
    ∃ mark' call' close', ts = ⟨kind, mark'⟩ :: (callTokens call' ++ [⟨kind', close'⟩]) ∧
      mark'.move g = mark ∧ moveCall g call' = call ∧ close'.move g = close := by
  obtain ⟨mark', rest, rfl, hmark, hrest⟩ := lift_token h
  obtain ⟨inner, last, rfl, hcall, hlast⟩ := List.map_eq_append_iff.mp hrest
  obtain ⟨call', rfl, hcall'⟩ := lift_call call hcall
  obtain ⟨close', rfl, hclose⟩ := lift_last hlast
  exact ⟨mark', call', close', rfl, hmark, hcall', hclose⟩

mutual

/-- A derivation of moved tokens comes from one of the tokens where they were. -/
theorem StatementTree.lift : (s : StatementTree) → {ts : List Token} →
    ts.map (·.move g) = s.tokens → ∃ s' : StatementTree, s'.tokens = ts ∧ s'.move g = s
  | .content text, ts, h => by
    rw [StatementTree.tokens] at h
    obtain ⟨span, rfl, hspan⟩ := lift_last h
    exact ⟨.content ⟨text.value, span⟩, by rw [StatementTree.tokens],
      by rw [StatementTree.move, Leaf.move, hspan]⟩
  | .comment text, ts, h => by
    rw [StatementTree.tokens] at h
    obtain ⟨span, rfl, hspan⟩ := lift_last h
    exact ⟨.comment ⟨text.value, span⟩, by rw [StatementTree.tokens],
      by rw [StatementTree.move, Leaf.move, hspan]⟩
  | .mustache mark call close, ts, h => by
    rw [StatementTree.tokens] at h
    obtain ⟨mark', call', close', rfl, hmark, rfl, hclose⟩ := lift_tag h
    exact ⟨.mustache ⟨mark.value, mark'⟩ call' ⟨close.value, close'⟩,
      by rw [StatementTree.tokens]; rfl,
      by rw [StatementTree.move, Leaf.move, Leaf.move, hmark, hclose]⟩
  | .unescaped mark call close, ts, h => by
    rw [StatementTree.tokens] at h
    obtain ⟨mark', call', close', rfl, hmark, rfl, hclose⟩ := lift_tag h
    exact ⟨.unescaped ⟨mark.value, mark'⟩ call' ⟨close.value, close'⟩, by rw [StatementTree.tokens],
      by rw [StatementTree.move, Leaf.move, Leaf.move, hmark, hclose]⟩
  | .partialCall mark call close, ts, h => by
    rw [StatementTree.tokens] at h
    obtain ⟨mark', call', close', rfl, hmark, rfl, hclose⟩ := lift_tag h
    exact ⟨.partialCall ⟨mark.value, mark'⟩ call' ⟨close.value, close'⟩,
      by rw [StatementTree.tokens]; rfl,
      by rw [StatementTree.move, Leaf.move, Leaf.move, hmark, hclose]⟩
  | .block mark opening body inverse closing, ts, h => by
    rw [StatementTree.tokens] at h
    -- The tokens of a block are taken apart in the order in which they are read.
    obtain ⟨mark', ts₁, rfl, hmark, h₁⟩ := lift_token h
    obtain ⟨os, ts₂, rfl, hopening, h₂⟩ := List.map_eq_append_iff.mp h₁
    obtain ⟨bs, ts₃, rfl, hbody, h₃⟩ := List.map_eq_append_iff.mp h₂
    obtain ⟨is, cs, rfl, hother, hclosing⟩ := List.map_eq_append_iff.mp h₃
    obtain ⟨opening', rfl, rfl⟩ := OpeningTree.lift hopening
    obtain ⟨body', rfl, rfl⟩ := lift_statements body hbody
    obtain ⟨inverse', rfl, rfl⟩ := lift_other inverse hother
    obtain ⟨closing', rfl, rfl⟩ := ClosingTree.lift hclosing
    exact ⟨.block ⟨mark.value, mark'⟩ opening' body' inverse' closing',
      by rw [StatementTree.tokens],
      by rw [StatementTree.move, Leaf.move, hmark]⟩

theorem lift_statements : (ss : List StatementTree) → {ts : List Token} →
    ts.map (·.move g) = statementsTokens ss →
      ∃ ss' : List StatementTree, statementsTokens ss' = ts ∧ moveStatements g ss' = ss
  | [], ts, h => by
    rw [statementsTokens, List.map_eq_nil_iff] at h
    exact ⟨[], by rw [statementsTokens, h], by rw [moveStatements]⟩
  | s :: rest, ts, h => by
    rw [statementsTokens] at h
    obtain ⟨us, vs, rfl, hs, hrest⟩ := List.map_eq_append_iff.mp h
    obtain ⟨s', rfl, rfl⟩ := s.lift hs
    obtain ⟨rest', rfl, rfl⟩ := lift_statements rest hrest
    exact ⟨s' :: rest', by rw [statementsTokens], by rw [moveStatements]⟩

theorem InverseTree.lift : (i : InverseTree) → {ts : List Token} →
    ts.map (·.move g) = i.tokens → ∃ i' : InverseTree, i'.tokens = ts ∧ i'.move g = i
  | .plain mark body, ts, h => by
    rw [InverseTree.tokens] at h
    obtain ⟨mark', ts₁, rfl, hmark, hbody⟩ := lift_token h
    obtain ⟨body', rfl, rfl⟩ := lift_statements body hbody
    exact ⟨.plain ⟨mark.value, mark'⟩ body', by rw [InverseTree.tokens],
      by rw [InverseTree.move, Leaf.move, hmark]⟩
  | .chain mark opening body inverse, ts, h => by
    rw [InverseTree.tokens] at h
    obtain ⟨mark', ts₁, rfl, hmark, h₁⟩ := lift_token h
    obtain ⟨os, ts₂, rfl, hopening, h₂⟩ := List.map_eq_append_iff.mp h₁
    obtain ⟨bs, is, rfl, hbody, hother⟩ := List.map_eq_append_iff.mp h₂
    obtain ⟨opening', rfl, rfl⟩ := OpeningTree.lift hopening
    obtain ⟨body', rfl, rfl⟩ := lift_statements body hbody
    obtain ⟨inverse', rfl, rfl⟩ := lift_other inverse hother
    exact ⟨.chain ⟨mark.value, mark'⟩ opening' body' inverse', by rw [InverseTree.tokens],
      by rw [InverseTree.move, Leaf.move, hmark]⟩

theorem lift_other : (i : Option InverseTree) → {ts : List Token} →
    ts.map (·.move g) = otherTokens i →
      ∃ i' : Option InverseTree, otherTokens i' = ts ∧ moveOther g i' = i
  | none, ts, h => by
    rw [otherTokens, List.map_eq_nil_iff] at h
    exact ⟨none, by rw [otherTokens, h], by rw [moveOther]⟩
  | some i, ts, h => by
    rw [otherTokens] at h
    obtain ⟨i', rfl, rfl⟩ := i.lift h
    exact ⟨some i', by rw [otherTokens], by rw [moveOther]⟩

end

/-! ### Whole templates -/

/-- Tokens that spell a program when they are moved spell one of the same shape
where they are. -/
theorem parseProgram_lift {ts : List Token} (hends : Ends ts) {p : Program}
    (h : parseProgram (ts.map (·.move g)) = .ok p) :
    ∃ p', parseProgram ts = .ok p' ∧ programShape p' = programShape p := by
  obtain ⟨⟨body, eof⟩, htokens, hadmissible, rfl⟩ := parseProgram_sound hends.move h
  rw [RootTree.tokens] at htokens
  obtain ⟨us, last, rfl, hbody, hlast⟩ := List.map_eq_append_iff.mp htokens.symm
  obtain ⟨body', rfl, rfl⟩ := lift_statements body hbody
  obtain ⟨eof', rfl, rfl⟩ := lift_last hlast
  have hbody' : StatementsAdmissible body' := (statementsAdmissible_move body').mp hadmissible
  have hparse := parseProgram_complete (t := ⟨body', eof'⟩) hends hbody'
  obtain ⟨p', hmoved, hshape⟩ := parseProgram_move (g := g) hends hparse
  exact ⟨_, hparse, by rw [← hshape, Except.ok.inj (hmoved.symm.trans h)]⟩

end Lifting

end TemplateCompiler.Mustache
