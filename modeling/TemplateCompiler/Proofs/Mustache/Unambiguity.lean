/-
The grammar of tags is unambiguous, and its reader decides it.

* `expr_unique`, `call_unique`, `statements_unique` — tokens that may be followed
  by more are those of one derivation, which ends in one place;
* `parseProgram_eq_ok` — exactly the tokens of admissible derivations are read;
* `parseProgram_decides_grammar` — so for every source, and then the derivation is
  the only one.

Design notes: that two derivations spell the same tokens says nothing about where
their parts end.  The lemmas therefore compare tokens with what follows them, and
give back that the rests agree too; then each part starts where its counterpart
does.
-/
import TemplateCompiler.Proofs.Mustache.Completeness
import TemplateCompiler.Proofs.Mustache.Tokens

namespace TemplateCompiler.Mustache

open Template (Literal)

variable {r s : List Token}

/-! ### Expressions -/

theorem literalToken_injective {v w : Literal} (h : literalToken v = literalToken w) : v = w := by
  cases v <;> cases w <;> cases h <;> rfl

theorem tail_unique {xs ys : List (Leaf Char × Leaf String)}
    (h : tailTokens xs ++ r = tailTokens ys ++ s) (hr : (headKind r).endsExpr = true)
    (hs : (headKind s).endsExpr = true) : xs = ys ∧ r = s := by
  induction xs generalizing ys with
  | nil =>
    cases ys with
    | nil => exact ⟨rfl, h⟩
    | cons y ys =>
      replace h : r = _ := h
      rw [h] at hr
      cases hr
  | cons x xs ih =>
    cases ys with
    | nil =>
      replace h : _ = s := h
      rw [← h] at hs
      cases hs
    | cons y ys =>
      obtain ⟨⟨mark, markSpan⟩, ⟨name, nameSpan⟩⟩ := x
      obtain ⟨⟨mark', markSpan'⟩, ⟨name', nameSpan'⟩⟩ := y
      simp only [tailTokens, List.cons_append, List.cons.injEq, Token.mk.injEq, TokenKind.sep.injEq,
        TokenKind.id.injEq] at h
      obtain ⟨⟨rfl, rfl⟩, ⟨rfl, rfl⟩, h⟩ := h
      obtain ⟨rfl, hrest⟩ := ih h
      exact ⟨rfl, hrest⟩

theorem path_unique {p q : PathTree} (h : p.tokens ++ r = q.tokens ++ s)
    (hr : (headKind r).endsExpr = true) (hs : (headKind s).endsExpr = true) : p = q ∧ r = s := by
  obtain ⟨data, ⟨first, firstSpan⟩, rest⟩ := p
  obtain ⟨data', ⟨first', firstSpan'⟩, rest'⟩ := q
  -- Either both paths have an at sign or none has.
  have hdata : data = data' ∧
      (⟨.id first, firstSpan⟩ : Token) :: (tailTokens rest ++ r)
        = ⟨.id first', firstSpan'⟩ :: (tailTokens rest' ++ s) := by
    cases data <;> cases data' <;> simp_all [PathTree.tokens]
  obtain ⟨rfl, hnames⟩ := hdata
  simp only [List.cons.injEq, Token.mk.injEq, TokenKind.id.injEq] at hnames
  obtain ⟨⟨rfl, rfl⟩, htail⟩ := hnames
  obtain ⟨rfl, hrest⟩ := tail_unique htail hr hs
  exact ⟨rfl, hrest⟩

/-- A path is told by its first token. -/
theorem ExprTree.of_path {p : PathTree} {u : ExprTree} (h : p.tokens ++ r = u.tokens ++ s) :
    ∃ q, u = .path q := by
  obtain ⟨data, first, rest⟩ := p
  cases u with
  | path q => exact ⟨q, rfl⟩
  | literal value span => cases data <;> cases value <;> cases h
  | sub opening call closing => cases data <;> cases h

/-- A literal is told by its token. -/
theorem ExprTree.of_literal {value : Literal} {span : Span} {u : ExprTree}
    (h : ⟨literalToken value, span⟩ :: r = u.tokens ++ s) : u = .literal value span ∧ r = s := by
  cases u with
  | path q =>
    obtain ⟨data, first, rest⟩ := q
    cases data <;> cases value <;> cases h
  | literal value' span' =>
    simp only [ExprTree.tokens, List.cons_append, List.nil_append, List.cons.injEq,
      Token.mk.injEq] at h
    obtain ⟨⟨hvalue, rfl⟩, hrest⟩ := h
    rw [literalToken_injective hvalue]
    exact ⟨rfl, hrest⟩
  | sub opening call closing => cases value <;> cases h

/-- Parentheses are told by the one that opens them. -/
theorem ExprTree.of_openSexpr {opening : Span} {u : ExprTree}
    (h : ⟨.openSexpr, opening⟩ :: r = u.tokens ++ s) :
    ∃ call closing, u = .sub opening call closing ∧
      r = callTokens call ++ ⟨.closeSexpr, closing⟩ :: s := by
  cases u with
  | path q =>
    obtain ⟨data, first, rest⟩ := q
    cases data <;> cases h
  | literal value span => cases value <;> cases h
  | sub opening' call closing =>
    simp only [ExprTree.tokens, List.cons_append, List.append_assoc, List.nil_append,
      List.cons.injEq, Token.mk.injEq, true_and] at h
    obtain ⟨rfl, hrest⟩ := h
    exact ⟨call, closing, rfl, hrest⟩

mutual

theorem expr_unique (t u : ExprTree) {r s : List Token} (h : t.tokens ++ r = u.tokens ++ s)
    (hr : (headKind r).endsExpr = true) (hs : (headKind s).endsExpr = true) : t = u ∧ r = s := by
  match t with
  | .path p =>
    rw [ExprTree.tokens] at h
    obtain ⟨q, rfl⟩ := ExprTree.of_path h
    rw [ExprTree.tokens] at h
    obtain ⟨rfl, hrest⟩ := path_unique h hr hs
    exact ⟨rfl, hrest⟩
  | .literal value span =>
    rw [ExprTree.tokens] at h
    obtain ⟨rfl, hrest⟩ := ExprTree.of_literal h
    exact ⟨rfl, hrest⟩
  | .sub opening call closing =>
    simp only [ExprTree.tokens, List.cons_append, List.append_assoc, List.nil_append] at h
    obtain ⟨call', closing', rfl, hcall⟩ := ExprTree.of_openSexpr h
    obtain ⟨rfl, hclose⟩ := call_unique call call' hcall (by rfl) (by rfl)
    simp only [List.cons.injEq, Token.mk.injEq, true_and] at hclose
    obtain ⟨rfl, hrest⟩ := hclose
    exact ⟨rfl, hrest⟩

theorem call_unique (t u : CallTree ExprTree) {r s : List Token}
    (h : callTokens t ++ r = callTokens u ++ s) (hr : (headKind r).endsCall = true)
    (hs : (headKind s).endsCall = true) : t = u ∧ r = s := by
  match t, u with
  | ⟨callee, ts, ps⟩, ⟨callee', us, qs⟩ =>
    simp only [callTokens, List.append_assoc] at h
    have hpr := headKind_pairs ps hr
    have hqs := headKind_pairs qs hs
    obtain ⟨rfl, hparams⟩ :=
      expr_unique callee callee' h (headKind_exprs ts hpr) (headKind_exprs us hqs)
    obtain ⟨rfl, hpairs⟩ :=
      exprs_unique ts us hparams hpr hqs (beginsExpr_pairs ps hr) (beginsExpr_pairs qs hs)
    obtain ⟨rfl, hrest⟩ := pairs_unique ps qs hpairs hr hs
    exact ⟨rfl, hrest⟩

theorem exprs_unique (ts us : List ExprTree) {r s : List Token}
    (h : exprsTokens ts ++ r = exprsTokens us ++ s) (hr : (headKind r).endsExpr = true)
    (hs : (headKind s).endsExpr = true) (hstopr : beginsExpr r = false)
    (hstops : beginsExpr s = false) : ts = us ∧ r = s := by
  match ts, us with
  | [], [] => exact ⟨rfl, by simpa only [exprsTokens, List.nil_append] using h⟩
  | [], u :: us =>
    -- One side has arguments left where the other has none.
    simp only [exprsTokens, List.nil_append, List.append_assoc] at h
    rw [h, beginsExpr_expr u (headKind_exprs us hs)] at hstopr
    cases hstopr
  | t :: ts, [] =>
    simp only [exprsTokens, List.nil_append, List.append_assoc] at h
    rw [← h, beginsExpr_expr t (headKind_exprs ts hr)] at hstops
    cases hstops
  | t :: ts, u :: us =>
    simp only [exprsTokens, List.append_assoc] at h
    obtain ⟨rfl, hmore⟩ := expr_unique t u h (headKind_exprs ts hr) (headKind_exprs us hs)
    obtain ⟨rfl, hrest⟩ := exprs_unique ts us hmore hr hs hstopr hstops
    exact ⟨rfl, hrest⟩

theorem pairs_unique (ps qs : List (PairTree ExprTree)) {r s : List Token}
    (h : pairsTokens ps ++ r = pairsTokens qs ++ s) (hr : (headKind r).endsCall = true)
    (hs : (headKind s).endsCall = true) : ps = qs ∧ r = s := by
  match ps, qs with
  | [], [] => exact ⟨rfl, by simpa only [pairsTokens, List.nil_append] using h⟩
  | [], ⟨key, equals, value⟩ :: qs =>
    simp only [pairsTokens, List.nil_append, List.cons_append] at h
    rw [h] at hr
    cases hr
  | ⟨key, equals, value⟩ :: ps, [] =>
    simp only [pairsTokens, List.nil_append, List.cons_append] at h
    rw [← h] at hs
    cases hs
  | ⟨⟨key, keySpan⟩, equals, value⟩ :: ps, ⟨⟨key', keySpan'⟩, equals', value'⟩ :: qs =>
    simp only [pairsTokens, List.cons_append, List.append_assoc, List.cons.injEq, Token.mk.injEq,
      TokenKind.id.injEq, true_and] at h
    obtain ⟨⟨rfl, rfl⟩, rfl, h⟩ := h
    obtain ⟨rfl, hmore⟩ := expr_unique value value' h (headKind_pairs ps hr) (headKind_pairs qs hs)
    obtain ⟨rfl, hrest⟩ := pairs_unique ps qs hmore hr hs
    exact ⟨rfl, hrest⟩

end

/-! ### Tags -/

theorem close_unique {x y : Leaf Bool} (h : closeToken x :: r = closeToken y :: s) :
    x = y ∧ r = s := by
  obtain ⟨strip, span⟩ := x
  obtain ⟨strip', span'⟩ := y
  simp only [closeToken, List.cons.injEq, Token.mk.injEq, TokenKind.close.injEq] at h
  obtain ⟨⟨rfl, rfl⟩, hrest⟩ := h
  exact ⟨rfl, hrest⟩

theorem names_unique {xs ys : List (Leaf String)} {x y : Span}
    (h : namesTokens xs ++ ⟨.closeBlockParams, x⟩ :: r
      = namesTokens ys ++ ⟨.closeBlockParams, y⟩ :: s) :
    xs = ys ∧ x = y ∧ r = s := by
  induction xs generalizing ys with
  | nil =>
    cases ys with
    | nil => simpa [namesTokens] using h
    | cons name ys => cases h
  | cons name xs ih =>
    cases ys with
    | nil => cases h
    | cons name' ys =>
      obtain ⟨value, span⟩ := name
      obtain ⟨value', span'⟩ := name'
      simp only [namesTokens, List.map_cons, List.cons_append, List.cons.injEq, Token.mk.injEq,
        TokenKind.id.injEq] at h
      obtain ⟨⟨rfl, rfl⟩, h⟩ := h
      obtain ⟨rfl, hrest⟩ := ih h
      exact ⟨rfl, hrest⟩

theorem params_unique {p q : Option ParamsTree} {x y : Leaf Bool}
    (h : paramsTokens p ++ closeToken x :: r = paramsTokens q ++ closeToken y :: s) :
    p = q ∧ x = y ∧ r = s := by
  match p, q with
  | none, none => exact ⟨rfl, close_unique h⟩
  | none, some q => cases h
  | some p, none => cases h
  | some ⟨opening, first, rest, closing⟩, some ⟨opening', first', rest', closing'⟩ =>
    simp only [paramsTokens, ParamsTree.tokens, List.cons_append, List.append_assoc,
      List.nil_append, List.cons.injEq, Token.mk.injEq, true_and] at h
    obtain ⟨rfl, h⟩ := h
    obtain ⟨hnames, rfl, hclose⟩ := names_unique h
    obtain ⟨rfl, rfl⟩ := List.cons.inj hnames
    exact ⟨rfl, close_unique hclose⟩

theorem opening_unique {t u : OpeningTree} (h : t.tokens ++ r = u.tokens ++ s) : t = u ∧ r = s := by
  obtain ⟨call, params, close⟩ := t
  obtain ⟨call', params', close'⟩ := u
  simp only [OpeningTree.tokens, List.append_assoc, List.cons_append, List.nil_append] at h
  obtain ⟨rfl, hparams⟩ :=
    call_unique call call' h (headKind_params params close r) (headKind_params params' close' s)
  obtain ⟨rfl, rfl, hrest⟩ := params_unique hparams
  exact ⟨rfl, hrest⟩

theorem closing_unique {t u : ClosingTree} (h : t.tokens ++ r = u.tokens ++ s) : t = u ∧ r = s := by
  obtain ⟨⟨strip, span⟩, name, close⟩ := t
  obtain ⟨⟨strip', span'⟩, name', close'⟩ := u
  simp only [ClosingTree.tokens, List.cons_append, List.append_assoc, List.nil_append,
    List.cons.injEq, Token.mk.injEq, TokenKind.openEndBlock.injEq] at h
  obtain ⟨⟨rfl, rfl⟩, h⟩ := h
  obtain ⟨rfl, hclose⟩ := expr_unique name name' h (by rfl) (by rfl)
  obtain ⟨rfl, hrest⟩ := close_unique hclose
  exact ⟨rfl, hrest⟩

theorem closingCall_unique (unescaped : Bool) {t u : CallTree ExprTree} {x y : Leaf Bool}
    (h : callTokens t ++ closingToken unescaped x :: r
      = callTokens u ++ closingToken unescaped y :: s) :
    t = u ∧ x = y ∧ r = s := by
  obtain ⟨rfl, hclose⟩ :=
    call_unique t u h (closingToken_endsCall unescaped x) (closingToken_endsCall unescaped y)
  refine ⟨rfl, ?_⟩
  cases unescaped with
  | false => exact close_unique hclose
  | true =>
    obtain ⟨strip, span⟩ := x
    obtain ⟨strip', span'⟩ := y
    simpa [closingToken, and_assoc] using hclose

/-! ### Statements -/

/-- No statement begins with what ends a program. -/
theorem headKind_statement (t : StatementTree) (rest : List Token) :
    (headKind (t.tokens ++ rest)).endsProgram = false := by
  cases t <;> rw [StatementTree.tokens] <;> rfl

section FirstToken

/-! A statement is told by its first token. -/

variable {u : StatementTree} {span : Span}

theorem StatementTree.of_content {text : String}
    (h : ⟨.content text, span⟩ :: r = u.tokens ++ s) : u = .content ⟨text, span⟩ ∧ r = s := by
  cases u with
  | content leaf =>
    simp only [StatementTree.tokens, List.cons_append, List.nil_append, List.cons.injEq,
      Token.mk.injEq, TokenKind.content.injEq] at h
    obtain ⟨⟨rfl, rfl⟩, rfl⟩ := h
    exact ⟨rfl, rfl⟩
  | _ => simp [StatementTree.tokens] at h

theorem StatementTree.of_comment {text : String} {strip : Strip}
    (h : ⟨.comment text strip, span⟩ :: r = u.tokens ++ s) :
    u = .comment ⟨(text, strip), span⟩ ∧ r = s := by
  cases u with
  | comment leaf =>
    simp only [StatementTree.tokens, List.cons_append, List.nil_append, List.cons.injEq,
      Token.mk.injEq, TokenKind.comment.injEq] at h
    obtain ⟨⟨⟨rfl, rfl⟩, rfl⟩, rfl⟩ := h
    exact ⟨rfl, rfl⟩
  | _ => simp [StatementTree.tokens] at h

theorem StatementTree.of_open {strip ampersand : Bool}
    (h : ⟨.open strip ampersand, span⟩ :: r = u.tokens ++ s) :
    ∃ call close, u = .mustache ⟨(strip, ampersand), span⟩ call close ∧
      r = callTokens call ++ closingToken false close :: s := by
  cases u with
  | mustache mark call close =>
    simp only [StatementTree.tokens, List.cons_append, List.append_assoc, List.nil_append,
      List.cons.injEq, Token.mk.injEq, TokenKind.open.injEq] at h
    obtain ⟨⟨⟨rfl, rfl⟩, rfl⟩, rfl⟩ := h
    exact ⟨call, close, rfl, rfl⟩
  | _ => simp [StatementTree.tokens] at h

theorem StatementTree.of_openUnescaped {strip : Bool}
    (h : ⟨.openUnescaped strip, span⟩ :: r = u.tokens ++ s) :
    ∃ call close, u = .unescaped ⟨strip, span⟩ call close ∧
      r = callTokens call ++ closingToken true close :: s := by
  cases u with
  | unescaped mark call close =>
    simp only [StatementTree.tokens, List.cons_append, List.append_assoc, List.nil_append,
      List.cons.injEq, Token.mk.injEq, TokenKind.openUnescaped.injEq] at h
    obtain ⟨⟨rfl, rfl⟩, rfl⟩ := h
    exact ⟨call, close, rfl, rfl⟩
  | _ => simp [StatementTree.tokens] at h

theorem StatementTree.of_openPartial {strip : Bool}
    (h : ⟨.openPartial strip, span⟩ :: r = u.tokens ++ s) :
    ∃ call close, u = .partialCall ⟨strip, span⟩ call close ∧
      r = callTokens call ++ closingToken false close :: s := by
  cases u with
  | partialCall mark call close =>
    simp only [StatementTree.tokens, List.cons_append, List.append_assoc, List.nil_append,
      List.cons.injEq, Token.mk.injEq, TokenKind.openPartial.injEq] at h
    obtain ⟨⟨rfl, rfl⟩, rfl⟩ := h
    exact ⟨call, close, rfl, rfl⟩
  | _ => simp [StatementTree.tokens] at h

theorem StatementTree.of_openBlock {strip : Bool}
    (h : ⟨.openBlock strip, span⟩ :: r = u.tokens ++ s) :
    ∃ opening body inverse closing, u = .block ⟨strip, span⟩ opening body inverse closing ∧
      r = opening.tokens ++ (statementsTokens body ++
        (otherTokens inverse ++ (closing.tokens ++ s))) := by
  cases u with
  | block mark opening body inverse closing =>
    simp only [StatementTree.tokens, List.cons_append, List.append_assoc, List.cons.injEq,
      Token.mk.injEq, TokenKind.openBlock.injEq] at h
    obtain ⟨⟨rfl, rfl⟩, rfl⟩ := h
    exact ⟨opening, body, inverse, closing, rfl, rfl⟩
  | _ => simp [StatementTree.tokens] at h

end FirstToken

mutual

theorem statement_unique (t u : StatementTree) {r s : List Token}
    (h : t.tokens ++ r = u.tokens ++ s) : t = u ∧ r = s := by
  match t with
  | .content ⟨text, span⟩ =>
    rw [StatementTree.tokens] at h
    obtain ⟨rfl, hrest⟩ := StatementTree.of_content h
    exact ⟨rfl, hrest⟩
  | .comment ⟨(text, strip), span⟩ =>
    rw [StatementTree.tokens] at h
    obtain ⟨rfl, hrest⟩ := StatementTree.of_comment h
    exact ⟨rfl, hrest⟩
  | .mustache ⟨(strip, ampersand), span⟩ call close =>
    rw [StatementTree.tokens, List.cons_append, List.append_assoc] at h
    obtain ⟨call', close', rfl, htag⟩ := StatementTree.of_open h
    obtain ⟨rfl, rfl, hrest⟩ := closingCall_unique false htag
    exact ⟨rfl, hrest⟩
  | .unescaped ⟨strip, span⟩ call close =>
    rw [StatementTree.tokens, List.cons_append, List.append_assoc] at h
    obtain ⟨call', close', rfl, htag⟩ := StatementTree.of_openUnescaped h
    obtain ⟨rfl, rfl, hrest⟩ := closingCall_unique true htag
    exact ⟨rfl, hrest⟩
  | .partialCall ⟨strip, span⟩ call close =>
    rw [StatementTree.tokens, List.cons_append, List.append_assoc] at h
    obtain ⟨call', close', rfl, htag⟩ := StatementTree.of_openPartial h
    obtain ⟨rfl, rfl, hrest⟩ := closingCall_unique false htag
    exact ⟨rfl, hrest⟩
  | .block ⟨strip, span⟩ opening body inverse closing =>
    simp only [StatementTree.tokens, List.cons_append, List.append_assoc] at h
    -- The first token fixes the kind of statement; the parts are unique one by one.
    obtain ⟨opening', body', inverse', closing', rfl, htag⟩ := StatementTree.of_openBlock h
    obtain ⟨rfl, hbody⟩ := opening_unique htag
    obtain ⟨rfl, hother⟩ := statements_unique body body' hbody (headKind_other inverse (by rfl))
      (headKind_other inverse' (by rfl))
    obtain ⟨rfl, hclosing⟩ := other_unique inverse inverse' hother (by rfl) (by rfl)
    obtain ⟨rfl, hrest⟩ := closing_unique hclosing
    exact ⟨rfl, hrest⟩

theorem statements_unique (ts us : List StatementTree) {r s : List Token}
    (h : statementsTokens ts ++ r = statementsTokens us ++ s)
    (hr : (headKind r).endsProgram = true) (hs : (headKind s).endsProgram = true) :
    ts = us ∧ r = s := by
  match ts, us with
  | [], [] => exact ⟨rfl, by simpa only [statementsTokens, List.nil_append] using h⟩
  | [], u :: us =>
    simp only [statementsTokens, List.nil_append, List.append_assoc] at h
    rw [h, headKind_statement] at hr
    cases hr
  | t :: ts, [] =>
    simp only [statementsTokens, List.nil_append, List.append_assoc] at h
    rw [← h, headKind_statement] at hs
    cases hs
  | t :: ts, u :: us =>
    simp only [statementsTokens, List.append_assoc] at h
    obtain ⟨rfl, hmore⟩ := statement_unique t u h
    obtain ⟨rfl, hrest⟩ := statements_unique ts us hmore hr hs
    exact ⟨rfl, hrest⟩

theorem other_unique (t u : Option InverseTree) {r s : List Token} {x y : Bool}
    (h : otherTokens t ++ r = otherTokens u ++ s) (hr : headKind r = .openEndBlock x)
    (hs : headKind s = .openEndBlock y) : t = u ∧ r = s := by
  have hendr : (headKind r).endsProgram = true := by
    rw [hr]
    rfl
  have hends : (headKind s).endsProgram = true := by
    rw [hs]
    rfl
  match t, u with
  | none, none => exact ⟨rfl, by simpa only [otherTokens, List.nil_append] using h⟩
  -- Where one side has an `else` and the other has none, a closing tag would be an `else`.
  | none, some (.plain ..) | none, some (.chain ..) =>
    simp only [otherTokens, InverseTree.tokens, List.nil_append] at h
    rw [h] at hr
    cases hr
  | some (.plain ..), none | some (.chain ..), none =>
    simp only [otherTokens, InverseTree.tokens, List.nil_append] at h
    rw [← h] at hs
    cases hs
  | some (.plain ..), some (.chain ..) | some (.chain ..), some (.plain ..) =>
    simp only [otherTokens, InverseTree.tokens, List.cons_append] at h
    cases h
  | some (.plain ⟨strip, span⟩ body), some (.plain ⟨strip', span'⟩ body') =>
    simp only [otherTokens, InverseTree.tokens, List.cons_append, List.cons.injEq, Token.mk.injEq,
      TokenKind.inverse.injEq] at h
    obtain ⟨⟨rfl, rfl⟩, hbody⟩ := h
    obtain ⟨rfl, hrest⟩ := statements_unique body body' hbody hendr hends
    exact ⟨rfl, hrest⟩
  | some (.chain ⟨strip, span⟩ opening body inverse),
      some (.chain ⟨strip', span'⟩ opening' body' inverse') =>
    simp only [otherTokens, InverseTree.tokens, List.cons_append, List.append_assoc,
      List.cons.injEq, Token.mk.injEq, TokenKind.openInverseChain.injEq] at h
    obtain ⟨⟨rfl, rfl⟩, hopening⟩ := h
    obtain ⟨rfl, hbody⟩ := opening_unique hopening
    obtain ⟨rfl, hother⟩ := statements_unique body body' hbody (headKind_other inverse hendr)
      (headKind_other inverse' hends)
    obtain ⟨rfl, hrest⟩ := other_unique inverse inverse' hother hr hs
    exact ⟨rfl, hrest⟩

end

/-- The tokens of a whole template have one derivation. -/
theorem RootTree.tokens_injective {t u : RootTree} (h : t.tokens = u.tokens) : t = u := by
  obtain ⟨body, eof⟩ := t
  obtain ⟨body', eof'⟩ := u
  obtain ⟨rfl, heof⟩ := statements_unique body body' h (by rfl) (by rfl)
  simp only [List.cons.injEq, Token.mk.injEq, and_true, true_and] at heof
  rw [heof]

/-! ### Whole templates -/

/-- Where no `eof` was read, the last one is all that is left. -/
theorem Ends.rest {front rest : List Token} (h : Ends (front ++ rest))
    (hfront : ∀ t ∈ front, t.kind ≠ .eof) (hrest : headKind rest = .eof) :
    ∃ stop, rest = [⟨.eof, .point stop⟩] := by
  obtain ⟨init, stop, heq, hinit⟩ := h
  refine ⟨stop, ?_⟩
  rcases List.append_eq_append_iff.mp heq with ⟨more, rfl, hmore⟩ | ⟨more, rfl, hmore⟩
  · cases more with
    | nil => exact hmore
    | cons t more =>
      rw [hmore] at hrest
      exact absurd hrest (hinit t (by simp))
  · cases more with
    | nil => exact hmore.symm
    | cons t more =>
      have ht : t.kind = .eof := by rw [← (List.cons.inj hmore).1]
      exact absurd ht (hfront t (by simp))

theorem Reads.of_tokens {ts : List Token} (h : ∀ t ∈ ts, t.kind ≠ .eof) (previous : Span)
    (rest : List Token) : ∃ span, Reads ⟨previous, ts ++ rest⟩ ts ⟨span, rest⟩ := by
  induction ts generalizing previous with
  | nil => exact ⟨previous, .refl _⟩
  | cons t ts ih =>
    obtain ⟨ht, hts⟩ := List.forall_mem_cons.mp h
    obtain ⟨span, hreads⟩ := ih hts t.span
    exact ⟨span, .step ht hreads⟩

theorem parseProgram_sound {tokens : List Token} (hends : Ends tokens) {p : Program}
    (h : parseProgram tokens = .ok p) :
    ∃ t : RootTree, t.tokens = tokens ∧ t.Admissible ∧ t.program = p := by
  simp only [parseProgram, bind_eq_ok, ite_eq_ok, pure_eq_ok, Prod.exists, reduceCtorEq, and_false,
    or_false] at h
  obtain ⟨body, d, hbody, heof, rfl⟩ := h
  obtain ⟨ts, hreads, hadmissible, rfl⟩ := statements_sound _ hbody
  have htokens : tokens = statementsTokens ts ++ d.tokens := hreads.tokens
  rw [htokens] at hends
  obtain ⟨stop, hrest⟩ := hends.rest hreads.not_eof heof
  refine ⟨⟨ts, .point stop⟩, ?_, hadmissible, ?_⟩
  · rw [RootTree.tokens, htokens, hrest]
  · rw [RootTree.program, Cursor.current, hrest]
    rfl

theorem parseProgram_complete {t : RootTree} (hends : Ends t.tokens) (hadmissible : t.Admissible) :
    parseProgram t.tokens = .ok t.program := by
  obtain ⟨init, stop, heq, hinit⟩ := hends
  have hbody : statementsTokens t.body = init := List.append_inj_left' heq rfl
  rw [← hbody] at hinit
  obtain ⟨span, hreads⟩ := Reads.of_tokens hinit .dummy [⟨.eof, t.eof⟩]
  have hread := statements_complete (2 * t.tokens.length + 2) t.body hreads rfl hadmissible
    (by rw [RootTree.tokens, List.length_append]; omega)
  simp only [parseProgram, bind_eq_ok, ite_eq_ok, pure_eq_ok, Prod.exists]
  exact ⟨_, _, hread, .inl ⟨rfl, rfl⟩⟩

/-- Exactly the tokens of an admissible derivation are read, as its program. -/
theorem parseProgram_eq_ok {tokens : List Token} (hends : Ends tokens) {p : Program} :
    parseProgram tokens = .ok p ↔
      ∃ t : RootTree, t.tokens = tokens ∧ t.Admissible ∧ t.program = p := by
  constructor
  · exact parseProgram_sound hends
  · rintro ⟨t, rfl, hadmissible, rfl⟩
    exact parseProgram_complete hends hadmissible

/-- A source is read exactly when its tokens have a derivation that meets the side
conditions.  The derivation is the only one there is, and its program is what is
read. -/
theorem parseProgram_decides_grammar (source : String) :
    ((∃ p, parseProgram (lex source) = .ok p) ↔
      ∃ t : RootTree, t.tokens = lex source ∧ t.Admissible) ∧
    ∀ p, parseProgram (lex source) = .ok p →
      ∃ t : RootTree, t.tokens = lex source ∧ t.Admissible ∧ t.program = p ∧
        ∀ u : RootTree, u.tokens = lex source → u = t := by
  constructor
  · simp only [parseProgram_eq_ok (lex_ends source)]
    constructor
    · rintro ⟨p, t, htokens, hadmissible, -⟩
      exact ⟨t, htokens, hadmissible⟩
    · rintro ⟨t, htokens, hadmissible⟩
      exact ⟨t.program, t, htokens, hadmissible, rfl⟩
  · intro p h
    obtain ⟨t, htokens, hadmissible, hprogram⟩ := parseProgram_sound (lex_ends source) h
    refine ⟨t, htokens, hadmissible, hprogram, fun u hu => ?_⟩
    exact RootTree.tokens_injective (hu.trans htokens.symm)

end TemplateCompiler.Mustache
