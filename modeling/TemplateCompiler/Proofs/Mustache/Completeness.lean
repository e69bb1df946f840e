/-
What has a derivation is read.

* `TokenKind.endsExpr`, `TokenKind.endsCall`, `TokenKind.endsProgram` — what may
  follow an expression, a call and a program;
* `expr_complete`, `statements_complete` — a reader that stands before the tokens
  of an admissible derivation reads them all, and no more.

Design notes: a reader looks at one token or two to decide how to go on.  What
follows a derivation must not look as if the derivation went on, so every lemma
asks for a token that may follow; inside of a derivation the next part provides
it.
-/
import TemplateCompiler.Proofs.Mustache.Soundness

namespace TemplateCompiler.Mustache

open Template (Literal Path Pair Hash Call Expr MustacheTag PartialTag BlockTag)

/-! ### What follows -/

/-- An expression does not go on with such a token. -/
def TokenKind.endsExpr : TokenKind → Bool
  | .sep _ | .equals => false
  | _ => true

/-- A call is followed by the end of its tag, of its parentheses, or by block
parameters. -/
def TokenKind.endsCall : TokenKind → Bool
  | .close _ | .closeUnescaped _ | .closeSexpr | .openBlockParams => true
  | _ => false

/-- A program is followed by the end, by `else` or by a closing tag. -/
def TokenKind.endsProgram : TokenKind → Bool
  | .eof | .openEndBlock _ | .inverse _ | .openInverseChain _ => true
  | _ => false

theorem TokenKind.endsExpr_of_endsCall {k : TokenKind} (h : k.endsCall = true) :
    k.endsExpr = true := by
  cases k <;> first | rfl | cases h

theorem TokenKind.ne_equals_of_endsExpr {k : TokenKind} (h : k.endsExpr = true) :
    (k != .equals) = true := by
  rw [bne_iff_ne]
  rintro rfl
  cases h

/-- The kind of the first of some tokens; `eof` when there is none. -/
def headKind (ts : List Token) : TokenKind := (ts.headD ⟨.eof, .dummy⟩).kind

@[simp] theorem headKind_cons (t : Token) (ts : List Token) : headKind (t :: ts) = t.kind := rfl

theorem Cursor.kind_eq (c : Cursor) : c.kind = headKind c.tokens := rfl

/-- An expression begins with the first of some tokens. -/
def beginsExpr (ts : List Token) : Bool := startsExpr { tokens := ts }

theorem startsExpr_eq (c : Cursor) : startsExpr c = beginsExpr c.tokens := rfl

/-- A name begins an expression unless it is the key of a named argument. -/
theorem beginsExpr_id (raw : String) (span : Span) (ts : List Token) :
    beginsExpr (⟨.id raw, span⟩ :: ts) = (headKind ts != .equals) := by
  cases ts <;> rfl

theorem beginsExpr_of_endsCall {ts : List Token} (h : (headKind ts).endsCall = true) :
    beginsExpr ts = false := by
  cases ts with
  | nil => rfl
  | cons t rest =>
    obtain ⟨kind, span⟩ := t
    cases kind <;> first | rfl | cases h

/-- The first token of an expression ends an expression before it. -/
theorem headKind_expr (t : ExprTree) (rest : List Token) :
    (headKind (t.tokens ++ rest)).endsExpr = true := by
  cases t with
  | path p =>
    obtain ⟨data, first, names⟩ := p
    cases data <;> rfl
  | literal value span => cases value <;> rfl
  | sub opening call closing => rfl

theorem beginsExpr_expr (t : ExprTree) {rest : List Token}
    (h : (headKind rest).endsExpr = true) : beginsExpr (t.tokens ++ rest) = true := by
  cases t with
  | path p =>
    obtain ⟨data, first, names⟩ := p
    cases data with
    | some span => rfl
    | none =>
      show beginsExpr (⟨.id first.value, first.span⟩ :: (tailTokens names ++ rest)) = true
      rw [beginsExpr_id]
      cases names with
      | nil =>
        exact TokenKind.ne_equals_of_endsExpr h
      | cons name names => rfl
  | literal value span => cases value <;> rfl
  | sub opening call closing => rfl

theorem headKind_exprs (ts : List ExprTree) {rest : List Token}
    (h : (headKind rest).endsExpr = true) :
    (headKind (exprsTokens ts ++ rest)).endsExpr = true := by
  cases ts with
  | nil => simpa only [exprsTokens, List.nil_append] using h
  | cons t ts =>
    rw [exprsTokens, List.append_assoc]
    exact headKind_expr t _

theorem headKind_pairs (ps : List (PairTree ExprTree)) {rest : List Token}
    (h : (headKind rest).endsCall = true) :
    (headKind (pairsTokens ps ++ rest)).endsExpr = true := by
  cases ps with
  | nil => simpa only [pairsTokens, List.nil_append] using TokenKind.endsExpr_of_endsCall h
  | cons pair ps =>
    rw [pairsTokens]
    rfl

/-- No expression begins with a named argument or with what ends a call. -/
theorem beginsExpr_pairs (ps : List (PairTree ExprTree)) {rest : List Token}
    (h : (headKind rest).endsCall = true) : beginsExpr (pairsTokens ps ++ rest) = false := by
  cases ps with
  | nil => simpa only [pairsTokens, List.nil_append] using beginsExpr_of_endsCall h
  | cons pair ps =>
    rw [pairsTokens]
    rfl

theorem Reads.nil_eq {c d : Cursor} (h : Reads c [] d) : d = c := by
  cases h
  rfl

theorem Reads.kind {c d : Cursor} {ts : List Token} (h : Reads c ts d) :
    c.kind = headKind (ts ++ d.tokens) := by
  rw [Cursor.kind_eq, h.tokens]

theorem Reads.second {c d : Cursor} {t u : Token} {ts : List Token}
    (h : Reads c (t :: u :: ts) d) : c.secondKind = u.kind := by
  cases h with
  | step _ h =>
    cases h with
    | step _ h => rfl

/-! ### Expressions -/

theorem segments_complete {separator : Option Char} {previous : Span} {tokens : List Token}
    {first : Leaf String} {rest : List (Leaf Char × Leaf String)} {d : Cursor}
    (h : Reads ⟨previous, tokens⟩ (⟨.id first.value, first.span⟩ :: tailTokens rest) d)
    (hends : d.kind.endsExpr = true) :
    segments separator tokens previous
      = .ok (⟨separator, first.value⟩ ::
          rest.map (fun (mark, name) => ⟨some mark.value, name.value⟩), d) := by
  induction rest generalizing separator previous tokens first with
  | nil =>
    cases h with
    | step _ h =>
      cases h with
      | refl =>
        -- The next token is no separator, so the path ends here.
        rw [segments]
        · rfl
        · intro mark span rest heq
          rw [Cursor.kind_eq, heq] at hends
          cases hends
  | cons name rest ih =>
    obtain ⟨mark, name⟩ := name
    rw [tailTokens] at h
    cases h with
    | step _ h =>
      cases h with
      | step _ h =>
        rw [segments, ih h]
        rfl

theorem path_complete (tree : PathTree) {start : Nat} {c d : Cursor}
    (h : Reads c (⟨.id tree.first.value, tree.first.span⟩ :: tailTokens tree.rest) d)
    (hstart : start = (tree.data.getD tree.first.span).start) (haccepted : tree.Accepted)
    (hends : d.kind.endsExpr = true) :
    path tree.data.isSome start c = .ok (tree.path, d) := by
  obtain ⟨p, hp⟩ := haccepted
  have hspan : tree.span = ⟨start, d.previous.stop⟩ := by
    rw [PathTree.span, hstart, h.previous_stop (by simp), lastStop_names]
  have hpath : tree.path = p := by
    rw [PathTree.path, hp]
    rfl
  rw [PathTree.path?, hspan] at hp
  simp only [path, bind_eq_ok, pure_eq_ok, Prod.exists, Prod.mk.injEq]
  exact ⟨_, d, segments_complete h hends, p, hp, hpath.symm, rfl⟩

mutual

theorem expr_complete (fuel : Nat) (t : ExprTree) {c d : Cursor} (h : Reads c t.tokens d)
    (hends : d.kind.endsExpr = true) (hadmissible : t.Admissible)
    (hfuel : 2 * t.tokens.length ≤ fuel) : expr fuel c = .ok (t.expr, d) := by
  have hpos := List.length_pos_iff.mpr t.tokens_ne_nil
  obtain ⟨fuel, rfl⟩ : ∃ n, fuel = n + 1 := ⟨fuel - 1, by omega⟩
  match t with
  | .path ⟨none, first, rest⟩ =>
    rw [ExprTree.tokens] at h
    rw [ExprTree.Admissible] at hadmissible
    have hkind : c.kind = .id first.value := h.next.1
    have hspan : c.current.span = first.span := h.next.2.1
    simp only [expr, hkind, bind_eq_ok, pure_eq_ok, Prod.exists, Prod.mk.injEq]
    have hread : path false c.current.span.start c = .ok (PathTree.path ⟨none, first, rest⟩, d) :=
      path_complete ⟨none, first, rest⟩ h (by rw [hspan]; rfl) hadmissible hends
    exact ⟨_, d, hread, by rw [ExprTree.expr], rfl⟩
  | .path ⟨some data, first, rest⟩ =>
    rw [ExprTree.tokens] at h
    rw [ExprTree.Admissible] at hadmissible
    -- The at sign is passed, and the path is read behind it.
    obtain ⟨hkind, hspan, h⟩ := Reads.next (t := ⟨.data, data⟩) h
    simp only [expr, hkind, bind_eq_ok, pure_eq_ok, Prod.exists, Prod.mk.injEq]
    have hread : path true c.current.span.start c.advance
        = .ok (PathTree.path ⟨some data, first, rest⟩, d) :=
      path_complete ⟨some data, first, rest⟩ h (by rw [hspan]; rfl) hadmissible hends
    exact ⟨_, d, hread, by rw [ExprTree.expr], rfl⟩
  | .literal value span =>
    rw [ExprTree.tokens] at h
    obtain ⟨hkind, hspan, h⟩ := h.next
    replace hkind : c.kind = literalToken value := hkind
    replace hspan : c.current.span = span := hspan
    rw [h.nil_eq, ExprTree.expr, ← hspan]
    cases value <;> simp only [expr, hkind, literalToken]
  | .sub opening call closing =>
    rw [ExprTree.tokens] at h
    rw [ExprTree.Admissible] at hadmissible
    rw [ExprTree.tokens] at hfuel
    obtain ⟨hkind, hspan, h⟩ := h.next
    obtain ⟨c₁, hcall, hclose⟩ := h.split
    obtain ⟨hkind₁, hspan₁, hlast⟩ := hclose.next
    simp only [List.length_cons, List.length_append, List.length_nil] at hfuel
    -- Two tokens are the parentheses, so the fuel is enough for the call.
    have hread : Mustache.call fuel c.advance = .ok (callOf call, c₁) :=
      call_complete fuel call hcall (by rw [hkind₁]; rfl) hadmissible.1 (by omega)
    simp only [expr, hkind, bind_eq_ok, ite_eq_ok, pure_eq_ok, Prod.exists, Prod.mk.injEq]
    refine ⟨_, c₁, hread, .inl ⟨hkind₁, (), ?_, ?_, hlast.nil_eq.symm⟩⟩
    · rw [checkCallee_eq_ok, callOf_callee]
      exact hadmissible.2
    · rw [ExprTree.expr, hspan, hspan₁]

theorem call_complete (fuel : Nat) (t : CallTree ExprTree) {c d : Cursor}
    (h : Reads c (callTokens t) d) (hends : d.kind.endsCall = true)
    (hadmissible : CallAdmissible t) (hfuel : 2 * (callTokens t).length + 1 ≤ fuel) :
    call fuel c = .ok (callOf t, d) := by
  obtain ⟨fuel, rfl⟩ : ∃ n, fuel = n + 1 := ⟨fuel - 1, by omega⟩
  match t with
  | ⟨callee, ts, ps⟩ =>
    rw [callTokens] at h hfuel
    rw [CallAdmissible] at hadmissible
    simp only [List.length_append] at hfuel
    have hpos := List.length_pos_iff.mpr callee.tokens_ne_nil
    obtain ⟨c₁, hcallee, h⟩ := h.split
    obtain ⟨c₂, hparams, hpairs⟩ := h.split
    have hend₂ : c₂.kind.endsExpr = true := by
      rw [hpairs.kind]
      exact headKind_pairs ps hends
    have hend₁ : c₁.kind.endsExpr = true := by
      rw [hparams.kind]
      exact headKind_exprs ts hend₂
    have hstop : beginsExpr c₂.tokens = false := by
      rw [hpairs.tokens]
      exact beginsExpr_pairs ps hends
    have h₁ := expr_complete fuel callee hcallee hend₁ hadmissible.1 (by omega)
    have h₂ := params_complete fuel ts hparams hend₂ hstop hadmissible.2.1 (by omega)
    have h₃ := pairs_complete fuel ps hpairs hends hadmissible.2.2 (by omega)
    simp only [call, bind_eq_ok, pure_eq_ok, Prod.exists, Prod.mk.injEq]
    refine ⟨_, c₁, h₁, _, c₂, h₂, _, d, h₃, ?_, rfl⟩
    rw [callOf, hashSpan_eq]
    intro hempty
    -- Without named arguments the last token is that of the positional ones.
    obtain rfl : ps = [] := by
      cases ps with
      | nil => rfl
      | cons pair rest => rw [pairsOf] at hempty; cases hempty
    rw [pairsTokens] at hpairs
    rw [hpairs.nil_eq]
    exact (hcallee.append hparams).previous_stop (by simp [callee.tokens_ne_nil])

theorem params_complete (fuel : Nat) (ts : List ExprTree) {c d : Cursor}
    (h : Reads c (exprsTokens ts) d) (hends : d.kind.endsExpr = true)
    (hstop : beginsExpr d.tokens = false) (hadmissible : ExprsAdmissible ts)
    (hfuel : 2 * (exprsTokens ts).length + 1 ≤ fuel) : params fuel c = .ok (exprsOf ts, d) := by
  obtain ⟨fuel, rfl⟩ : ∃ n, fuel = n + 1 := ⟨fuel - 1, by omega⟩
  match ts with
  | [] =>
    rw [exprsTokens] at h
    obtain rfl := h.nil_eq
    rw [params, if_neg (by rw [startsExpr_eq, hstop]; simp), exprsOf]
  | t :: ts =>
    rw [exprsTokens] at h hfuel
    rw [ExprsAdmissible] at hadmissible
    rw [List.length_append] at hfuel
    have hpos := List.length_pos_iff.mpr t.tokens_ne_nil
    obtain ⟨c₁, hfirst, hrest⟩ := h.split
    -- What comes next begins an argument or ends the call, so the first argument ends here.
    have hend₁ : c₁.kind.endsExpr = true := by
      rw [hrest.kind]
      exact headKind_exprs ts hends
    have hstart : startsExpr c = true := by
      rw [startsExpr_eq, hfirst.tokens]
      exact beginsExpr_expr t hend₁
    have h₁ := expr_complete fuel t hfirst hend₁ hadmissible.1 (by omega)
    have h₂ := params_complete fuel ts hrest hends hstop hadmissible.2 (by omega)
    rw [params, if_pos hstart]
    simp only [bind_eq_ok, pure_eq_ok, Prod.exists, Prod.mk.injEq]
    exact ⟨_, c₁, h₁, _, d, h₂, by rw [exprsOf], rfl⟩

theorem pairs_complete (fuel : Nat) (ps : List (PairTree ExprTree)) {c d : Cursor}
    (h : Reads c (pairsTokens ps) d) (hends : d.kind.endsCall = true)
    (hadmissible : PairsAdmissible ps) (hfuel : 2 * (pairsTokens ps).length + 1 ≤ fuel) :
    pairs fuel c = .ok (pairsOf ps, d) := by
  obtain ⟨fuel, rfl⟩ : ∃ n, fuel = n + 1 := ⟨fuel - 1, by omega⟩
  match ps with
  | [] =>
    rw [pairsTokens] at h
    obtain rfl := h.nil_eq
    rw [pairs, pairsOf]
    split
    · next hkind _ =>
      rw [hkind] at hends
      cases hends
    · rfl
  | ⟨key, equals, value⟩ :: ps =>
    rw [pairsTokens] at h hfuel
    rw [PairsAdmissible] at hadmissible
    simp only [List.length_cons, List.length_append] at hfuel
    -- A name is the key of an argument by the sign after it.
    have hsecond : c.secondKind = .equals := h.second
    obtain ⟨hkind, hspan, h⟩ := h.next
    obtain ⟨-, -, h⟩ := h.next
    obtain ⟨c₁, hvalue, hrest⟩ := h.split
    have hend₁ : c₁.kind.endsExpr = true := by
      rw [hrest.kind]
      exact headKind_pairs ps hends
    have h₁ := expr_complete fuel value hvalue hend₁ hadmissible.1 (by omega)
    have h₂ := pairs_complete fuel ps hrest hends hadmissible.2 (by omega)
    replace hkind : c.kind = .id key.value := hkind
    simp only [pairs, hkind, hsecond, bind_eq_ok, pure_eq_ok, Prod.exists, Prod.mk.injEq]
    refine ⟨_, c₁, h₁, _, d, h₂, ?_, rfl⟩
    rw [pairsOf, hspan]

end

/-! ### Tags -/

theorem paramNames_complete {names : List (Leaf String)} {previous : Span} {tokens : List Token}
    {d : Cursor} (h : Reads ⟨previous, tokens⟩ (namesTokens names) d)
    (hend : d.kind = .closeBlockParams) :
    paramNames tokens previous = (names.map fun name => idName name.value, d) := by
  induction names generalizing previous tokens with
  | nil =>
    cases h with
    | refl =>
      rw [paramNames]
      · rfl
      · intro raw span rest heq
        rw [Cursor.kind_eq, heq] at hend
        cases hend
  | cons name names ih =>
    cases h with
    | step _ h =>
      rw [paramNames, ih h]
      rfl

theorem blockParams_complete (p : Option ParamsTree) {c d : Cursor}
    (h : Reads c (paramsTokens p) d) {strip : Bool} (hend : d.kind = .close strip) :
    blockParams c = .ok (paramsNames p, d) := by
  cases p with
  | none =>
    obtain rfl := h.nil_eq
    simp only [blockParams, hend, paramsNames]
  | some p =>
    obtain ⟨hkind, -, h⟩ := h.next
    obtain ⟨c₁, hnames, hclose⟩ := h.split
    obtain ⟨hkind₁, -, hlast⟩ := hclose.next
    replace hkind : c.kind = .openBlockParams := hkind
    have hread : paramNames c.advance.tokens c.advance.previous
        = (paramsNames (some p), c₁) := paramNames_complete hnames hkind₁
    rw [hlast.nil_eq]
    simp only [blockParams, hkind, hread]
    rw [if_neg (by simp [paramsNames]), if_pos hkind₁]

/-- Block parameters, or the end of the tag, end a call. -/
theorem headKind_params (p : Option ParamsTree) (close : Leaf Bool) (rest : List Token) :
    (headKind (paramsTokens p ++ closeToken close :: rest)).endsCall = true := by
  cases p <;> rfl

theorem closeTag_complete (expected : List String) {close : Leaf Bool} {c d : Cursor}
    (h : Reads c [closeToken close] d) :
    closeTag expected c = .ok ((close.value, close.span.stop), d) := by
  obtain ⟨hkind, hspan, hlast⟩ := h.next
  replace hkind : c.kind = .close close.value := hkind
  replace hspan : c.current.span = close.span := hspan
  simp only [closeTag, hkind, hspan, hlast.nil_eq]

theorem closeEither_complete {unescaped : Bool} {close : Leaf Bool} {c d : Cursor}
    (h : Reads c [closingToken unescaped close] d) :
    closeEither unescaped c = .ok ((close.value, close.span.stop), d) := by
  cases unescaped with
  | false => exact closeTag_complete _ h
  | true =>
    obtain ⟨hkind, hspan, hlast⟩ := h.next
    replace hkind : c.kind = .closeUnescaped close.value := hkind
    replace hspan : c.current.span = close.span := hspan
    simp only [closeEither, if_true, closeUnescapedTag, hkind, hspan, hlast.nil_eq]

theorem closingToken_endsCall (unescaped : Bool) (close : Leaf Bool) :
    (closingToken unescaped close).kind.endsCall = true := by
  cases unescaped <;> rfl

theorem mustache_complete (fuel : Nat) (openStrip trusting unescaped : Bool)
    {call : CallTree ExprTree} {close : Leaf Bool} {c d : Cursor}
    (h : Reads c.advance (callTokens call ++ [closingToken unescaped close]) d)
    (hadmissible : WrittenAdmissible call) (hfuel : 2 * (callTokens call).length + 1 ≤ fuel) :
    mustache fuel openStrip trusting unescaped c
      = .ok (⟨callOf call, trusting, ⟨openStrip, close.value⟩,
          ⟨c.current.span.start, close.span.stop⟩⟩, d) := by
  obtain ⟨c₁, hcall, hclose⟩ := h.split
  have hends : c₁.kind.endsCall = true := by
    rw [hclose.kind]
    exact closingToken_endsCall unescaped close
  have hread := call_complete fuel call hcall hends hadmissible.1 hfuel
  refine mustache_eq_ok.mpr ⟨_, c₁, _, _, hread, closeEither_complete hclose, ?_, rfl⟩
  -- A literal is written alone.
  rw [callOf_bare, callOf_callee]
  cases hliteral : call.callee.isLiteral with
  | false => exact .inr rfl
  | true => exact .inl (hadmissible.2 hliteral)

theorem partialTag_complete (fuel : Nat) (openStrip : Bool) {call : CallTree ExprTree}
    {close : Leaf Bool} {c d : Cursor}
    (h : Reads c.advance (callTokens call ++ [closeToken close]) d)
    (hadmissible : CallAdmissible call) (hfuel : 2 * (callTokens call).length + 1 ≤ fuel) :
    partialTag fuel openStrip c
      = .ok (⟨callOf call, ⟨openStrip, close.value⟩,
          ⟨c.current.span.start, close.span.stop⟩⟩, d) := by
  obtain ⟨c₁, hcall, hclose⟩ := h.split
  have hread := call_complete fuel call hcall (by rw [hclose.kind]; rfl) hadmissible hfuel
  simp only [partialTag, bind_eq_ok, pure_eq_ok, Prod.exists, Prod.mk.injEq]
  exact ⟨_, c₁, hread, _, _, d, closeTag_complete _ hclose, rfl, rfl⟩

theorem blockOpening_complete (fuel : Nat) {o : OpeningTree} {c d : Cursor}
    (h : Reads c o.tokens d) (hadmissible : o.Admissible)
    (hfuel : 2 * o.tokens.length + 1 ≤ fuel) :
    blockOpening fuel c = .ok ((callOf o.call, paramsNames o.params, o.close.value), d) := by
  rw [OpeningTree.tokens, List.length_append] at hfuel
  obtain ⟨c₁, hcall, h⟩ := h.split
  obtain ⟨c₂, hparams, hclose⟩ := h.split
  have hends : c₁.kind.endsCall = true := by
    rw [h.kind, List.append_assoc]
    exact headKind_params o.params o.close _
  have hread := call_complete fuel o.call hcall hends hadmissible.1 (by omega)
  have hnames := blockParams_complete o.params hparams hclose.next.1
  simp only [blockOpening, bind_eq_ok, pure_eq_ok, Prod.exists, Prod.mk.injEq, checkCallee_eq_ok]
  refine ⟨_, c₁, hread, _, c₂, hnames, _, _, d, closeTag_complete _ hclose, (), ?_,
    ⟨rfl, rfl, rfl⟩, rfl⟩
  rw [callOf_callee]
  exact hadmissible.2

theorem blockClosing_complete (fuel : Nat) (expected : List String) {closing : ClosingTree}
    {c d : Cursor} (h : Reads c closing.tokens d) (hadmissible : closing.name.Admissible)
    (hfuel : 2 * closing.tokens.length ≤ fuel) :
    blockClosing fuel expected c
      = .ok ((closing.name.expr, closing.strip, closing.close.span.stop), d) := by
  simp only [ClosingTree.tokens, List.length_cons, List.length_append] at hfuel
  obtain ⟨hkind, -, h⟩ := h.next
  obtain ⟨c₁, hname, hclose⟩ := h.split
  have hread := expr_complete fuel closing.name hname (by rw [hclose.kind]; rfl) hadmissible
    (by omega)
  replace hkind : c.kind = .openEndBlock closing.mark.value := hkind
  simp only [blockClosing, hkind, bind_eq_ok, pure_eq_ok, Prod.exists, Prod.mk.injEq]
  exact ⟨_, c₁, hread, _, _, d, closeTag_complete _ hclose, ⟨rfl, rfl, rfl⟩, rfl⟩

/-! ### Statements -/

theorem StatementTree.tokens_ne_nil (t : StatementTree) : t.tokens ≠ [] := by
  cases t <;> simp [StatementTree.tokens]

/-- The other branch of a block ends a program. -/
theorem headKind_other (t : Option InverseTree) {rest : List Token}
    (h : (headKind rest).endsProgram = true) :
    (headKind (otherTokens t ++ rest)).endsProgram = true := by
  match t with
  | none => simpa only [otherTokens, List.nil_append] using h
  | some (.plain mark body) => rw [otherTokens, InverseTree.tokens]; rfl
  | some (.chain mark opening body inverse) => rw [otherTokens, InverseTree.tokens]; rfl

mutual

theorem statements_complete (fuel : Nat) (ts : List StatementTree) {c d : Cursor}
    (h : Reads c (statementsTokens ts) d) (hends : d.kind.endsProgram = true)
    (hadmissible : StatementsAdmissible ts)
    (hfuel : 2 * (statementsTokens ts).length + 1 ≤ fuel) :
    statements fuel c = .ok (nodesOf ts, d) := by
  obtain ⟨fuel, rfl⟩ : ∃ n, fuel = n + 1 := ⟨fuel - 1, by omega⟩
  match ts with
  | [] =>
    rw [statementsTokens] at h
    obtain rfl := h.nil_eq
    rw [statements, nodesOf]
    cases hkind : d.kind <;> rw [hkind] at hends <;> first | rfl | cases hends
  | t :: ts =>
    rw [statementsTokens] at h hfuel
    rw [StatementsAdmissible] at hadmissible
    rw [List.length_append] at hfuel
    have hpos := List.length_pos_iff.mpr t.tokens_ne_nil
    obtain ⟨c₁, hfirst, hrest⟩ := h.split
    -- The statements behind the first need less fuel, as it has at least one token.
    have hread := statements_complete fuel ts hrest hends hadmissible.2 (by omega)
    rw [nodesOf]
    replace hadmissible := hadmissible.1
    match t with
    | .content text =>
      rw [StatementTree.tokens] at hfirst
      obtain ⟨hkind, hspan, hlast⟩ := hfirst.next
      replace hkind : c.kind = .content text.value := hkind
      replace hspan : c.current.span = text.span := hspan
      rw [hlast.nil_eq] at hread
      simp only [statements, hkind, bind_eq_ok, pure_eq_ok, Prod.exists, Prod.mk.injEq]
      exact ⟨_, d, hread, by rw [StatementTree.node, hspan], rfl⟩
    | .comment text =>
      rw [StatementTree.tokens] at hfirst
      obtain ⟨hkind, hspan, hlast⟩ := hfirst.next
      replace hkind : c.kind = .comment text.value.1 text.value.2 := hkind
      replace hspan : c.current.span = text.span := hspan
      rw [hlast.nil_eq] at hread
      simp only [statements, hkind, bind_eq_ok, pure_eq_ok, Prod.exists, Prod.mk.injEq]
      exact ⟨_, d, hread, by rw [StatementTree.node, hspan], rfl⟩
    | .mustache mark call close =>
      rw [StatementTree.Admissible] at hadmissible
      rw [StatementTree.tokens] at hfirst hfuel
      simp only [List.length_cons, List.length_append] at hfuel
      obtain ⟨hkind, hspan, htag⟩ := hfirst.next
      replace hkind : c.kind = .open mark.value.1 mark.value.2 := hkind
      replace hspan : c.current.span = mark.span := hspan
      have hmustache := mustache_complete fuel mark.value.1 mark.value.2 false htag hadmissible
        (by omega)
      simp only [statements, hkind, bind_eq_ok, pure_eq_ok, Prod.exists, Prod.mk.injEq]
      exact ⟨_, c₁, hmustache, _, d, hread, by rw [StatementTree.node, hspan], rfl⟩
    | .unescaped mark call close =>
      rw [StatementTree.Admissible] at hadmissible
      rw [StatementTree.tokens] at hfirst hfuel
      simp only [List.length_cons, List.length_append] at hfuel
      obtain ⟨hkind, hspan, htag⟩ := hfirst.next
      replace hkind : c.kind = .openUnescaped mark.value := hkind
      replace hspan : c.current.span = mark.span := hspan
      have hmustache := mustache_complete fuel mark.value true true htag hadmissible (by omega)
      simp only [statements, hkind, bind_eq_ok, pure_eq_ok, Prod.exists, Prod.mk.injEq]
      exact ⟨_, c₁, hmustache, _, d, hread, by rw [StatementTree.node, hspan], rfl⟩
    | .partialCall mark call close =>
      rw [StatementTree.Admissible] at hadmissible
      rw [StatementTree.tokens] at hfirst hfuel
      simp only [List.length_cons, List.length_append] at hfuel
      obtain ⟨hkind, hspan, htag⟩ := hfirst.next
      replace hkind : c.kind = .openPartial mark.value := hkind
      replace hspan : c.current.span = mark.span := hspan
      have hpartial := partialTag_complete fuel mark.value htag hadmissible (by omega)
      simp only [statements, hkind, bind_eq_ok, pure_eq_ok, Prod.exists, Prod.mk.injEq]
      exact ⟨_, c₁, hpartial, _, d, hread, by rw [StatementTree.node, hspan], rfl⟩
    | .block mark opening body inverse closing =>
      have hblock := block_complete fuel mark opening body inverse closing hfirst hadmissible
        (by omega)
      have hkind : c.kind = .openBlock mark.value := by
        rw [StatementTree.tokens] at hfirst
        exact hfirst.next.1
      simp only [statements, hkind, bind_eq_ok, pure_eq_ok, Prod.exists, Prod.mk.injEq]
      exact ⟨_, c₁, hblock, _, d, hread, rfl, rfl⟩

theorem block_complete (fuel : Nat) (mark : Leaf Bool) (opening : OpeningTree)
    (body : List StatementTree) (inverse : Option InverseTree) (closing : ClosingTree)
    {c d : Cursor} (h : Reads c (StatementTree.block mark opening body inverse closing).tokens d)
    (hadmissible : (StatementTree.block mark opening body inverse closing).Admissible)
    (hfuel : 2 * (StatementTree.block mark opening body inverse closing).tokens.length ≤ fuel) :
    block fuel mark.value c
      = .ok ((StatementTree.block mark opening body inverse closing).node, d) := by
  rw [StatementTree.tokens] at h hfuel
  rw [StatementTree.Admissible] at hadmissible
  simp only [List.length_cons, List.length_append] at hfuel
  obtain ⟨fuel, rfl⟩ : ∃ n, fuel = n + 1 := ⟨fuel - 1, by omega⟩
  obtain ⟨hopens, hstatements, hother, hname, hspelling⟩ := hadmissible
  -- The closing tag is at least two braces and a name: fuel that the parts before it may use.
  have hclosing : 3 ≤ closing.tokens.length := by
    have hpos := List.length_pos_iff.mpr closing.name.tokens_ne_nil
    simp only [ClosingTree.tokens, List.length_cons, List.length_append, List.length_nil]
    omega
  obtain ⟨-, hspan, h⟩ := h.next
  obtain ⟨c₁, hopening, h⟩ := h.split
  obtain ⟨c₂, hbody, h⟩ := h.split
  obtain ⟨c₃, hinverse, hclose⟩ := h.split
  obtain ⟨hkind₃, hspan₃, -⟩ := Reads.next hclose
  -- The body ends where its branches or the closing tag begin.
  have hend₂ : c₂.kind.endsProgram = true := by
    rw [hinverse.kind]
    refine headKind_other inverse ?_
    rw [← Cursor.kind_eq, hkind₃]
    rfl
  have h₁ := blockOpening_complete fuel hopening hopens (by omega)
  have h₂ := statements_complete fuel body hbody hend₂ hstatements (by omega)
  obtain ⟨other, strip, h₃, hread⟩ :=
    inverse_complete fuel inverse hinverse hkind₃ hother (by omega)
  have h₄ := fun expected => blockClosing_complete fuel expected hclose hname (by omega)
  have hcallee : (callOf opening.call).callee = opening.call.callee.expr := by
    rw [callOf]
  replace hspan : c.current.span = mark.span := hspan
  replace hspan₃ : c₃.current.span = closing.mark.span := hspan₃
  simp only [block, bind_eq_ok, ite_eq_ok, pure_eq_ok, Prod.exists, Prod.mk.injEq]
  refine ⟨_, _, _, c₁, h₁, _, c₂, h₂, _, _, c₃, h₃, _, _, _, d, h₄ _, .inl ⟨?_, ?_, rfl⟩⟩
  · rw [hcallee]
    exact hspelling
  · rw [StatementTree.node, programBetween_eq hbody, hread.2, ← hread.1, hinverse.start, hspan,
      hspan₃]

theorem inverse_complete (fuel : Nat) (t : Option InverseTree) {c d : Cursor}
    (h : Reads c (otherTokens t) d) {strip : Bool} (hend : d.kind = .openEndBlock strip)
    (hadmissible : OtherAdmissible t) (hfuel : 2 * (otherTokens t).length + 1 ≤ fuel) :
    ∃ other strip, inverse fuel c = .ok ((other, strip), d) ∧ OtherRead other strip d t := by
  obtain ⟨fuel, rfl⟩ : ∃ n, fuel = n + 1 := ⟨fuel - 1, by omega⟩
  have hends : d.kind.endsProgram = true := by
    rw [hend]
    rfl
  match t with
  | none =>
    rw [otherTokens] at h
    obtain rfl := h.nil_eq
    refine ⟨none, {}, by simp only [inverse, hend], rfl, fun close => ?_⟩
    rw [setChainClose, otherOf]
    simp
  | some (.plain mark body) =>
    rw [otherTokens, InverseTree.tokens] at h hfuel
    rw [OtherAdmissible, InverseTree.Admissible] at hadmissible
    rw [List.length_cons] at hfuel
    obtain ⟨hkind, -, hbody⟩ := h.next
    replace hkind : c.kind = .inverse mark.value := hkind
    have hread := statements_complete fuel body hbody hends hadmissible (by omega)
    simp only [inverse, hkind, bind_eq_ok, pure_eq_ok, Prod.exists, Prod.mk.injEq]
    refine ⟨_, _, ⟨_, d, hread, ⟨rfl, rfl⟩, rfl⟩, rfl, fun close => ?_⟩
    rw [programBetween_eq hbody, setChainClose_of_plain rfl, otherOf, InverseTree.program]
  | some (.chain mark opening body inverse) =>
    rw [otherTokens, InverseTree.tokens] at h hfuel
    rw [OtherAdmissible, InverseTree.Admissible] at hadmissible
    simp only [List.length_cons, List.length_append] at hfuel
    obtain ⟨hopens, hstatements, hother⟩ := hadmissible
    obtain ⟨hkind, hspan, h⟩ := h.next
    replace hkind : c.kind = .openInverseChain mark.value := hkind
    replace hspan : c.current.span = mark.span := hspan
    obtain ⟨c₁, hopening, h⟩ := h.split
    obtain ⟨c₂, hbody, hinverse⟩ := h.split
    have hend₂ : c₂.kind.endsProgram = true := by
      rw [hinverse.kind]
      exact headKind_other inverse hends
    have h₁ := blockOpening_complete fuel hopening hopens (by omega)
    have h₂ := statements_complete fuel body hbody hend₂ hstatements (by omega)
    obtain ⟨other, strip, h₃, hread⟩ :=
      inverse_complete fuel inverse hinverse hend hother (by omega)
    simp only [Mustache.inverse, hkind, bind_eq_ok, pure_eq_ok, Prod.exists, Prod.mk.injEq]
    refine ⟨_, _, ⟨_, _, _, c₁, h₁, _, c₂, h₂, _, _, d, h₃, ⟨rfl, rfl⟩, rfl⟩, rfl, fun close => ?_⟩
    -- The link is closed as its surroundings say, and closes its own chain by its `else`.
    rw [hread.strip_eq, otherOf, InverseTree.program, setChainClose, programBetween_eq hbody,
      hread.2, hinverse.start, hspan]

end

end TemplateCompiler.Mustache

