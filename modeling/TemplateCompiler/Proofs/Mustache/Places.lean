/-
Where the statements of a program stand.

* `Node.Placed` — the spans of a statement nest, and the statements in it stand in
  order;
* `nodesPlaced` — statements one after the other between two offsets;
* `expr_fitIn`, `statements_placed` — what a derivation stands for is placed as its
  tokens are;
* `NodesStripTo.placed` — whitespace control leaves statements in their places;
* `parseProgram_placed` — the program of a source stands in order, from the start
  of the source to its end;
* `FromToken`, `parseProgram_standsAt` — its runs of text come from tokens, and so
  are pieces of the source.

A derivation has its tokens from left to right, so one fact about tokens
(`lex_inOrder`) places all that is read from them.  Named arguments are merged into
a span of their own, and merging treats `0..0` apart; a tag starts with braces, so
nothing in it can have that span.
-/
import TemplateCompiler.Proofs.Mustache.Unambiguity
import TemplateCompiler.Proofs.Template.Spans
import TemplateCompiler.Proofs.Template.Tags

namespace TemplateCompiler.Mustache

open Template (Pair Expr callSpans exprSpans pairSpans)

/-! ### Tokens -/

namespace InOrder

variable {lo hi : Nat} {ts : List Token}

theorem of_cons {kind : TokenKind} {span : Span} (h : InOrder lo (⟨kind, span⟩ :: ts) hi) :
    lo ≤ span.start ∧ span.start ≤ span.stop ∧ InOrder span.stop ts hi :=
  ⟨h.1, h.2.1.start_le, h.2.2⟩

/-- Tokens end where the last of them does. -/
theorem lastStop (h : InOrder lo ts hi) (hne : ts ≠ []) :
    InOrder lo ts (lastStop ts) ∧ Mustache.lastStop ts ≤ hi := by
  induction ts generalizing lo with
  | nil => exact absurd rfl hne
  | cons t rest ih =>
    obtain ⟨hstart, hplaced, hrest⟩ := h
    cases rest with
    | nil => exact ⟨⟨hstart, hplaced, Nat.le_refl _⟩, hrest⟩
    | cons u rest =>
      obtain ⟨hrest', hle⟩ := ih hrest (List.cons_ne_nil u rest)
      rw [Mustache.lastStop, List.getLast?_cons_cons, ← Mustache.lastStop]
      exact ⟨⟨hstart, hplaced, hrest'⟩, hle⟩

/-- Tokens start where the first of them does, or what follows them. -/
theorem startOf (h : InOrder lo ts hi) {next : Nat} (hnext : hi ≤ next) :
    lo ≤ startOf ts next ∧ Mustache.startOf ts next ≤ next ∧
      InOrder (Mustache.startOf ts next) ts next := by
  cases ts with
  | nil => exact ⟨Nat.le_trans h hnext, Nat.le_refl _, Nat.le_refl _⟩
  | cons t rest =>
    obtain ⟨hstart, hplaced, hrest⟩ := h
    have hle := Nat.le_trans hplaced.start_le (Nat.le_trans hrest.le hnext)
    exact ⟨hstart, hle, Nat.le_refl _, hplaced, hrest.weaken hnext⟩

end InOrder

theorem startOf_eq {ts : List Token} (hne : ts ≠ []) (next other : Nat) :
    startOf ts next = startOf ts other := by
  cases ts with
  | nil => exact absurd rfl hne
  | cons t rest => rfl

theorem lastStop_append {ts us : List Token} (hne : us ≠ []) :
    lastStop (ts ++ us) = lastStop us := by
  rw [lastStop, lastStop, List.getLast?_append_of_ne_nil ts hne]

theorem lastStop_cons {t : Token} {ts : List Token} (hne : ts ≠ []) :
    lastStop (t :: ts) = lastStop ts := by
  show lastStop ([t] ++ ts) = lastStop ts
  exact lastStop_append hne

/-! ### Expressions -/

theorem PathTree.path_span {p : PathTree} (h : p.Accepted) : p.path.span = p.span := by
  obtain ⟨path, hpath⟩ := h
  rw [PathTree.path, hpath]
  rw [PathTree.path?, Segment.toPath] at hpath
  split at hpath
  · cases hpath
    rfl
  · cases hpath

/-- An expression stands from the first of its tokens to the last. -/
theorem ExprTree.expr_span {t : ExprTree} (h : t.Admissible) :
    t.expr.span = ⟨startOf t.tokens 0, lastStop t.tokens⟩ := by
  cases t with
  | path p =>
    rw [ExprTree.Admissible] at h
    rw [ExprTree.expr, Expr.span, PathTree.path_span h, ExprTree.tokens, PathTree.tokens,
      lastStop_append (List.cons_ne_nil _ _), lastStop_names, PathTree.span]
    obtain ⟨data, first, rest⟩ := p
    cases data <;> rfl
  | literal value span =>
    rw [ExprTree.expr, ExprTree.tokens]
    rfl
  | sub opening call closing =>
    rw [ExprTree.expr, ExprTree.tokens, ← List.cons_append, lastStop_append (List.cons_ne_nil _ _)]
    rfl

/-- A named argument stands from its key to the end of its value. -/
theorem pair_bounds {key : Leaf String} {equals : Span} {value : ExprTree} {lo hi : Nat}
    (h : InOrder lo (⟨.id key.value, key.span⟩ :: ⟨.equals, equals⟩ :: value.tokens) hi)
    (hadmissible : value.Admissible) :
    lo ≤ key.span.start ∧ key.span.start ≤ value.expr.span.stop ∧ value.expr.span.stop ≤ hi := by
  obtain ⟨hkey, hkeySpan, h⟩ := h.of_cons
  obtain ⟨hequals, hequalsSpan, hvalue⟩ := h.of_cons
  obtain ⟨htight, hstop⟩ := hvalue.lastStop value.tokens_ne_nil
  have hle := htight.le
  rw [ExprTree.expr_span hadmissible]
  exact ⟨hkey, by show key.span.start ≤ lastStop value.tokens; omega, hstop⟩

/-- The last of named arguments ends where their tokens do. -/
theorem last_pair {ps : List (PairTree ExprTree)} {lo hi : Nat} {last : Pair Expr}
    (h : InOrder lo (pairsTokens ps) hi) (hadmissible : PairsAdmissible ps)
    (hlast : (pairsOf ps).getLast? = some last) :
    lo ≤ last.span.start ∧ last.span.start ≤ last.span.stop ∧
      last.span.stop = lastStop (pairsTokens ps) := by
  induction ps generalizing lo with
  | nil =>
    rw [pairsOf] at hlast
    cases hlast
  | cons pair rest ih =>
    obtain ⟨key, equals, value⟩ := pair
    rw [PairsAdmissible] at hadmissible
    rw [pairsTokens, ← List.cons_append, ← List.cons_append] at h ⊢
    obtain ⟨mid, hfirst, hrest⟩ := inOrder_append.mp h
    obtain ⟨hkey, hvalue, hmid⟩ := pair_bounds hfirst hadmissible.1
    -- Only the last one counts; those before it end in front of it.
    cases rest with
    | nil =>
      rw [pairsOf, pairsOf, List.getLast?_singleton, Option.some.injEq] at hlast
      subst hlast
      refine ⟨hkey, hvalue, ?_⟩
      rw [pairsTokens, List.append_nil, lastStop_cons (List.cons_ne_nil _ _),
        lastStop_cons value.tokens_ne_nil]
      show value.expr.span.stop = _
      rw [ExprTree.expr_span hadmissible.1]
    | cons other rest =>
      rw [pairsOf, pairsOf, List.getLast?_cons_cons, ← pairsOf] at hlast
      obtain ⟨hstart, hspan, hstop⟩ := ih hrest hadmissible.2 hlast
      refine ⟨by omega, hspan, ?_⟩
      rw [hstop, lastStop_append (by rw [pairsTokens]; exact List.cons_ne_nil _ _)]

theorem merge_eq {a b : Span} (ha : 0 < a.start) (hstart : a.start ≤ b.start)
    (hstop : a.stop ≤ b.stop) : a.merge b = ⟨a.start, b.stop⟩ := by
  have hnot : ∀ s : Span, 0 < s.start → s.isDummy = false := by
    intro s hs
    have hne : s.start ≠ 0 := Nat.ne_of_gt hs
    simp [Span.isDummy, hne]
  simp [Span.merge, hnot a ha, hnot b (Nat.lt_of_lt_of_le ha hstart), Nat.min_eq_left hstart,
    Nat.max_eq_right hstop]

/-- Named arguments together stand from the first key to the end of the last
value. -/
theorem namedSpan_eq {ps : List (PairTree ExprTree)} {lo hi stop : Nat} (hlo : 0 < lo)
    (h : InOrder lo (pairsTokens ps) hi) (hadmissible : PairsAdmissible ps) (hne : ps ≠ []) :
    namedSpan stop (pairsOf ps) = ⟨startOf (pairsTokens ps) 0, lastStop (pairsTokens ps)⟩ := by
  match ps with
  | ⟨key, equals, value⟩ :: rest =>
    have hnonempty : pairsTokens (⟨key, equals, value⟩ :: rest) ≠ [] := by
      rw [pairsTokens]
      exact List.cons_ne_nil _ _
    -- Between the first token and the end of the last one.
    have htight : InOrder key.span.start (pairsTokens (⟨key, equals, value⟩ :: rest))
        (lastStop (pairsTokens (⟨key, equals, value⟩ :: rest))) := by
      have hstart := ((h.lastStop hnonempty).1.startOf (Nat.le_refl _)).2.2
      rw [pairsTokens] at hstart ⊢
      exact hstart
    rw [pairsTokens] at h
    have hkey : 0 < key.span.start := Nat.lt_of_lt_of_le hlo h.1
    obtain ⟨hlastStart, -, hlastStop⟩ := last_pair htight hadmissible
      (by rw [pairsOf]; exact List.getLast?_cons)
    rw [PairsAdmissible] at hadmissible
    rw [pairsTokens, ← List.cons_append, ← List.cons_append] at htight
    obtain ⟨mid, hfirst, hrest⟩ := inOrder_append.mp htight
    have hvalue := (pair_bounds hfirst hadmissible.1).2.2
    have hstop := Nat.le_trans hvalue hrest.le
    rw [pairsOf, namedSpan]
    refine (merge_eq (a := ⟨key.span.start, value.expr.span.stop⟩) hkey hlastStart ?_).trans ?_
    · rw [hlastStop, pairsTokens]
      exact hstop
    · rw [hlastStop, pairsTokens]
      rfl

mutual

/-- An expression is placed as its tokens are. -/
theorem expr_fitIn (t : ExprTree) {lo hi : Nat} (hlo : 0 < lo) (h : InOrder lo t.tokens hi)
    (hadmissible : t.Admissible) : FitIn lo hi [t.expr.spanTree] := by
  have hspan := ExprTree.expr_span hadmissible
  -- The span goes from the first token to the end of the last one.
  obtain ⟨htight, hstop⟩ := h.lastStop t.tokens_ne_nil
  obtain ⟨hstart, hle, -⟩ := htight.startOf (Nat.le_refl _)
  rw [startOf_eq t.tokens_ne_nil _ 0] at hstart hle
  match t with
  | .path p =>
    rw [ExprTree.expr] at hspan ⊢
    rw [Expr.spanTree]
    replace hspan : p.path.span = _ := hspan
    rw [hspan]
    exact .leaf hle hstart hstop
  | .literal value span =>
    rw [ExprTree.expr] at hspan ⊢
    rw [Expr.spanTree]
    replace hspan : span = _ := hspan
    rw [hspan]
    exact .leaf hle hstart hstop
  | .sub opening call closing =>
    rw [ExprTree.Admissible] at hadmissible
    rw [ExprTree.tokens] at h
    rw [ExprTree.expr, Expr.spanTree]
    obtain ⟨hopening, hopens, h⟩ := h.of_cons
    obtain ⟨mid, hcall, hlast⟩ := inOrder_append.mp h
    obtain ⟨hclosing, hcloses, hend⟩ := hlast.of_cons
    have hmid := hcall.le
    have hfit := call_fitIn call (by omega) hcall hadmissible.1
    refine .node ?_ hopening hend (hfit.mono hopens ?_)
    · show opening.start ≤ closing.stop
      omega
    · show mid ≤ closing.stop
      omega

/-- The parts of a call are placed as their tokens are. -/
theorem call_fitIn (t : CallTree ExprTree) {lo hi : Nat} (hlo : 0 < lo)
    (h : InOrder lo (callTokens t) hi) (hadmissible : CallAdmissible t) :
    FitIn lo hi (callSpans (callOf t)) := by
  match t with
  | ⟨callee, ts, ps⟩ =>
    rw [CallAdmissible] at hadmissible
    rw [callTokens, ← List.append_assoc] at h
    rw [callOf, callSpans]
    obtain ⟨mid, hfront, hpairs⟩ := inOrder_append.mp h
    obtain ⟨mid', hcallee, hparams⟩ := inOrder_append.mp hfront
    have hlo' : 0 < mid' := Nat.lt_of_lt_of_le hlo hcallee.le
    have hfirst := expr_fitIn callee hlo hcallee hadmissible.1
    have hmore := exprs_fitIn ts hlo' hparams hadmissible.2.1
    have hmid := hparams.le
    have hhi := hpairs.le
    refine FitIn.cons_iff.mpr ⟨(FitIn.cons_iff.mp (hfirst.mono (Nat.le_refl _) (by omega))).1,
      (hmore.mono hcallee.le hhi).append ?_⟩
    by_cases hempty : ps = []
    · -- No named arguments: their span is the place after the other arguments.
      subst hempty
      obtain ⟨htight, hstop⟩ := hfront.lastStop (by simp [callee.tokens_ne_nil])
      rw [pairsOf, pairSpans]
      exact .leaf (Nat.le_refl _) htight.le (Nat.le_trans hstop hhi)
    · have hlo'' : 0 < mid := Nat.lt_of_lt_of_le hlo' hmid
      have hne : pairsTokens ps ≠ [] := by
        obtain ⟨pair, rest, rfl⟩ := List.exists_cons_of_ne_nil hempty
        rw [pairsTokens]
        exact List.cons_ne_nil _ _
      obtain ⟨htight, hstop⟩ := hpairs.lastStop hne
      obtain ⟨hstart, hle, htight'⟩ := htight.startOf (Nat.le_refl _)
      rw [startOf_eq hne _ 0] at hstart hle htight'
      have hfit := pairs_fitIn ps (Nat.lt_of_lt_of_le hlo'' hstart) htight' hadmissible.2.2
      rw [namedSpan_eq hlo'' hpairs hadmissible.2.2 hempty]
      exact .node hle (Nat.le_trans hfront.le hstart) hstop hfit

/-- Positional arguments are placed as their tokens are. -/
theorem exprs_fitIn (ts : List ExprTree) {lo hi : Nat} (hlo : 0 < lo)
    (h : InOrder lo (exprsTokens ts) hi) (hadmissible : ExprsAdmissible ts) :
    FitIn lo hi (exprSpans (exprsOf ts)) := by
  match ts with
  | [] =>
    rw [exprsOf, exprSpans]
    exact .nil
  | t :: rest =>
    rw [ExprsAdmissible] at hadmissible
    rw [exprsTokens] at h
    rw [exprsOf, exprSpans]
    obtain ⟨mid, hfirst, hrest⟩ := inOrder_append.mp h
    have hfit := expr_fitIn t hlo hfirst hadmissible.1
    have hmore := exprs_fitIn rest (Nat.lt_of_lt_of_le hlo hfirst.le) hrest hadmissible.2
    exact (hfit.mono (Nat.le_refl _) hrest.le).append (hmore.mono hfirst.le (Nat.le_refl _))

/-- Named arguments are placed as their tokens are. -/
theorem pairs_fitIn (ps : List (PairTree ExprTree)) {lo hi : Nat} (hlo : 0 < lo)
    (h : InOrder lo (pairsTokens ps) hi) (hadmissible : PairsAdmissible ps) :
    FitIn lo hi (pairSpans (pairsOf ps)) := by
  match ps with
  | [] =>
    rw [pairsOf, pairSpans]
    exact .nil
  | ⟨key, equals, value⟩ :: rest =>
    rw [PairsAdmissible] at hadmissible
    rw [pairsTokens, ← List.cons_append, ← List.cons_append] at h
    rw [pairsOf, pairSpans]
    obtain ⟨mid, hfirst, hrest⟩ := inOrder_append.mp h
    obtain ⟨hkey, hvalue, hmid⟩ := pair_bounds hfirst hadmissible.1
    obtain ⟨-, hkeySpan, hfirst⟩ := hfirst.of_cons
    obtain ⟨hequals, hequalsSpan, hfirst⟩ := hfirst.of_cons
    have hfit := expr_fitIn value (by omega) (hfirst.lastStop value.tokens_ne_nil).1 hadmissible.1
    have hmore := pairs_fitIn rest (by omega) hrest hadmissible.2
    have hstop : lastStop value.tokens = value.expr.span.stop := by
      rw [ExprTree.expr_span hadmissible.1]
    have hhi := hrest.le
    -- The pair is a span around its value: from its key to the end of the value.
    have hpair : FitIn lo hi
        [.node ⟨key.span.start, value.expr.span.stop⟩ [value.expr.spanTree]] := by
      refine .node hvalue hkey (Nat.le_trans hmid hhi) (hfit.mono ?_ (Nat.le_of_eq hstop))
      show key.span.start ≤ equals.stop
      omega
    exact hpair.append (hmore.mono (by omega) (Nat.le_refl _))

end

/-! ### Statements -/

/-- A run of text stands in its span, as far as offsets are held. -/
def Content.Placed (c : Content) : Prop :=
  c.span.start ≤ min c.valueStart maxOffset ∧
    min (c.valueStart + Text.byteLength c.value) maxOffset ≤ c.span.stop

mutual

/-- The spans of a statement nest, and the statements in it stand in order. -/
def Node.Placed : Node → Prop
  | .content c => c.Placed
  | .comment _ _ span => span.start ≤ span.stop
  | .mustache tag => tag.spanTree.Nested
  | .partialCall tag => tag.spanTree.Nested
  | .block tag program other =>
    (SpanTree.node tag.span (callSpans tag.call)).Nested ∧
      ∃ mid, programPlaced tag.span.start program mid ∧ otherPlaced mid other tag.span.stop

/-- Statements stand one after the other between two offsets. -/
def nodesPlaced (lo : Nat) : List Node → Nat → Prop
  | [], hi => lo ≤ hi
  | n :: rest, hi => lo ≤ n.span.start ∧ n.Placed ∧ nodesPlaced n.span.stop rest hi

/-- A program stands between two offsets, with its statements in its span. -/
def programPlaced (lo : Nat) : Program → Nat → Prop
  | ⟨body, _, _, span⟩, hi =>
    lo ≤ span.start ∧ nodesPlaced span.start body span.stop ∧ span.stop ≤ hi

/-- A program that may be missing stands between two offsets. -/
def otherPlaced (lo : Nat) : Option Program → Nat → Prop
  | none, hi => lo ≤ hi
  | some program, hi => programPlaced lo program hi

end

theorem programPlaced_mono {program : Program} {lo lo' hi : Nat}
    (h : programPlaced lo program hi) (hle : lo' ≤ lo) : programPlaced lo' program hi := by
  obtain ⟨body, names, chained, span⟩ := program
  rw [programPlaced] at h ⊢
  exact ⟨Nat.le_trans hle h.1, h.2⟩

theorem otherPlaced_weaken {other : Option Program} {lo hi hi' : Nat}
    (h : otherPlaced lo other hi) (hle : hi ≤ hi') : otherPlaced lo other hi' := by
  match other with
  | none =>
    rw [otherPlaced] at h ⊢
    exact Nat.le_trans h hle
  | some ⟨body, names, chained, span⟩ =>
    rw [otherPlaced, programPlaced] at h ⊢
    exact ⟨h.1, h.2.1, Nat.le_trans h.2.2 hle⟩

/-- A tag of a statement from its first token to its last. -/
theorem tag_nested (mark close : Span) {kind kind' : TokenKind} {call : CallTree ExprTree}
    {lo hi : Nat} (h : InOrder lo (⟨kind, mark⟩ :: (callTokens call ++ [⟨kind', close⟩])) hi)
    (hkind : kind ≠ .eof) (hadmissible : CallAdmissible call) :
    lo ≤ mark.start ∧ (SpanTree.node ⟨mark.start, close.stop⟩ (callSpans (callOf call))).Nested ∧
      close.stop ≤ hi := by
  have hpos : 0 < mark.stop := h.2.1.stop_pos hkind
  obtain ⟨hmark, hmarkSpan, h⟩ := h.of_cons
  obtain ⟨mid, hcall, hlast⟩ := inOrder_append.mp h
  obtain ⟨hclose, hcloseSpan, hend⟩ := hlast.of_cons
  have hmid := hcall.le
  refine ⟨hmark, FitIn.nested ?_ ?_, hend⟩
  · show mark.start ≤ close.stop
    omega
  · exact (call_fitIn call hpos hcall hadmissible).mono hmarkSpan
      (Nat.le_trans hclose hcloseSpan)

/-- A program stands from its first token to what follows it. -/
theorem program_placed {ts : List StatementTree} {lo hi next : Nat}
    (h : InOrder lo (statementsTokens ts) hi) (hnext : hi ≤ next)
    (hbody : ∀ {lo hi : Nat}, InOrder lo (statementsTokens ts) hi → nodesPlaced lo (nodesOf ts) hi)
    (names : List String) :
    programPlaced lo
      { body := nodesOf ts, params := names, span := programSpan (statementsTokens ts) next }
      next := by
  obtain ⟨hstart, hle, htight⟩ := h.startOf hnext
  rw [programPlaced, programSpan, Nat.max_eq_left hle]
  exact ⟨hstart, hbody htight, Nat.le_refl _⟩

/-- The tag and the branches of a block, or of a link of a chain. -/
theorem branches_placed {opening : OpeningTree} {body : List StatementTree}
    {inverse : Option InverseTree} {lo hi stop : Nat} {close : Strip} (hlo : 0 < lo)
    (h : InOrder lo (opening.tokens ++ (statementsTokens body ++ otherTokens inverse)) hi)
    (hhi : hi ≤ stop) (hadmissible : opening.Admissible)
    (hbody : ∀ {lo hi : Nat}, InOrder lo (statementsTokens body) hi →
      nodesPlaced lo (nodesOf body) hi)
    (hother : ∀ {lo hi : Nat}, InOrder lo (otherTokens inverse) hi → hi ≤ stop →
      otherPlaced (startOf (otherTokens inverse) stop) (otherOf stop close inverse) stop) :
    FitIn lo stop (callSpans (callOf opening.call)) ∧
      ∃ mid, programPlaced lo
        { body := nodesOf body
          params := paramsNames opening.params
          span := programSpan (statementsTokens body) (startOf (otherTokens inverse) stop) } mid ∧
        otherPlaced mid (otherOf stop close inverse) stop := by
  obtain ⟨a, hopening, h⟩ := inOrder_append.mp h
  obtain ⟨b, hstatements, hinverse⟩ := inOrder_append.mp h
  rw [OpeningTree.tokens] at hopening
  obtain ⟨d, hcall, htag⟩ := inOrder_append.mp hopening
  have hd := htag.le
  have ha := hstatements.le
  have hb := hinverse.le
  refine ⟨(call_fitIn opening.call hlo hcall hadmissible.1).mono (Nat.le_refl _) (by omega),
    startOf (otherTokens inverse) stop, ?_, hother hinverse hhi⟩
  exact program_placed (hstatements.mono hopening.le) (hinverse.startOf hhi).1 hbody _

mutual

/-- A statement is placed as its tokens are. -/
theorem statement_placed (t : StatementTree) {lo hi : Nat} (h : InOrder lo t.tokens hi)
    (hadmissible : t.Admissible) :
    lo ≤ t.node.span.start ∧ t.node.Placed ∧ t.node.span.stop ≤ hi := by
  match t with
  | .content text =>
    rw [StatementTree.tokens] at h
    rw [StatementTree.node, Node.Placed]
    obtain ⟨hstart, hplaced, hend⟩ := h
    obtain ⟨hmax, hroom⟩ := hplaced.room text.value rfl
    refine ⟨hstart, ⟨?_, hroom⟩, hend⟩
    exact Nat.le_min.mpr ⟨Nat.le_refl _, hmax⟩
  | .comment text =>
    rw [StatementTree.tokens] at h
    rw [StatementTree.node, Node.Placed]
    obtain ⟨hstart, hspan, hend⟩ := h.of_cons
    exact ⟨hstart, hspan, hend⟩
  | .mustache mark call close =>
    rw [StatementTree.Admissible] at hadmissible
    rw [StatementTree.tokens] at h
    rw [StatementTree.node, Node.Placed]
    exact tag_nested mark.span close.span h (by simp) hadmissible.1
  | .unescaped mark call close =>
    rw [StatementTree.Admissible] at hadmissible
    rw [StatementTree.tokens] at h
    rw [StatementTree.node, Node.Placed]
    exact tag_nested mark.span close.span h (by simp) hadmissible.1
  | .partialCall mark call close =>
    rw [StatementTree.Admissible] at hadmissible
    rw [StatementTree.tokens] at h
    rw [StatementTree.node, Node.Placed]
    exact tag_nested mark.span close.span h (by simp) hadmissible
  | .block mark opening body inverse closing =>
    rw [StatementTree.Admissible] at hadmissible
    rw [StatementTree.tokens] at h
    rw [StatementTree.node, Node.Placed]
    have hpos : 0 < mark.span.stop := h.2.1.stop_pos (by simp)
    obtain ⟨hmark, hmarkSpan, h⟩ := h.of_cons
    rw [← List.append_assoc, ← List.append_assoc, List.append_assoc opening.tokens] at h
    obtain ⟨mid, hbranches, hclosing⟩ := inOrder_append.mp h
    obtain ⟨hopens, hstatements, hother, hname, -⟩ := hadmissible
    -- The closing tag is in order too, up to the end of the block.
    rw [ClosingTree.tokens] at hclosing
    obtain ⟨hstop, hstopSpan, hclosing⟩ := hclosing.of_cons
    obtain ⟨mid', hname', hlast⟩ := inOrder_append.mp hclosing
    obtain ⟨hclose, hcloseSpan, hend⟩ := hlast.of_cons
    have hname'' := hname'.le
    obtain ⟨hcall, next, hprogram, hinverse⟩ := branches_placed hpos hbranches hstop hopens
      (fun h => statements_placed body h hstatements)
      (fun h hhi => other_placed inverse closing.strip h hhi hother)
    have hle : mark.span.stop ≤ closing.mark.span.start := Nat.le_trans hbranches.le hstop
    refine ⟨hmark, ⟨FitIn.nested ?_ (hcall.mono hmarkSpan ?_), next,
      programPlaced_mono hprogram hmarkSpan, otherPlaced_weaken hinverse ?_⟩, hend⟩
    · show mark.span.start ≤ closing.close.span.stop
      omega
    · show closing.mark.span.start ≤ closing.close.span.stop
      omega
    · show closing.mark.span.start ≤ closing.close.span.stop
      omega

/-- Statements are placed as their tokens are. -/
theorem statements_placed (ts : List StatementTree) {lo hi : Nat}
    (h : InOrder lo (statementsTokens ts) hi) (hadmissible : StatementsAdmissible ts) :
    nodesPlaced lo (nodesOf ts) hi := by
  match ts with
  | [] =>
    rw [statementsTokens] at h
    rw [nodesOf, nodesPlaced]
    exact h
  | t :: rest =>
    rw [StatementsAdmissible] at hadmissible
    rw [statementsTokens] at h
    rw [nodesOf, nodesPlaced]
    obtain ⟨mid, hfirst, hrest⟩ := inOrder_append.mp h
    obtain ⟨hstart, hplaced, hstop⟩ := statement_placed t hfirst hadmissible.1
    exact ⟨hstart, hplaced, statements_placed rest (hrest.mono hstop) hadmissible.2⟩

/-- The other branch of a block is placed as its tokens are, up to the closing
tag. -/
theorem other_placed (t : Option InverseTree) (close : Strip) {lo hi stop : Nat}
    (h : InOrder lo (otherTokens t) hi) (hhi : hi ≤ stop) (hadmissible : OtherAdmissible t) :
    otherPlaced (startOf (otherTokens t) stop) (otherOf stop close t) stop := by
  match t with
  | none =>
    rw [otherTokens, otherOf, otherPlaced]
    exact Nat.le_refl _
  | some (.plain mark body) =>
    rw [OtherAdmissible, InverseTree.Admissible] at hadmissible
    rw [otherTokens, InverseTree.tokens] at h ⊢
    rw [otherOf, otherPlaced, InverseTree.program]
    obtain ⟨hmark, hmarkSpan, hbody⟩ := h.of_cons
    exact program_placed (hbody.mono hmarkSpan) hhi
      (fun h => statements_placed body h hadmissible) []
  | some (.chain mark opening body inverse) =>
    rw [OtherAdmissible, InverseTree.Admissible] at hadmissible
    rw [otherTokens, InverseTree.tokens] at h ⊢
    rw [otherOf, otherPlaced, InverseTree.program]
    have hpos : 0 < mark.span.stop := h.2.1.stop_pos (by simp)
    obtain ⟨hmark, hmarkSpan, h⟩ := h.of_cons
    obtain ⟨hopens, hstatements, hother⟩ := hadmissible
    obtain ⟨hcall, next, hprogram, hinverse⟩ := branches_placed hpos h hhi hopens
      (fun h => statements_placed body h hstatements)
      (fun h hhi => other_placed inverse (otherStrip inverse) h hhi hother)
    have hle : mark.span.start ≤ stop :=
      Nat.le_trans hmarkSpan (Nat.le_trans h.le hhi)
    -- The link is the only statement of its program, with the same span.
    rw [programPlaced, nodesPlaced, nodesPlaced, Node.Placed]
    have hlink : (SpanTree.node ⟨mark.span.start, stop⟩ (callSpans (callOf opening.call))).Nested :=
      FitIn.nested hle (hcall.mono hmarkSpan (Nat.le_refl _))
    exact ⟨Nat.le_refl _, ⟨Nat.le_refl _, ⟨hlink, next, programPlaced_mono hprogram hmarkSpan,
      hinverse⟩, Nat.le_refl _⟩, Nat.le_refl _⟩

end

/-! ### Runs of text -/

/-- A run of text that was copied from a token. -/
def FromToken (tokens : List Token) (text : Content) : Prop :=
  ∃ t ∈ tokens, ∃ value, t.kind = .content value ∧ text = .ofText value t.span

theorem FromToken.mono {tokens tokens' : List Token} {text : Content} (h : FromToken tokens text)
    (hsubset : tokens ⊆ tokens') : FromToken tokens' text := by
  obtain ⟨t, ht, htext⟩ := h
  exact ⟨t, hsubset ht, htext⟩

mutual

/-- The runs of text in a statement come from its tokens. -/
theorem statement_fromToken (t : StatementTree) {text : Content}
    (h : .content text ∈ t.node.within) : FromToken t.tokens text := by
  match t with
  | .content leaf =>
    rw [StatementTree.node, Node.within, List.mem_singleton, Node.content.injEq] at h
    rw [StatementTree.tokens]
    exact ⟨_, List.mem_singleton_self _, leaf.value, rfl, h⟩
  | .comment _ | .mustache .. | .unescaped .. | .partialCall .. =>
    simp [StatementTree.node, Node.within] at h
  | .block mark opening body inverse closing =>
    simp only [StatementTree.node, Node.within, programWithin, List.mem_cons, List.mem_append,
      reduceCtorEq, false_or] at h
    rw [StatementTree.tokens]
    rcases h with h | h
    · exact (statements_fromToken body h).mono fun t ht => by simp [ht]
    · exact (other_fromToken inverse h).mono fun t ht => by simp [ht]

theorem statements_fromToken (ts : List StatementTree) {text : Content}
    (h : .content text ∈ nodesWithin (nodesOf ts)) : FromToken (statementsTokens ts) text := by
  match ts with
  | [] => simp [nodesOf, nodesWithin] at h
  | t :: rest =>
    simp only [nodesOf, nodesWithin, List.mem_append] at h
    rw [statementsTokens]
    rcases h with h | h
    · exact (statement_fromToken t h).mono (List.subset_append_left _ _)
    · exact (statements_fromToken rest h).mono (List.subset_append_right _ _)

theorem other_fromToken (t : Option InverseTree) {stop : Nat} {close : Strip} {text : Content}
    (h : .content text ∈ otherWithin (otherOf stop close t)) : FromToken (otherTokens t) text := by
  match t with
  | none => simp [otherOf, otherWithin] at h
  | some (.plain mark body) =>
    rw [otherOf, otherWithin, InverseTree.program, programWithin] at h
    rw [otherTokens, InverseTree.tokens]
    exact (statements_fromToken body h).mono (List.subset_cons_self _ _)
  | some (.chain mark opening body inverse) =>
    simp only [otherOf, otherWithin, InverseTree.program, programWithin, nodesWithin, Node.within,
      List.append_nil, List.mem_cons, List.mem_append, reduceCtorEq, false_or] at h
    rw [otherTokens, InverseTree.tokens]
    rcases h with h | h
    · exact (statements_fromToken body h).mono fun t ht => by simp [ht]
    · exact (other_fromToken inverse h).mono fun t ht => by simp [ht]

end

/-! ### Whitespace control -/

theorem Content.StripsTo.placed {c c' : Content} (h : c.StripsTo c') (hplaced : c.Placed) :
    c'.Placed := by
  obtain ⟨front, back, hvalue, hstart, -, -⟩ := h.kept
  obtain ⟨hbefore, hafter⟩ := hplaced
  rw [hvalue, Text.byteLength_append, Text.byteLength_append] at hafter
  rw [Content.Placed, h.span, hstart]
  omega

theorem Node.StripsTo.span_eq {n n' : Node} (h : n.StripsTo n') : n'.span = n.span := by
  cases h with
  | content h => exact h.span
  | comment => rfl
  | mustache => rfl
  | partialCall => rfl
  | block hprogram hother => rfl

mutual

theorem Node.StripsTo.placed {n n' : Node} : n.StripsTo n' → n.Placed → n'.Placed
  | .content h, hplaced => by
    rw [Node.Placed] at hplaced ⊢
    exact h.placed hplaced
  | .comment, hplaced => hplaced
  | .mustache, hplaced => hplaced
  | .partialCall, hplaced => hplaced
  | .block hprogram hother, hplaced => by
    rw [Node.Placed] at hplaced ⊢
    obtain ⟨htag, mid, hplaced, hplaced'⟩ := hplaced
    exact ⟨htag, mid, hprogram.placed hplaced, hother.placed hplaced'⟩

theorem NodesStripTo.placed {body body' : List Node} {lo hi : Nat} :
    NodesStripTo body body' → nodesPlaced lo body hi → nodesPlaced lo body' hi
  | .nil, hplaced => hplaced
  | .cons hfirst hrest, hplaced => by
    rw [nodesPlaced] at hplaced ⊢
    rw [hfirst.span_eq]
    exact ⟨hplaced.1, hfirst.placed hplaced.2.1, hrest.placed hplaced.2.2⟩

theorem ProgramStripsTo.placed {program program' : Program} {lo hi : Nat} :
    ProgramStripsTo program program' → programPlaced lo program hi → programPlaced lo program' hi
  | .mk hbody, hplaced => by
    rw [programPlaced] at hplaced ⊢
    exact ⟨hplaced.1, hbody.placed hplaced.2.1, hplaced.2.2⟩

theorem OtherStripsTo.placed {other other' : Option Program} {lo hi : Nat} :
    OtherStripsTo other other' → otherPlaced lo other hi → otherPlaced lo other' hi
  | .none, hplaced => hplaced
  | .some hprogram, hplaced => by
    rw [otherPlaced] at hplaced ⊢
    exact hprogram.placed hplaced

end

/-! ### Programs -/

/-- The program of a source stands in order, from the start of the source to its
end. -/
theorem parseProgram_placed {source : String} {program : Program}
    (h : parseProgram (lex source) = .ok program) :
    programPlaced 0 program (Text.byteLength source.toList) := by
  obtain ⟨t, htokens, hadmissible, rfl⟩ := parseProgram_sound (lex_ends source) h
  have horder := lex_inOrder source
  rw [← htokens, RootTree.tokens] at horder
  obtain ⟨mid, hbody, heof⟩ := inOrder_append.mp horder
  obtain ⟨hstart, hspan, hend⟩ := heof.of_cons
  rw [RootTree.program, programPlaced]
  refine ⟨Nat.le_refl _, statements_placed t.body (hbody.weaken ?_) hadmissible, ?_⟩
  · exact Nat.le_trans hstart hspan
  · exact Nat.le_trans hend (Nat.min_le_left _ _)

/-- Every run of text of a program is a piece of the source. -/
theorem parseProgram_standsAt {source : String} {program : Program}
    (hlength : Text.byteLength source.toList ≤ maxOffset)
    (h : parseProgram (lex source) = .ok program) :
    ∀ text, .content text ∈ nodesWithin program.body →
      Text.StandsAt source.toList text.value text.valueStart := by
  intro text htext
  obtain ⟨t, htokens, -, rfl⟩ := parseProgram_sound (lex_ends source) h
  have hfrom : FromToken (lex source) text :=
    htokens ▸ (statements_fromToken t.body htext).mono (List.subset_append_left _ _)
  obtain ⟨token, htoken, value, hkind, rfl⟩ := hfrom
  obtain ⟨before, after, hsource, hstart⟩ := lex_standsIn source token htoken value hkind
  have hbefore : Text.byteLength before ≤ maxOffset := by
    refine Nat.le_trans ?_ hlength
    rw [hsource, List.append_assoc, Text.byteLength_append]
    exact Nat.le_add_right _ _
  refine ⟨before, after, hsource, ?_⟩
  rw [Content.ofText, hstart, Nat.zero_add, Nat.min_eq_left hbefore]

end TemplateCompiler.Mustache
