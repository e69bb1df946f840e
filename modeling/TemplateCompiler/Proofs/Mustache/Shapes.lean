/-
Programs that differ only in where they stand.

What a program says does not depend on the offsets of its tokens, on the tildes
of its tags, or on whether a branch was written as a link of a chain.

* `programShape` — a program without its spans, its stripping and the marks of
  chains;
* `Node.Matches` — two statements of one shape, whose spans are related;
* `StatementTree.move` — a derivation with all its offsets changed;
* `statements_move_match` — moving a derivation keeps what it stands for;
* `parseProgram_move` — so tokens with other offsets spell a program of the same
  shape.
-/
import TemplateCompiler.Proofs.Mustache.Unambiguity

namespace TemplateCompiler

/-- A span with both ends moved. -/
def Span.move (g : Nat → Nat) (s : Span) : Span := ⟨g s.start, g s.stop⟩

namespace Template

/-! ### Expressions without spans -/

/-- A path without its span. -/
def Path.shape (p : Path) : Path := { p with span := .dummy }

mutual

/-- An expression without its spans. -/
def Expr.shape : Expr → Expr
  | .path p => .path p.shape
  | .sub ⟨callee, params, ⟨pairs, _⟩⟩ _ =>
    .sub ⟨callee.shape, shapeExprs params, ⟨shapePairs pairs, .dummy⟩⟩ .dummy
  | .literal value _ => .literal value .dummy

/-- Expressions without their spans. -/
def shapeExprs : List Expr → List Expr
  | [] => []
  | e :: rest => e.shape :: shapeExprs rest

/-- Named arguments without their spans. -/
def shapePairs : List (Pair Expr) → List (Pair Expr)
  | [] => []
  | pair :: rest => ⟨pair.key, pair.value.shape, .dummy⟩ :: shapePairs rest

end

/-- A call without its spans. -/
def Call.shape (call : Call Expr) : Call Expr :=
  ⟨call.callee.shape, shapeExprs call.params, ⟨shapePairs call.hash.pairs, .dummy⟩⟩

end Template

namespace Mustache

open Template

/-- How a callee is spelled has nothing to do with where it stands. -/
theorem spelling_shape (e : Expr) : spelling e.shape = spelling e := by
  cases e with
  | path p => rfl
  | sub call span =>
    rw [Expr.shape]
    rfl
  | literal value span => rfl

/-! ### Programs without spans -/

/-- A run of text without the place where it stands. -/
def Content.shape (c : Content) : Content := { c with valueStart := 0, span := .dummy }

mutual

/-- A statement without its spans, its stripping and the marks of chains. -/
def Node.shape : Node → Node
  | .content c => .content c.shape
  | .comment value _ _ => .comment value {} .dummy
  | .mustache tag => .mustache ⟨tag.call.shape, tag.trusting, {}, .dummy⟩
  | .partialCall tag => .partialCall ⟨tag.call.shape, {}, .dummy⟩
  | .block tag program other =>
    .block ⟨tag.call.shape, {}, {}, {}, .dummy⟩ (programShape program) (otherShape other)

/-- Statements without their spans, stripping and marks of chains. -/
def nodesShape : List Node → List Node
  | [] => []
  | n :: rest => n.shape :: nodesShape rest

/-- A program without its spans, its stripping and the marks of chains. -/
def programShape : Program → Program
  | ⟨body, names, _, _⟩ => ⟨nodesShape body, names, false, .dummy⟩

/-- The shape of a program that may be missing. -/
def otherShape : Option Program → Option Program
  | none => none
  | some program => some (programShape program)

end

/-! ### Statements of one shape -/

section Matching

variable (σ : Span → Span → Prop) (held : Node → Prop)

mutual

/-- Two statements have one shape, and their spans are related, except for blocks
that the predicate `held` leaves out. -/
inductive Node.Matches : Node → Node → Prop
  | content {c c' : Content} (h : c.shape = c'.shape) : Node.Matches (.content c) (.content c')
  | comment {value : String} {strip strip' : Strip} {span span' : Span} (h : σ span span') :
    Node.Matches (.comment value strip span) (.comment value strip' span')
  | mustache {tag tag' : MustacheTag} (hcall : tag.call.shape = tag'.call.shape)
    (htrusting : tag.trusting = tag'.trusting) (h : σ tag.span tag'.span) :
    Node.Matches (.mustache tag) (.mustache tag')
  | partialCall {tag tag' : PartialTag} (hcall : tag.call.shape = tag'.call.shape)
    (h : σ tag.span tag'.span) : Node.Matches (.partialCall tag) (.partialCall tag')
  | block {tag tag' : BlockTag} {program program' : Program} {other other' : Option Program}
    (hcall : tag.call.shape = tag'.call.shape)
    (h : held (.block tag program other) ∨ σ tag.span tag'.span)
    (hprogram : ProgramMatches program program') (hother : OtherMatches other other') :
    Node.Matches (.block tag program other) (.block tag' program' other')

/-- The statements of two lists match one by one. -/
inductive NodesMatch : List Node → List Node → Prop
  | nil : NodesMatch [] []
  | cons {n n' : Node} {rest rest' : List Node} (hfirst : Node.Matches n n')
    (hrest : NodesMatch rest rest') : NodesMatch (n :: rest) (n' :: rest')

/-- The statements of two programs match, and they declare the same names. -/
inductive ProgramMatches : Program → Program → Prop
  | mk {body body' : List Node} {names : List String} {chained chained' : Bool}
    {span span' : Span} (h : NodesMatch body body') :
    ProgramMatches ⟨body, names, chained, span⟩ ⟨body', names, chained', span'⟩

/-- Two programs match, or both are missing. -/
inductive OtherMatches : Option Program → Option Program → Prop
  | none : OtherMatches none none
  | some {program program' : Program} (h : ProgramMatches program program') :
    OtherMatches (some program) (some program')

end

end Matching

section Shapes

variable {σ : Span → Span → Prop} {held : Node → Prop}

mutual

theorem Node.Matches.shape_eq {n n' : Node} : n.Matches σ held n' → n'.shape = n.shape
  | .content h => by rw [Node.shape, Node.shape, h]
  | .comment _ => by rw [Node.shape, Node.shape]
  | .mustache hcall htrusting _ => by rw [Node.shape, Node.shape, hcall, htrusting]
  | .partialCall hcall _ => by rw [Node.shape, Node.shape, hcall]
  | .block hcall _ hprogram hother => by
    rw [Node.shape, Node.shape, hcall, hprogram.shape_eq, hother.shape_eq]

theorem NodesMatch.shape_eq {ns ns' : List Node} :
    NodesMatch σ held ns ns' → nodesShape ns' = nodesShape ns
  | .nil => rfl
  | .cons hfirst hrest => by rw [nodesShape, nodesShape, hfirst.shape_eq, hrest.shape_eq]

theorem ProgramMatches.shape_eq {p p' : Program} :
    ProgramMatches σ held p p' → programShape p' = programShape p
  | .mk h => by rw [programShape, programShape, h.shape_eq]

theorem OtherMatches.shape_eq {p p' : Option Program} :
    OtherMatches σ held p p' → otherShape p' = otherShape p
  | .none => rfl
  | .some h => by rw [otherShape, otherShape, h.shape_eq]

end

mutual

/-- Statements of one shape match, when all spans are related. -/
theorem Node.matches_of_shape (hσ : ∀ s s', σ s s') : (n : Node) → {n' : Node} →
    n'.shape = n.shape → n.Matches σ held n'
  | .content c, n', h => by
    cases n' with
    | content c' =>
      rw [Node.shape, Node.shape] at h
      exact .content (Node.content.inj h).symm
    | _ => cases h
  | .comment value strip span, n', h => by
    cases n' with
    | comment value' strip' span' =>
      rw [Node.shape, Node.shape] at h
      obtain ⟨rfl, -, -⟩ := Node.comment.inj h
      exact .comment (hσ _ _)
    | _ => cases h
  | .mustache tag, n', h => by
    cases n' with
    | mustache tag' =>
      rw [Node.shape, Node.shape] at h
      obtain ⟨hcall, htrusting, -⟩ := MustacheTag.mk.inj (Node.mustache.inj h)
      exact .mustache hcall.symm htrusting.symm (hσ _ _)
    | _ => cases h
  | .partialCall tag, n', h => by
    cases n' with
    | partialCall tag' =>
      rw [Node.shape, Node.shape] at h
      obtain ⟨hcall, -⟩ := PartialTag.mk.inj (Node.partialCall.inj h)
      exact .partialCall hcall.symm (hσ _ _)
    | _ => cases h
  | .block tag program other, n', h => by
    cases n' with
    | block tag' program' other' =>
      rw [Node.shape, Node.shape] at h
      obtain ⟨htag, hprogram, hother⟩ := Node.block.inj h
      exact .block (BlockTag.mk.inj htag).1.symm (.inr (hσ _ _))
        (programMatches_of_shape hσ program hprogram) (otherMatches_of_shape hσ other hother)
    | _ => cases h

theorem nodesMatch_of_shape (hσ : ∀ s s', σ s s') : (ns : List Node) → {ns' : List Node} →
    nodesShape ns' = nodesShape ns → NodesMatch σ held ns ns'
  | [], ns', h => by
    cases ns' with
    | nil => exact .nil
    | cons n' rest' => cases h
  | n :: rest, ns', h => by
    cases ns' with
    | nil => cases h
    | cons n' rest' =>
      rw [nodesShape, nodesShape] at h
      obtain ⟨hfirst, hrest⟩ := List.cons.inj h
      exact .cons (n.matches_of_shape hσ hfirst) (nodesMatch_of_shape hσ rest hrest)

theorem programMatches_of_shape (hσ : ∀ s s', σ s s') : (p : Program) → {p' : Program} →
    programShape p' = programShape p → ProgramMatches σ held p p'
  | ⟨body, names, chained, span⟩, ⟨body', names', chained', span'⟩, h => by
    rw [programShape, programShape] at h
    obtain ⟨hbody, rfl, -⟩ := Block.mk.inj h
    exact .mk (nodesMatch_of_shape hσ body hbody)

theorem otherMatches_of_shape (hσ : ∀ s s', σ s s') : (p : Option Program) →
    {p' : Option Program} → otherShape p' = otherShape p → OtherMatches σ held p p'
  | none, p', h => by
    cases p' with
    | none => exact .none
    | some p' => cases h
  | some p, p', h => by
    cases p' with
    | none => cases h
    | some p' =>
      rw [otherShape, otherShape] at h
      exact .some (programMatches_of_shape hσ p (Option.some.inj h))

end

end Shapes

/-! ### Moving derivations -/

section Moving

variable (g : Nat → Nat)

/-- A token at other offsets. -/
def Token.move (t : Token) : Token := ⟨t.kind, t.span.move g⟩

@[simp] theorem Token.move_mk (kind : TokenKind) (span : Span) :
    Token.move g ⟨kind, span⟩ = ⟨kind, span.move g⟩ := rfl

/-- A leaf at other offsets. -/
def Leaf.move {α : Type} (l : Leaf α) : Leaf α := ⟨l.value, l.span.move g⟩

@[simp] theorem Leaf.move_value {α : Type} (l : Leaf α) : (l.move g).value = l.value := rfl

@[simp] theorem Leaf.move_span {α : Type} (l : Leaf α) : (l.move g).span = l.span.move g := rfl

/-- A path at other offsets. -/
def PathTree.move (p : PathTree) : PathTree :=
  ⟨p.data.map (Span.move g), p.first.move g, p.rest.map fun s => (s.1.move g, s.2.move g)⟩

mutual

/-- An expression at other offsets. -/
def ExprTree.move : ExprTree → ExprTree
  | .path p => .path (p.move g)
  | .literal value span => .literal value (span.move g)
  | .sub opening call closing => .sub (opening.move g) (moveCall call) (closing.move g)

/-- A call at other offsets. -/
def moveCall : CallTree ExprTree → CallTree ExprTree
  | ⟨callee, params, pairs⟩ => ⟨callee.move, moveExprs params, movePairs pairs⟩

/-- Positional arguments at other offsets. -/
def moveExprs : List ExprTree → List ExprTree
  | [] => []
  | e :: rest => e.move :: moveExprs rest

/-- Named arguments at other offsets. -/
def movePairs : List (PairTree ExprTree) → List (PairTree ExprTree)
  | [] => []
  | ⟨key, equals, value⟩ :: rest => ⟨key.move g, equals.move g, value.move⟩ :: movePairs rest

end

/-- Block parameters at other offsets. -/
def ParamsTree.move (p : ParamsTree) : ParamsTree :=
  ⟨p.opening.move g, p.first.move g, p.rest.map (Leaf.move g), p.closing.move g⟩

/-- What opens a block, at other offsets. -/
def OpeningTree.move (o : OpeningTree) : OpeningTree :=
  ⟨moveCall g o.call, o.params.map (ParamsTree.move g), o.close.move g⟩

/-- What closes a block, at other offsets. -/
def ClosingTree.move (c : ClosingTree) : ClosingTree :=
  ⟨c.mark.move g, c.name.move g, c.close.move g⟩

mutual

/-- A statement at other offsets. -/
def StatementTree.move : StatementTree → StatementTree
  | .content text => .content (text.move g)
  | .comment text => .comment (text.move g)
  | .mustache mark call close => .mustache (mark.move g) (moveCall g call) (close.move g)
  | .unescaped mark call close => .unescaped (mark.move g) (moveCall g call) (close.move g)
  | .partialCall mark call close => .partialCall (mark.move g) (moveCall g call) (close.move g)
  | .block mark opening body inverse closing =>
    .block (mark.move g) (opening.move g) (moveStatements body) (moveOther inverse)
      (closing.move g)

/-- Statements at other offsets. -/
def moveStatements : List StatementTree → List StatementTree
  | [] => []
  | s :: rest => s.move :: moveStatements rest

/-- The other branch of a block at other offsets. -/
def InverseTree.move : InverseTree → InverseTree
  | .plain mark body => .plain (mark.move g) (moveStatements body)
  | .chain mark opening body inverse =>
    .chain (mark.move g) (opening.move g) (moveStatements body) (moveOther inverse)

/-- Another branch that may be missing, at other offsets. -/
def moveOther : Option InverseTree → Option InverseTree
  | none => none
  | some inverse => some inverse.move

end

/-! ### The tokens of a moved derivation -/

theorem tailTokens_move (rest : List (Leaf Char × Leaf String)) :
    tailTokens (rest.map fun s => (s.1.move g, s.2.move g)) = (tailTokens rest).map (·.move g) := by
  induction rest with
  | nil => rfl
  | cons s rest ih => simp [tailTokens, ih]

theorem PathTree.tokens_move (p : PathTree) :
    (p.move g).tokens = p.tokens.map (·.move g) := by
  obtain ⟨data, first, rest⟩ := p
  cases data <;> simp [PathTree.move, PathTree.tokens, tailTokens_move]

mutual

theorem ExprTree.tokens_move : (e : ExprTree) → (e.move g).tokens = e.tokens.map (·.move g)
  | .path p => by
    rw [ExprTree.move, ExprTree.tokens, ExprTree.tokens, p.tokens_move]
  | .literal value span => by
    rw [ExprTree.move, ExprTree.tokens, ExprTree.tokens]
    rfl
  | .sub opening call closing => by
    rw [ExprTree.move, ExprTree.tokens, ExprTree.tokens, callTokens_move call]
    simp

theorem callTokens_move : (call : CallTree ExprTree) →
    callTokens (moveCall g call) = (callTokens call).map (·.move g)
  | ⟨callee, params, pairs⟩ => by
    rw [moveCall, callTokens, callTokens, callee.tokens_move, exprsTokens_move params,
      pairsTokens_move pairs, List.map_append, List.map_append]

theorem exprsTokens_move : (es : List ExprTree) →
    exprsTokens (moveExprs g es) = (exprsTokens es).map (·.move g)
  | [] => by rw [moveExprs, exprsTokens, List.map_nil]
  | e :: rest => by
    rw [moveExprs, exprsTokens, exprsTokens, e.tokens_move, exprsTokens_move rest,
      List.map_append]

theorem pairsTokens_move : (ps : List (PairTree ExprTree)) →
    pairsTokens (movePairs g ps) = (pairsTokens ps).map (·.move g)
  | [] => by rw [movePairs, pairsTokens, List.map_nil]
  | ⟨key, equals, value⟩ :: rest => by
    rw [movePairs, pairsTokens, pairsTokens, value.tokens_move, pairsTokens_move rest]
    simp

end

theorem OpeningTree.tokens_move (o : OpeningTree) :
    (o.move g).tokens = o.tokens.map (·.move g) := by
  obtain ⟨call, params, close⟩ := o
  rw [OpeningTree.move, OpeningTree.tokens, OpeningTree.tokens, callTokens_move]
  cases params with
  | none => simp [paramsTokens, closeToken]
  | some p =>
    simp [paramsTokens, ParamsTree.tokens, ParamsTree.move, namesTokens, closeToken]

theorem ClosingTree.tokens_move (c : ClosingTree) :
    (c.move g).tokens = c.tokens.map (·.move g) := by
  rw [ClosingTree.move, ClosingTree.tokens, ClosingTree.tokens, c.name.tokens_move]
  simp [closeToken]

mutual

theorem StatementTree.tokens_move : (s : StatementTree) →
    (s.move g).tokens = s.tokens.map (·.move g)
  | .content text => by
    rw [StatementTree.move, StatementTree.tokens, StatementTree.tokens]
    rfl
  | .comment text => by
    rw [StatementTree.move, StatementTree.tokens, StatementTree.tokens]
    rfl
  | .mustache mark call close => by
    rw [StatementTree.move, StatementTree.tokens, StatementTree.tokens, callTokens_move]
    simp [closeToken]
  | .unescaped mark call close => by
    rw [StatementTree.move, StatementTree.tokens, StatementTree.tokens, callTokens_move]
    simp
  | .partialCall mark call close => by
    rw [StatementTree.move, StatementTree.tokens, StatementTree.tokens, callTokens_move]
    simp [closeToken]
  | .block mark opening body inverse closing => by
    rw [StatementTree.move, StatementTree.tokens, StatementTree.tokens, opening.tokens_move,
      statementsTokens_move body, otherTokens_move inverse, closing.tokens_move]
    simp

theorem statementsTokens_move : (ss : List StatementTree) →
    statementsTokens (moveStatements g ss) = (statementsTokens ss).map (·.move g)
  | [] => by rw [moveStatements, statementsTokens, List.map_nil]
  | s :: rest => by
    rw [moveStatements, statementsTokens, statementsTokens, s.tokens_move,
      statementsTokens_move rest, List.map_append]

theorem InverseTree.tokens_move : (i : InverseTree) →
    (i.move g).tokens = i.tokens.map (·.move g)
  | .plain mark body => by
    rw [InverseTree.move, InverseTree.tokens, InverseTree.tokens, statementsTokens_move body]
    rfl
  | .chain mark opening body inverse => by
    rw [InverseTree.move, InverseTree.tokens, InverseTree.tokens, opening.tokens_move,
      statementsTokens_move body, otherTokens_move inverse]
    simp

theorem otherTokens_move : (i : Option InverseTree) →
    otherTokens (moveOther g i) = (otherTokens i).map (·.move g)
  | none => by rw [moveOther, otherTokens, List.map_nil]
  | some i => by rw [moveOther, otherTokens, otherTokens, i.tokens_move]

end

end Moving

/-! ### What a moved derivation stands for -/

section Moved

variable {g : Nat → Nat}

theorem PathTree.segments_move (p : PathTree) : (p.move g).segments = p.segments := by
  obtain ⟨data, first, rest⟩ := p
  simp [PathTree.move, PathTree.segments, Leaf.move]

theorem PathTree.path?_move (p : PathTree) :
    (p.move g).path?.toOption.map Path.shape = p.path?.toOption.map Path.shape := by
  have hdata : (p.move g).data.isSome = p.data.isSome := Option.isSome_map
  rw [PathTree.path?, PathTree.path?, p.segments_move, hdata, Segment.toPath, Segment.toPath]
  split <;> rfl

theorem PathTree.accepted_iff (p : PathTree) : p.Accepted
    ↔ (p.path?.toOption.map Path.shape).isSome := by
  rw [PathTree.Accepted, Option.isSome_map]
  cases p.path? with
  | error fault => simp [Except.toOption]
  | ok path => simp [Except.toOption]

theorem PathTree.accepted_move (p : PathTree) : (p.move g).Accepted ↔ p.Accepted := by
  rw [accepted_iff, accepted_iff, p.path?_move]

theorem PathTree.path_move (p : PathTree) : (p.move g).path.shape = p.path.shape := by
  have hmove := p.path?_move (g := g)
  rw [PathTree.path, PathTree.path]
  cases h : p.path?.toOption with
  | none =>
    rw [h, Option.map_none, Option.map_eq_none_iff] at hmove
    rw [hmove]
  | some path =>
    rw [h] at hmove
    obtain ⟨path', hpath', hshape⟩ := Option.map_eq_some_iff.mp hmove
    rw [hpath']
    exact hshape

mutual

theorem ExprTree.expr_move : (e : ExprTree) → (e.move g).expr.shape = e.expr.shape
  | .path p => by
    rw [ExprTree.move, ExprTree.expr, ExprTree.expr, Expr.shape, Expr.shape, p.path_move]
  | .literal value span => by
    rw [ExprTree.move, ExprTree.expr, ExprTree.expr, Expr.shape, Expr.shape]
  | .sub opening ⟨callee, params, pairs⟩ closing => by
    rw [ExprTree.move, ExprTree.expr, ExprTree.expr, moveCall, callOf, callOf, Expr.shape,
      Expr.shape, callee.expr_move, exprsOf_move params, pairsOf_move pairs]

theorem exprsOf_move : (es : List ExprTree) →
    shapeExprs (exprsOf (moveExprs g es)) = shapeExprs (exprsOf es)
  | [] => by rw [moveExprs]
  | e :: rest => by
    rw [moveExprs, exprsOf, exprsOf, shapeExprs, shapeExprs, e.expr_move, exprsOf_move rest]

theorem pairsOf_move : (ps : List (PairTree ExprTree)) →
    shapePairs (pairsOf (movePairs g ps)) = shapePairs (pairsOf ps)
  | [] => by rw [movePairs]
  | ⟨key, equals, value⟩ :: rest => by
    rw [movePairs, pairsOf, pairsOf, shapePairs, shapePairs, value.expr_move, pairsOf_move rest]
    rfl

end

theorem callOf_move (call : CallTree ExprTree) :
    (callOf (moveCall g call)).shape = (callOf call).shape := by
  obtain ⟨callee, params, pairs⟩ := call
  rw [moveCall, callOf, callOf, Call.shape, Call.shape, callee.expr_move, exprsOf_move params,
    pairsOf_move pairs]

theorem ExprTree.isLiteral_move (e : ExprTree) : (e.move g).isLiteral = e.isLiteral := by
  cases e <;> rw [ExprTree.move] <;> rfl

theorem callee_move (call : CallTree ExprTree) :
    (moveCall g call).callee = call.callee.move g := by
  obtain ⟨callee, params, pairs⟩ := call
  rw [moveCall]

theorem paramsNames_move (p : Option ParamsTree) :
    paramsNames (p.map (ParamsTree.move g)) = paramsNames p := by
  cases p with
  | none => rfl
  | some p => simp [paramsNames, ParamsTree.move, Leaf.move]

mutual

theorem ExprTree.admissible_move : (e : ExprTree) → ((e.move g).Admissible ↔ e.Admissible)
  | .path p => by
    rw [ExprTree.move, ExprTree.Admissible, ExprTree.Admissible]
    exact p.accepted_move
  | .literal value span => by
    rw [ExprTree.move, ExprTree.Admissible, ExprTree.Admissible]
  | .sub opening call closing => by
    rw [ExprTree.move, ExprTree.Admissible, ExprTree.Admissible, callee_move,
      ExprTree.isLiteral_move, callAdmissible_move call]

theorem callAdmissible_move : (call : CallTree ExprTree) →
    (CallAdmissible (moveCall g call) ↔ CallAdmissible call)
  | ⟨callee, params, pairs⟩ => by
    rw [moveCall, CallAdmissible, CallAdmissible, callee.admissible_move,
      exprsAdmissible_move params, pairsAdmissible_move pairs]

theorem exprsAdmissible_move : (es : List ExprTree) →
    (ExprsAdmissible (moveExprs g es) ↔ ExprsAdmissible es)
  | [] => by rw [moveExprs]
  | e :: rest => by
    rw [moveExprs, ExprsAdmissible, ExprsAdmissible, e.admissible_move, exprsAdmissible_move rest]

theorem pairsAdmissible_move : (ps : List (PairTree ExprTree)) →
    (PairsAdmissible (movePairs g ps) ↔ PairsAdmissible ps)
  | [] => by rw [movePairs]
  | ⟨key, equals, value⟩ :: rest => by
    rw [movePairs, PairsAdmissible, PairsAdmissible, value.admissible_move,
      pairsAdmissible_move rest]

end

theorem moveExprs_eq_nil {es : List ExprTree} : moveExprs g es = [] ↔ es = [] := by
  cases es <;> simp [moveExprs]

theorem movePairs_eq_nil {ps : List (PairTree ExprTree)} : movePairs g ps = [] ↔ ps = [] := by
  cases ps <;> simp [movePairs]

theorem writtenAdmissible_move (call : CallTree ExprTree) :
    WrittenAdmissible (moveCall g call) ↔ WrittenAdmissible call := by
  rw [WrittenAdmissible, WrittenAdmissible, callAdmissible_move, callee_move,
    ExprTree.isLiteral_move]
  obtain ⟨callee, params, pairs⟩ := call
  rw [moveCall, moveExprs_eq_nil, movePairs_eq_nil]

theorem OpeningTree.admissible_move (o : OpeningTree) : (o.move g).Admissible ↔ o.Admissible := by
  rw [OpeningTree.Admissible, OpeningTree.Admissible, OpeningTree.move, callAdmissible_move,
    callee_move, ExprTree.isLiteral_move]

/-- A moved name is spelled as before. -/
theorem spelling_move (e : ExprTree) : spelling (e.move g).expr = spelling e.expr := by
  rw [← spelling_shape, e.expr_move, spelling_shape]

mutual

theorem StatementTree.admissible_move : (s : StatementTree) →
    ((s.move g).Admissible ↔ s.Admissible)
  | .content _ | .comment _ => by
    rw [StatementTree.move, StatementTree.Admissible, StatementTree.Admissible]
  | .mustache _ call _ | .unescaped _ call _ => by
    rw [StatementTree.move, StatementTree.Admissible, StatementTree.Admissible,
      writtenAdmissible_move]
  | .partialCall _ call _ => by
    rw [StatementTree.move, StatementTree.Admissible, StatementTree.Admissible,
      callAdmissible_move]
  | .block _ opening body inverse closing => by
    rw [StatementTree.move, StatementTree.Admissible, StatementTree.Admissible,
      opening.admissible_move, statementsAdmissible_move body, otherAdmissible_move inverse,
      OpeningTree.move, ClosingTree.move, closing.name.admissible_move, callee_move, spelling_move,
      spelling_move]

theorem statementsAdmissible_move : (ss : List StatementTree) →
    (StatementsAdmissible (moveStatements g ss) ↔ StatementsAdmissible ss)
  | [] => by rw [moveStatements]
  | s :: rest => by
    rw [moveStatements, StatementsAdmissible, StatementsAdmissible, s.admissible_move,
      statementsAdmissible_move rest]

theorem InverseTree.admissible_move : (i : InverseTree) →
    ((i.move g).Admissible ↔ i.Admissible)
  | .plain _ body => by
    rw [InverseTree.move, InverseTree.Admissible, InverseTree.Admissible,
      statementsAdmissible_move body]
  | .chain _ opening body inverse => by
    rw [InverseTree.move, InverseTree.Admissible, InverseTree.Admissible, opening.admissible_move,
      statementsAdmissible_move body, otherAdmissible_move inverse]

theorem otherAdmissible_move : (i : Option InverseTree) →
    (OtherAdmissible (moveOther g i) ↔ OtherAdmissible i)
  | none => by rw [moveOther]
  | some i => by
    rw [moveOther, OtherAdmissible, OtherAdmissible, i.admissible_move]

end

/-! ### A moved derivation matches -/

/-- All tokens start and end at edges. -/
def OnEdges (edge : Nat → Prop) (ts : List Token) : Prop :=
  ∀ t ∈ ts, edge t.span.start ∧ edge t.span.stop

variable {σ : Span → Span → Prop} {held : Node → Prop} {edge : Nat → Prop}

mutual

/-- A statement that is moved so that spans between edges stay related matches
the statement where it was. -/
theorem statement_move_match (hσ : ∀ x y, edge x → edge y → σ ⟨x, y⟩ ⟨g x, g y⟩) :
    (s : StatementTree) → OnEdges edge s.tokens → s.node.Matches σ held (s.move g).node
  | .content text, _ => by
    rw [StatementTree.move, StatementTree.node, StatementTree.node]
    exact .content rfl
  | .comment text, h => by
    rw [StatementTree.tokens] at h
    obtain ⟨hstart, hstop⟩ := h _ (List.mem_singleton_self _)
    rw [StatementTree.move, StatementTree.node, StatementTree.node]
    exact .comment (hσ _ _ hstart hstop)
  | .mustache mark call close, h => by
    rw [StatementTree.tokens] at h
    have hmark := h _ List.mem_cons_self
    -- The tag spans from its mark to its close, and both are edges.
    have hclose := h (closeToken close) (by simp)
    rw [StatementTree.move, StatementTree.node, StatementTree.node]
    exact .mustache (callOf_move call).symm rfl (hσ _ _ hmark.1 hclose.2)
  | .unescaped mark call close, h => by
    rw [StatementTree.tokens] at h
    have hmark := h _ List.mem_cons_self
    have hclose := h ⟨.closeUnescaped close.value, close.span⟩ (by simp)
    rw [StatementTree.move, StatementTree.node, StatementTree.node]
    exact .mustache (callOf_move call).symm rfl (hσ _ _ hmark.1 hclose.2)
  | .partialCall mark call close, h => by
    rw [StatementTree.tokens] at h
    have hmark := h _ List.mem_cons_self
    have hclose := h (closeToken close) (by simp)
    rw [StatementTree.move, StatementTree.node, StatementTree.node]
    exact .partialCall (callOf_move call).symm (hσ _ _ hmark.1 hclose.2)
  | .block mark opening body inverse closing, h => by
    rw [StatementTree.tokens] at h
    have hmark := h _ List.mem_cons_self
    have hend := h ⟨.openEndBlock closing.mark.value, closing.mark.span⟩
      (by simp [ClosingTree.tokens])
    have hclose := h (closeToken closing.close) (by simp [ClosingTree.tokens])
    -- What is inside of the block stands on edges, too.
    have hbody : OnEdges edge (statementsTokens body) := fun t ht => h t (by simp [ht])
    have hother : OnEdges edge (otherTokens inverse) := fun t ht => h t (by simp [ht])
    rw [StatementTree.move, StatementTree.node, StatementTree.node, OpeningTree.move,
      paramsNames_move]
    exact .block (callOf_move opening.call).symm (.inr (hσ _ _ hmark.1 hclose.2))
      (.mk (statements_move_match hσ body hbody)) (other_move_match hσ inverse hend.1 hother _ _)

theorem statements_move_match (hσ : ∀ x y, edge x → edge y → σ ⟨x, y⟩ ⟨g x, g y⟩) :
    (ss : List StatementTree) → OnEdges edge (statementsTokens ss) →
      NodesMatch σ held (nodesOf ss) (nodesOf (moveStatements g ss))
  | [], _ => by
    rw [moveStatements, nodesOf]
    exact .nil
  | s :: rest, h => by
    rw [statementsTokens] at h
    have hfirst : OnEdges edge s.tokens := fun t ht => h t (List.mem_append_left _ ht)
    have hrest : OnEdges edge (statementsTokens rest) := fun t ht =>
      h t (List.mem_append_right _ ht)
    rw [moveStatements, nodesOf, nodesOf]
    exact .cons (statement_move_match hσ s hfirst) (statements_move_match hσ rest hrest)

/-- The other branch of a block matches itself after it is moved; how it strips
at its end does not matter. -/
theorem inverse_move_match (hσ : ∀ x y, edge x → edge y → σ ⟨x, y⟩ ⟨g x, g y⟩) :
    (i : InverseTree) → {stop : Nat} → edge stop → OnEdges edge i.tokens →
      (close close' : Strip) →
      ProgramMatches σ held (i.program stop close) ((i.move g).program (g stop) close')
  | .plain mark body, stop, hstop, h, close, close' => by
    rw [InverseTree.tokens] at h
    have hbody : OnEdges edge (statementsTokens body) := fun t ht => h t (by simp [ht])
    rw [InverseTree.move, InverseTree.program, InverseTree.program]
    exact .mk (statements_move_match hσ body hbody)
  | .chain mark opening body inverse, stop, hstop, h, close, close' => by
    rw [InverseTree.tokens] at h
    have hmark := h _ List.mem_cons_self
    have hbody : OnEdges edge (statementsTokens body) := fun t ht => h t (by simp [ht])
    have hother : OnEdges edge (otherTokens inverse) := fun t ht => h t (by simp [ht])
    rw [InverseTree.move, InverseTree.program, InverseTree.program, OpeningTree.move,
      paramsNames_move]
    exact .mk (.cons (.block (callOf_move opening.call).symm (.inr (hσ _ _ hmark.1 hstop))
      (.mk (statements_move_match hσ body hbody)) (other_move_match hσ inverse hstop hother _ _))
      .nil)

theorem other_move_match (hσ : ∀ x y, edge x → edge y → σ ⟨x, y⟩ ⟨g x, g y⟩) :
    (i : Option InverseTree) → {stop : Nat} → edge stop → OnEdges edge (otherTokens i) →
      (close close' : Strip) →
      OtherMatches σ held (otherOf stop close i) (otherOf (g stop) close' (moveOther g i))
  | none, stop, hstop, h, close, close' => by
    rw [moveOther, otherOf, otherOf]
    exact .none
  | some i, stop, hstop, h, close, close' => by
    rw [otherTokens] at h
    rw [moveOther, otherOf, otherOf]
    exact .some (inverse_move_match hσ i hstop h close close')

end

/-! ### Whole templates -/

theorem Ends.move {ts : List Token} (h : Ends ts) : Ends (ts.map (·.move g)) := by
  obtain ⟨init, stop, rfl, hinit⟩ := h
  refine ⟨init.map (·.move g), g stop, by rw [List.map_append]; rfl, ?_⟩
  intro t ht
  obtain ⟨u, hu, rfl⟩ := List.mem_map.mp ht
  exact hinit u hu

/-- Tokens at other offsets spell a program of the same shape. -/
theorem parseProgram_move {ts : List Token} (hends : Ends ts) {p : Program}
    (h : parseProgram ts = .ok p) :
    ∃ p', parseProgram (ts.map (·.move g)) = .ok p' ∧ programShape p' = programShape p := by
  obtain ⟨⟨body, eof⟩, rfl, hadmissible, rfl⟩ := parseProgram_sound hends h
  have htokens : (RootTree.mk (moveStatements g body) (eof.move g)).tokens
      = (RootTree.mk body eof).tokens.map (·.move g) := by
    rw [RootTree.tokens, RootTree.tokens, statementsTokens_move, List.map_append]
    rfl
  have hparse := parseProgram_complete (t := ⟨moveStatements g body, eof.move g⟩)
    (by rw [htokens]; exact hends.move) ((statementsAdmissible_move body).mpr hadmissible)
  rw [htokens] at hparse
  refine ⟨_, hparse, ?_⟩
  -- No span has to be related to see that the shapes agree.
  have hedges : OnEdges (fun _ => True) (statementsTokens body) := fun _ _ => ⟨trivial, trivial⟩
  have hmatch : NodesMatch (fun _ _ => True) (fun _ => False) (nodesOf body)
      (nodesOf (moveStatements g body)) :=
    statements_move_match (fun _ _ _ _ => trivial) body hedges
  rw [RootTree.program, RootTree.program, programShape, programShape, hmatch.shape_eq]

end Moved

end Mustache

end TemplateCompiler
