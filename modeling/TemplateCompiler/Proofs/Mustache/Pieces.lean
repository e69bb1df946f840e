/-
The pieces of a template: its runs of text and its tags, as they follow each other
in the source.

* `pieces` — the pieces that tokens spell, whatever blocks they stand in;
* `StatementTree.pieces` — the pieces of a derivation;
* `pieces_statements` — the two agree;
* `StandsAlone` — a tag has its line for itself;
* `startsLine_spells`, `endsLine_spells` — what whitespace control finds out about
  the lines around a place is so.

Design notes: a template is read twice here.  Tokens are read from left to right,
with a stack that counts the `else` tags of the blocks that are open; a derivation
is read by its own recursion.  The first needs no grammar, so statements about the
source use it, and proofs about programs use the second.
-/
import Mathlib.Data.List.Forall2
import TemplateCompiler.Proofs.Mustache.Unambiguity
import TemplateCompiler.Mustache.Whitespace

namespace TemplateCompiler.Mustache

/-! ### Pieces of a source -/

/-- What a tag does. -/
inductive TagKind where
  /-- Writes a value. -/
  | value
  /-- A comment or a partial. -/
  | note
  /-- Opens a block. -/
  | opening
  /-- An `else`, with the number of those before it in its block. -/
  | other (earlier : Nat)
  /-- Closes a block, with the number of its `else` tags. -/
  | closing (others : Nat)
deriving DecidableEq, Repr

/-- A run of text, or a tag with its tildes. -/
inductive Piece where
  | text (value : String) (span : Span)
  | tag (kind : TagKind) (strip : Strip)
deriving DecidableEq, Repr

/-- The tilde at the end of the tag that the tokens stand in. -/
def closeTilde : List Token → Bool
  | [] => false
  | ⟨kind, _⟩ :: rest =>
    match kind with
    | .close tilde | .closeUnescaped tilde => tilde
    | _ => closeTilde rest

/-- One more `else` in the innermost block. -/
def countOther : List Nat → List Nat
  | [] => []
  | n :: blocks => (n + 1) :: blocks

/-- The pieces that tokens spell.  `blocks` has the number of `else` tags so far of
each open block, the innermost first. -/
def pieces (blocks : List Nat) : List Token → List Piece
  | [] => []
  | ⟨kind, span⟩ :: rest =>
    match kind with
    | .content value => .text value span :: pieces blocks rest
    | .comment _ strip => .tag .note strip :: pieces blocks rest
    | .open tilde _ | .openUnescaped tilde =>
      .tag .value ⟨tilde, closeTilde rest⟩ :: pieces blocks rest
    | .openPartial tilde => .tag .note ⟨tilde, closeTilde rest⟩ :: pieces blocks rest
    | .openBlock tilde => .tag .opening ⟨tilde, closeTilde rest⟩ :: pieces (0 :: blocks) rest
    | .inverse strip =>
      .tag (.other (blocks.headD 0)) strip :: pieces (countOther blocks) rest
    | .openInverseChain tilde =>
      .tag (.other (blocks.headD 0)) ⟨tilde, closeTilde rest⟩ :: pieces (countOther blocks) rest
    | .openEndBlock tilde =>
      .tag (.closing (blocks.headD 0)) ⟨tilde, closeTilde rest⟩ :: pieces blocks.tail rest
    | _ => pieces blocks rest

/-- Tokens that neither begin nor end a tag. -/
def TokenKind.isInner : TokenKind → Bool
  | .openSexpr | .closeSexpr | .equals | .data | .sep _ | .id _ | .string _ | .number _
  | .boolean _ | .undefined | .null | .openBlockParams | .closeBlockParams => true
  | _ => false

/-- Tokens inside a tag. -/
def Inner (ts : List Token) : Prop := ∀ t ∈ ts, t.kind.isInner = true

theorem Inner.append {ts us : List Token} (hts : Inner ts) (hus : Inner us) : Inner (ts ++ us) :=
  List.forall_mem_append.mpr ⟨hts, hus⟩

theorem Inner.cons {t : Token} {ts : List Token} (ht : t.kind.isInner = true) (hts : Inner ts) :
    Inner (t :: ts) :=
  List.forall_mem_cons.mpr ⟨ht, hts⟩

theorem Inner.nil : Inner [] := by
  intro t ht
  cases ht

theorem Inner.pieces {ts : List Token} (h : Inner ts) (blocks : List Nat) (rest : List Token) :
    pieces blocks (ts ++ rest) = pieces blocks rest := by
  induction ts with
  | nil => rfl
  | cons t ts ih =>
    obtain ⟨kind, span⟩ := t
    obtain ⟨hkind, hts⟩ := List.forall_mem_cons.mp h
    rw [List.cons_append, ← ih hts]
    cases kind <;> first | rfl | cases hkind

theorem Inner.closeTilde {ts : List Token} (h : Inner ts) (rest : List Token) :
    closeTilde (ts ++ rest) = closeTilde rest := by
  induction ts with
  | nil => rfl
  | cons t ts ih =>
    obtain ⟨kind, span⟩ := t
    obtain ⟨hkind, hts⟩ := List.forall_mem_cons.mp h
    rw [List.cons_append, ← ih hts]
    cases kind <;> first | rfl | cases hkind

/-! ### Tokens inside a tag -/

theorem tailTokens_inner (rest : List (Leaf Char × Leaf String)) : Inner (tailTokens rest) := by
  induction rest with
  | nil => exact .nil
  | cons name rest ih => exact .cons rfl (.cons rfl ih)

theorem PathTree.tokens_inner (p : PathTree) : Inner p.tokens := by
  refine .append ?_ (.cons rfl (tailTokens_inner p.rest))
  intro t ht
  obtain ⟨span, -, rfl⟩ := List.mem_map.mp ht
  rfl

theorem literalToken_inner (value : Template.Literal) : (literalToken value).isInner = true := by
  cases value <;> rfl

mutual

theorem ExprTree.tokens_inner (e : ExprTree) : Inner e.tokens := by
  match e with
  | .path p =>
    rw [ExprTree.tokens]
    exact p.tokens_inner
  | .literal value span =>
    rw [ExprTree.tokens]
    exact .cons (literalToken_inner value) .nil
  | .sub opening call closing =>
    rw [ExprTree.tokens]
    exact .cons rfl (.append (callTokens_inner call) (.cons rfl .nil))

theorem callTokens_inner (call : CallTree ExprTree) : Inner (callTokens call) := by
  match call with
  | ⟨callee, params, pairs⟩ =>
    rw [callTokens]
    exact .append callee.tokens_inner (.append (exprsTokens_inner params) (pairsTokens_inner pairs))

theorem exprsTokens_inner (es : List ExprTree) : Inner (exprsTokens es) := by
  match es with
  | [] =>
    rw [exprsTokens]
    exact .nil
  | e :: rest =>
    rw [exprsTokens]
    exact .append e.tokens_inner (exprsTokens_inner rest)

theorem pairsTokens_inner (ps : List (PairTree ExprTree)) : Inner (pairsTokens ps) := by
  match ps with
  | [] =>
    rw [pairsTokens]
    exact .nil
  | ⟨key, equals, value⟩ :: rest =>
    rw [pairsTokens]
    exact .cons rfl (.cons rfl (.append value.tokens_inner (pairsTokens_inner rest)))

end

theorem paramsTokens_inner (p : Option ParamsTree) : Inner (paramsTokens p) := by
  cases p with
  | none => exact .nil
  | some p =>
    refine .cons rfl (.append ?_ (.cons rfl .nil))
    intro t ht
    obtain ⟨name, -, rfl⟩ := List.mem_map.mp ht
    rfl

/-- What follows the mark of a tag up to its end has no pieces. -/
theorem pieces_tag {ts : List Token} (h : Inner ts) (close : Leaf Bool) (blocks : List Nat)
    (rest : List Token) :
    pieces blocks (ts ++ closeToken close :: rest) = pieces blocks rest ∧
      closeTilde (ts ++ closeToken close :: rest) = close.value := by
  rw [h.pieces, h.closeTilde]
  exact ⟨rfl, rfl⟩

theorem pieces_opening (o : OpeningTree) (blocks : List Nat) (rest : List Token) :
    pieces blocks (o.tokens ++ rest) = pieces blocks rest ∧
      closeTilde (o.tokens ++ rest) = o.close.value := by
  have hinner := (callTokens_inner o.call).append (paramsTokens_inner o.params)
  have htokens : o.tokens ++ rest
      = (callTokens o.call ++ paramsTokens o.params) ++ closeToken o.close :: rest := by
    simp only [OpeningTree.tokens, List.append_assoc, List.cons_append, List.nil_append]
  rw [htokens]
  exact pieces_tag hinner o.close blocks rest

/-! ### Pieces of a derivation -/

/-- The tildes of an `else`. -/
def InverseTree.strip : InverseTree → Strip
  | .plain mark _ => mark.value
  | .chain mark opening _ _ => ⟨mark.value, opening.close.value⟩

/-- The statements after an `else`, up to the next one. -/
def InverseTree.body : InverseTree → List StatementTree
  | .plain _ body => body
  | .chain _ _ body _ => body

/-- The next `else` of the block. -/
def InverseTree.next : InverseTree → Option InverseTree
  | .plain _ _ => none
  | .chain _ _ _ inverse => inverse

mutual

/-- The number of `else` tags from one on. -/
def InverseTree.count : InverseTree → Nat
  | .plain _ _ => 1
  | .chain _ _ _ inverse => otherCount inverse + 1

/-- The number of `else` tags of a block. -/
def otherCount : Option InverseTree → Nat
  | none => 0
  | some inverse => inverse.count

end

mutual

/-- The pieces of a statement. -/
def StatementTree.pieces : StatementTree → List Piece
  | .content text => [.text text.value text.span]
  | .comment text => [.tag .note text.value.2]
  | .mustache mark _ close => [.tag .value ⟨mark.value.1, close.value⟩]
  | .unescaped mark _ close => [.tag .value ⟨mark.value, close.value⟩]
  | .partialCall mark _ close => [.tag .note ⟨mark.value, close.value⟩]
  | .block mark opening body inverse closing =>
    .tag .opening ⟨mark.value, opening.close.value⟩ :: (statementsPieces body ++
      (otherPieces 0 inverse ++ [.tag (.closing (otherCount inverse)) closing.strip]))

/-- The pieces of statements. -/
def statementsPieces : List StatementTree → List Piece
  | [] => []
  | t :: rest => t.pieces ++ statementsPieces rest

/-- The pieces from an `else` on, with `n` of them before it in its block. -/
def InverseTree.pieces (n : Nat) : InverseTree → List Piece
  | .plain mark body => .tag (.other n) mark.value :: statementsPieces body
  | .chain mark opening body inverse =>
    .tag (.other n) ⟨mark.value, opening.close.value⟩
      :: (statementsPieces body ++ otherPieces (n + 1) inverse)

/-- The pieces of another branch that may be missing. -/
def otherPieces (n : Nat) : Option InverseTree → List Piece
  | none => []
  | some inverse => inverse.pieces n

end

theorem InverseTree.pieces_eq (n : Nat) (t : InverseTree) :
    t.pieces n
      = .tag (.other n) t.strip :: (statementsPieces t.body ++ otherPieces (n + 1) t.next) := by
  cases t with
  | plain mark ts => simp [InverseTree.pieces, strip, body, next, otherPieces]
  | chain mark opening ts inverse => simp [InverseTree.pieces, strip, body, next]

theorem InverseTree.count_eq (t : InverseTree) : t.count = otherCount t.next + 1 := by
  cases t with
  | plain mark ts => simp [count, next, otherCount]
  | chain mark opening ts inverse => simp [count, next]

theorem otherStrip_some (t : InverseTree) : otherStrip (some t) = t.strip := by
  cases t <;> rfl

mutual

theorem pieces_statement (t : StatementTree) (blocks : List Nat) (rest : List Token) :
    pieces blocks (t.tokens ++ rest) = t.pieces ++ pieces blocks rest := by
  match t with
  | .content text | .comment text => simp [StatementTree.tokens, StatementTree.pieces, pieces]
  | .mustache mark call close =>
    obtain ⟨hrest, htilde⟩ := pieces_tag (callTokens_inner call) close blocks rest
    simp [StatementTree.tokens, StatementTree.pieces, pieces, hrest, htilde]
  | .unescaped mark call close =>
    have hrest := (callTokens_inner call).pieces blocks
      (⟨.closeUnescaped close.value, close.span⟩ :: rest)
    have htilde := (callTokens_inner call).closeTilde
      (⟨.closeUnescaped close.value, close.span⟩ :: rest)
    simp [StatementTree.tokens, StatementTree.pieces, pieces, hrest, htilde, closeTilde]
  | .partialCall mark call close =>
    obtain ⟨hrest, htilde⟩ := pieces_tag (callTokens_inner call) close blocks rest
    simp [StatementTree.tokens, StatementTree.pieces, pieces, hrest, htilde]
  | .block mark opening body inverse closing =>
    -- Behind the opening tag the block counts its `else` tags from none.
    have hopening := pieces_opening opening (0 :: blocks)
    have hbody := pieces_statements body (0 :: blocks)
    have hother := pieces_other inverse 0 blocks
    have hclosing := pieces_tag closing.name.tokens_inner closing.close blocks rest
    simp [StatementTree.tokens, StatementTree.pieces, pieces, ClosingTree.tokens, hopening, hbody,
      hother, hclosing, ClosingTree.strip]

theorem pieces_statements (ts : List StatementTree) (blocks : List Nat) (rest : List Token) :
    pieces blocks (statementsTokens ts ++ rest) = statementsPieces ts ++ pieces blocks rest := by
  match ts with
  | [] => simp [statementsTokens, statementsPieces]
  | t :: ts =>
    have hfirst := pieces_statement t blocks (statementsTokens ts ++ rest)
    have hrest := pieces_statements ts blocks rest
    simp [statementsTokens, statementsPieces, hfirst, hrest]

theorem pieces_inverse (t : InverseTree) (n : Nat) (blocks : List Nat) (rest : List Token) :
    pieces (n :: blocks) (t.tokens ++ rest)
      = t.pieces n ++ pieces ((n + t.count) :: blocks) rest := by
  match t with
  | .plain mark body =>
    have hbody := pieces_statements body ((n + 1) :: blocks) rest
    simp [InverseTree.tokens, InverseTree.pieces, InverseTree.count, pieces, countOther, hbody]
  | .chain mark opening body inverse =>
    have hopening := pieces_opening opening ((n + 1) :: blocks)
    have hbody := pieces_statements body ((n + 1) :: blocks)
    have hother := pieces_other inverse (n + 1) blocks rest
    have hcount : n + 1 + otherCount inverse = n + (otherCount inverse + 1) := by omega
    simp [InverseTree.tokens, InverseTree.pieces, InverseTree.count, pieces, countOther, hopening,
      hbody, hother, hcount]

theorem pieces_other (t : Option InverseTree) (n : Nat) (blocks : List Nat) (rest : List Token) :
    pieces (n :: blocks) (otherTokens t ++ rest)
      = otherPieces n t ++ pieces ((n + otherCount t) :: blocks) rest := by
  match t with
  | none => simp [otherTokens, otherPieces, otherCount]
  | some t =>
    rw [otherTokens, otherPieces, otherCount]
    exact pieces_inverse t n blocks rest

end

/-- The pieces of a whole template are those of its derivation. -/
theorem pieces_root (t : RootTree) : pieces [] t.tokens = statementsPieces t.body := by
  rw [RootTree.tokens, pieces_statements]
  simp [pieces]

/-! ### Lines -/

/-- What stands before a place, the nearest first, ends a line there: nothing but
blanks is on the line yet. -/
def EndsLine : List Piece → Prop
  | [] => True
  | .text value _ :: rest =>
    (∃ head blanks, value.toList = head ++ '\n' :: blanks ∧
      ∀ x ∈ blanks, Text.isBlank x = true) ∨
    (rest = [] ∧ ∀ x ∈ value.toList, Text.isBlank x = true)
  | .tag _ _ :: _ => False

/-- What stands after a place starts a line there: nothing but blanks is left on
the line. -/
def StartsLine : List Piece → Prop
  | [] => True
  | .text value _ :: rest =>
    (∃ blanks tail, value.toList = blanks ++ '\n' :: tail ∧
      ∀ x ∈ blanks, Text.isBlank x = true) ∨
    (rest = [] ∧ ∀ x ∈ value.toList, Text.isBlank x = true)
  | .tag _ _ :: _ => False

/-- A tag has its line for itself; one that writes a value never does. -/
structure StandsAlone (before : List Piece) (kind : TagKind) (after : List Piece) : Prop where
  kind : kind ≠ .value
  before : EndsLine before
  after : StartsLine after

/-- A statement is the one of a derivation as far as its text as written tells. -/
inductive Spells : StatementTree → Node → Prop
  | text {text : Leaf String} {c : Content} (h : c.written = text.value.toList) :
    Spells (.content text) (.content c)
  | tag {t : StatementTree} {n : Node} (ht : ∀ text, t ≠ .content text)
    (hn : ∀ c, n ≠ .content c) : Spells t n

theorem spells_node (t : StatementTree) : Spells t t.node := by
  cases t with
  | content text => exact .text rfl
  | _ => exact .tag (by simp) (by simp [StatementTree.node])

theorem spells_nodes (ts : List StatementTree) : List.Forall₂ Spells ts (nodesOf ts) := by
  induction ts with
  | nil =>
    rw [nodesOf]
    exact .nil
  | cons t ts ih =>
    rw [nodesOf]
    exact .cons (spells_node t) ih

/-- A line break among the blanks at the start. -/
theorem mem_takeWhile_blank {cs : List Char} (h : '\n' ∈ cs.takeWhile Text.isBlank) :
    ∃ blanks tail, cs = blanks ++ '\n' :: tail ∧ ∀ x ∈ blanks, Text.isBlank x = true := by
  obtain ⟨blanks, more, hsplit⟩ := List.append_of_mem h
  refine ⟨blanks, more ++ cs.dropWhile Text.isBlank, ?_, fun x hx => ?_⟩
  · rw [← List.cons_append, ← List.append_assoc, ← hsplit, List.takeWhile_append_dropWhile]
  · exact List.all_eq_true.mp List.all_takeWhile x (by rw [hsplit]; exact List.mem_append_left _ hx)

theorem all_blank_of_takeWhile {cs : List Char}
    (h : (cs.takeWhile Text.isBlank).length = cs.length) : ∀ x ∈ cs, Text.isBlank x = true := by
  have hall : cs.takeWhile Text.isBlank = cs :=
    (List.takeWhile_prefix _).eq_of_length h
  intro x hx
  rw [← hall] at hx
  exact List.all_eq_true.mp List.all_takeWhile x hx

/-- Where statements begin a line, so do their pieces. -/
theorem startsLine_spells {root : Bool} {ts : List StatementTree} {ns : List Node}
    {post : List Piece} (h : List.Forall₂ Spells ts ns) (hpost : root = true → post = [])
    (hline : startsLine root ns = true) : StartsLine (statementsPieces ts ++ post) := by
  cases h with
  | nil =>
    have hroot : root = true := by simpa [startsLine] using hline
    rw [hpost hroot]
    simp [statementsPieces, StartsLine]
  | @cons t n ts ns hfirst hrest =>
    cases hfirst with
    | @text text c hwritten =>
      simp only [statementsPieces, StatementTree.pieces, List.cons_append, StartsLine]
      simp only [startsLine, Bool.or_eq_true, Bool.and_eq_true, List.contains_iff_mem,
        beq_iff_eq, hwritten] at hline
      rcases hline with hbreak | ⟨⟨hnone, hroot⟩, hall⟩
      · exact .inl (mem_takeWhile_blank hbreak)
      -- All of the template from here on is blank, and it is the only run left.
      · have hts : ts = [] := by
          cases hrest with
          | nil => rfl
          | cons _ _ => cases hnone
        refine .inr ⟨?_, all_blank_of_takeWhile hall⟩
        rw [hts, hpost hroot]
        simp [statementsPieces]
    | tag ht hn =>
      cases n with
      | content c => exact absurd rfl (hn c)
      | _ => cases hline

theorem statementsPieces_append (ts us : List StatementTree) :
    statementsPieces (ts ++ us) = statementsPieces ts ++ statementsPieces us := by
  induction ts with
  | nil => simp [statementsPieces]
  | cons t ts ih => simp [statementsPieces, ih]

/-- Where statements end a line, so do their pieces. -/
theorem endsLine_spells {root : Bool} {ts : List StatementTree} {ns : List Node}
    {pre : List Piece} (h : List.Forall₂ Spells ts ns) (hpre : root = true → pre = [])
    (hline : endsLine root ns.reverse = true) :
    EndsLine ((statementsPieces ts).reverse ++ pre) := by
  -- The line is looked for from the end, so the last statement comes first.
  have hreverse := List.rel_reverse h
  rcases List.eq_nil_or_concat ts with rfl | ⟨front, t, rfl⟩
  · cases h
    have hroot : root = true := by simpa [endsLine] using hline
    rw [hpre hroot]
    simp [statementsPieces, EndsLine]
  · rw [List.concat_eq_append, List.reverse_append, List.reverse_singleton,
      List.singleton_append] at hreverse
    obtain ⟨n, rest, hfirst, hrest, hns⟩ := List.forall₂_cons_left_iff.mp hreverse
    rw [hns] at hline
    cases hfirst with
    | @text text c hwritten =>
      rw [List.concat_eq_append, statementsPieces_append]
      simp only [statementsPieces, StatementTree.pieces, List.append_nil, List.reverse_append,
        List.reverse_singleton, List.cons_append, EndsLine]
      simp only [endsLine, Bool.or_eq_true, Bool.and_eq_true, List.contains_iff_mem,
        beq_iff_eq, hwritten] at hline
      rcases hline with hbreak | ⟨⟨hnone, hroot⟩, hall⟩
      · -- Read backwards, the line break is among the blanks at the start.
        obtain ⟨blanks, tail, hsplit, hblank⟩ := mem_takeWhile_blank hbreak
        refine .inl ⟨tail.reverse, blanks.reverse, ?_, fun x hx => hblank x
          (List.mem_reverse.mp hx)⟩
        have hvalue := congrArg List.reverse hsplit
        rw [List.reverse_reverse] at hvalue
        rw [hvalue]
        simp
      · have hfront : front = [] := by
          have hempty : rest = [] := List.isEmpty_iff.mp hnone
          rw [hempty] at hrest
          exact List.reverse_eq_nil_iff.mp (List.forall₂_nil_right_iff.mp hrest)
        refine .inr ⟨?_, fun x hx => ?_⟩
        · rw [hfront, hpre hroot]
          simp [statementsPieces]
        · exact all_blank_of_takeWhile (by rw [hall, List.length_reverse]) x
            (List.mem_reverse.mpr hx)
    | tag ht hn =>
      cases n with
      | content c => exact absurd rfl (hn c)
      | _ => cases hline

end TemplateCompiler.Mustache
