/-
Branches of blocks, and putting others in their place.

* `StatementsHold` — where a branch stands among statements: the tokens before it
  and those after it;
* `statements_hold` — every `else` with more after it begins a branch;
* `StatementsHold.plug` — another branch in the place of one, while everything
  around it is moved;
* `StatementTree.lift` — a derivation of tokens is one of the same tokens at other
  places.
-/
import TemplateCompiler.Proofs.Mustache.Shapes
import TemplateCompiler.Proofs.Mustache.Tagged

namespace TemplateCompiler.Mustache

/-! ### Where a branch stands -/

mutual

/-- A branch stands in a statement, after the tokens `front` and before the tokens
`back`. -/
inductive StatementTree.Holds (i : InverseTree) :
    List Token → StatementTree → List Token → Prop
  | body {mark : Leaf Bool} {opening : OpeningTree} {body : List StatementTree}
    {inverse : Option InverseTree} {closing : ClosingTree} {front back : List Token}
    (h : StatementsHold i front body back) :
    StatementTree.Holds i (⟨.openBlock mark.value, mark.span⟩ :: (opening.tokens ++ front))
      (.block mark opening body inverse closing)
      (back ++ (otherTokens inverse ++ closing.tokens))
  | other {mark : Leaf Bool} {opening : OpeningTree} {body : List StatementTree}
    {branch : InverseTree} {closing : ClosingTree} {front back : List Token}
    (h : InverseTree.Holds i front branch back) :
    StatementTree.Holds i
      (⟨.openBlock mark.value, mark.span⟩ :: (opening.tokens ++ (statementsTokens body ++ front)))
      (.block mark opening body (some branch) closing) (back ++ closing.tokens)

/-- A branch stands among statements. -/
inductive StatementsHold (i : InverseTree) :
    List Token → List StatementTree → List Token → Prop
  | head {s : StatementTree} {rest : List StatementTree} {front back : List Token}
    (h : StatementTree.Holds i front s back) :
    StatementsHold i front (s :: rest) (back ++ statementsTokens rest)
  | tail {s : StatementTree} {rest : List StatementTree} {front back : List Token}
    (h : StatementsHold i front rest back) : StatementsHold i (s.tokens ++ front) (s :: rest) back

/-- A branch is the branch of a block, or stands in it. -/
inductive InverseTree.Holds (i : InverseTree) : List Token → InverseTree → List Token → Prop
  | here : InverseTree.Holds i [] i []
  | plain {mark : Leaf Strip} {body : List StatementTree} {front back : List Token}
    (h : StatementsHold i front body back) :
    InverseTree.Holds i (⟨.inverse mark.value, mark.span⟩ :: front) (.plain mark body) back
  | chainBody {mark : Leaf Bool} {opening : OpeningTree} {body : List StatementTree}
    {inverse : Option InverseTree} {front back : List Token}
    (h : StatementsHold i front body back) :
    InverseTree.Holds i (⟨.openInverseChain mark.value, mark.span⟩ :: (opening.tokens ++ front))
      (.chain mark opening body inverse) (back ++ otherTokens inverse)
  | chainOther {mark : Leaf Bool} {opening : OpeningTree} {body : List StatementTree}
    {branch : InverseTree} {front back : List Token} (h : InverseTree.Holds i front branch back) :
    InverseTree.Holds i
      (⟨.openInverseChain mark.value, mark.span⟩
        :: (opening.tokens ++ (statementsTokens body ++ front)))
      (.chain mark opening body (some branch)) back

end

/-! ### Finding a branch -/

/-- Whether a token is an `else` with more after it. -/
def Token.isChain (t : Token) : Bool :=
  match t.kind with
  | .openInverseChain _ => true
  | _ => false

theorem Token.no_chain_of_isWord {t : Token} (h : t.kind.isWord = true) : t.isChain = false := by
  unfold Token.isChain
  cases hkind : t.kind with
  | openInverseChain strip =>
    rw [hkind] at h
    cases h
  | _ => rfl

theorem OpeningTree.no_chain (o : OpeningTree) : ∀ t ∈ o.tokens, t.isChain = false := by
  rw [OpeningTree.tokens, List.forall_mem_append, List.forall_mem_append]
  exact ⟨fun t ht => t.no_chain_of_isWord (callTokens_words o.call t ht),
    fun t ht => t.no_chain_of_isWord (paramsTokens_words o.params t ht),
    List.forall_mem_singleton.mpr rfl⟩

theorem ClosingTree.no_chain (c : ClosingTree) : ∀ t ∈ c.tokens, t.isChain = false := by
  rw [ClosingTree.tokens, List.forall_mem_cons, List.forall_mem_append]
  exact ⟨rfl, fun t ht => t.no_chain_of_isWord (c.name.words t ht),
    List.forall_mem_singleton.mpr rfl⟩

/-- A token among two lists is in the first or in the second. -/
theorem split_at {front rest first second : List Token} {t : Token}
    (h : front ++ t :: rest = first ++ second) :
    (∃ more, first = front ++ t :: more ∧ rest = more ++ second) ∨
      ∃ more, front = first ++ more ∧ second = more ++ t :: rest := by
  rcases List.append_eq_append_iff.mp h with ⟨more, hfirst, hmore⟩ | ⟨more, hfront, hsecond⟩
  · cases more with
    | nil => exact .inr ⟨[], by simpa using hfirst.symm, by simpa using hmore.symm⟩
    | cons u more =>
      obtain ⟨rfl, rfl⟩ := List.cons.inj hmore
      exact .inl ⟨more, hfirst, rfl⟩
  · exact .inr ⟨more, hfront, hsecond⟩

/-- An `else` is not among tokens that have none. -/
theorem split_past {front rest first second : List Token} {t : Token} (ht : t.isChain = true)
    (hfirst : ∀ u ∈ first, u.isChain = false) (h : front ++ t :: rest = first ++ second) :
    ∃ more, front = first ++ more ∧ second = more ++ t :: rest := by
  rcases split_at h with ⟨more, hmem, -⟩ | hsome
  · rw [hfirst t (by rw [hmem]; simp)] at ht
    cases ht
  · exact hsome

/-- Tokens that begin with a tag that closes a block. -/
def BeginsEnd (ts : List Token) : Prop := ∃ strip, headKind ts = .openEndBlock strip

theorem BeginsEnd.append {ts : List Token} (h : BeginsEnd ts) (us : List Token) :
    BeginsEnd (ts ++ us) := by
  obtain ⟨strip, hstrip⟩ := h
  cases ts with
  | nil => cases hstrip
  | cons t ts => exact ⟨strip, hstrip⟩

theorem ClosingTree.beginsEnd (c : ClosingTree) : BeginsEnd c.tokens := ⟨c.mark.value, rfl⟩

/-- A call between two tokens has no `else`. -/
theorem tag_no_chain {mark close : Token} {call : CallTree ExprTree} (hmark : mark.isChain = false)
    (hclose : close.isChain = false) :
    ∀ t ∈ mark :: (callTokens call ++ [close]), t.isChain = false := by
  rw [List.forall_mem_cons, List.forall_mem_append]
  exact ⟨hmark, fun t ht => t.no_chain_of_isWord (callTokens_words call t ht),
    by simpa using hclose⟩

mutual

/-- An `else` with more after it, among the tokens of a statement, begins a branch. -/
theorem statement_holds {t : Token} (ht : t.isChain = true) : (s : StatementTree) →
    {front rest : List Token} → s.tokens = front ++ t :: rest →
      ∃ i back, s.Holds i front back ∧ t :: rest = i.tokens ++ back ∧ BeginsEnd back
  -- Only a block holds the token: the other statements have no such token in them.
  | .content text, front, rest, h => by
    rw [StatementTree.tokens, ← List.append_nil [_]] at h
    obtain ⟨more, -, hmore⟩ := split_past ht (by simp [Token.isChain]) h.symm
    simp at hmore
  | .comment text, front, rest, h => by
    rw [StatementTree.tokens, ← List.append_nil [_]] at h
    obtain ⟨more, -, hmore⟩ := split_past ht (by simp [Token.isChain]) h.symm
    simp at hmore
  | .mustache mark call close, front, rest, h => by
    rw [StatementTree.tokens, ← List.append_nil (_ :: _)] at h
    obtain ⟨more, -, hmore⟩ := split_past ht (tag_no_chain rfl rfl) h.symm
    simp at hmore
  | .unescaped mark call close, front, rest, h => by
    rw [StatementTree.tokens, ← List.append_nil (_ :: _)] at h
    obtain ⟨more, -, hmore⟩ := split_past ht (tag_no_chain rfl rfl) h.symm
    simp at hmore
  | .partialCall mark call close, front, rest, h => by
    rw [StatementTree.tokens, ← List.append_nil (_ :: _)] at h
    obtain ⟨more, -, hmore⟩ := split_past ht (tag_no_chain rfl rfl) h.symm
    simp at hmore
  | .block mark opening body inverse closing, front, rest, h => by
    rw [StatementTree.tokens, ← List.cons_append] at h
    have hopening :
        ∀ u ∈ ⟨.openBlock mark.value, mark.span⟩ :: opening.tokens, u.isChain = false := by
      rw [List.forall_mem_cons]
      exact ⟨rfl, opening.no_chain⟩
    obtain ⟨front₁, rfl, h₁⟩ := split_past ht hopening h.symm
    -- The token stands in the body, in the branches, or in the closing tag, which has none.
    rcases split_at h₁.symm with ⟨more, hbody, rfl⟩ | ⟨front₂, rfl, h₂⟩
    · obtain ⟨i, back, hold, hrest, hend⟩ := statements_hold ht body hbody
      refine ⟨i, _, .body hold, ?_, hend.append _⟩
      rw [← List.append_assoc i.tokens, ← hrest, List.cons_append]
    · rcases split_at h₂.symm with ⟨more, hother, rfl⟩ | ⟨front₃, rfl, h₃⟩
      · match inverse with
        | none => simp [otherTokens] at hother
        | some branch =>
          rw [otherTokens] at hother
          obtain ⟨i, back, hold, hrest, hend⟩ := inverse_holds ht branch hother
          refine ⟨i, _, .other hold, ?_, ?_⟩
          · rw [← List.append_assoc, ← hrest, List.cons_append]
          · rcases hend with rfl | hend
            · exact closing.beginsEnd
            · exact hend.append _
      · rw [closing.no_chain t (by rw [h₃]; simp)] at ht
        cases ht

theorem statements_hold {t : Token} (ht : t.isChain = true) : (ss : List StatementTree) →
    {front rest : List Token} → statementsTokens ss = front ++ t :: rest →
      ∃ i back, StatementsHold i front ss back ∧ t :: rest = i.tokens ++ back ∧ BeginsEnd back
  | [], front, rest, h => by simp [statementsTokens] at h
  | s :: ss, front, rest, h => by
    rw [statementsTokens] at h
    rcases split_at h.symm with ⟨more, hs, rfl⟩ | ⟨front₁, rfl, h₁⟩
    · obtain ⟨i, back, hold, hrest, hend⟩ := statement_holds ht s hs
      refine ⟨i, _, .head hold, ?_, hend.append _⟩
      rw [← List.append_assoc, ← hrest, List.cons_append]
    · obtain ⟨i, back, hold, hrest, hend⟩ := statements_hold ht ss h₁
      exact ⟨i, back, .tail hold, hrest, hend⟩

/-- In a branch of a block it may be the branch itself, which then goes on to the
end. -/
theorem inverse_holds {t : Token} (ht : t.isChain = true) : (b : InverseTree) →
    {front rest : List Token} → b.tokens = front ++ t :: rest →
      ∃ i back, InverseTree.Holds i front b back ∧ t :: rest = i.tokens ++ back ∧
        (back = [] ∨ BeginsEnd back)
  | .plain mark body, front, rest, h => by
    rw [InverseTree.tokens, ← List.singleton_append] at h
    obtain ⟨front₁, rfl, h₁⟩ := split_past ht (by simp [Token.isChain]) h.symm
    obtain ⟨i, back, hold, hrest, hend⟩ := statements_hold ht body h₁
    exact ⟨i, back, .plain hold, hrest, .inr hend⟩
  -- Nothing stands before the token: this is the branch that it begins.
  | .chain mark opening body inverse, [], rest, h => by
    refine ⟨_, [], .here, ?_, .inl rfl⟩
    rw [List.append_nil, h, List.nil_append]
  | .chain mark opening body inverse, u :: front, rest, h => by
    rw [InverseTree.tokens, List.cons_append] at h
    obtain ⟨rfl, h₀⟩ := List.cons.inj h
    obtain ⟨front₁, rfl, h₁⟩ := split_past ht opening.no_chain h₀.symm
    rcases split_at h₁.symm with ⟨more, hbody, rfl⟩ | ⟨front₂, rfl, h₂⟩
    · obtain ⟨i, back, hold, hrest, hend⟩ := statements_hold ht body hbody
      refine ⟨i, _, .chainBody hold, ?_, .inr (hend.append _)⟩
      rw [← List.append_assoc, ← hrest, List.cons_append]
    · match inverse with
      | none => simp [otherTokens] at h₂
      | some branch =>
        rw [otherTokens] at h₂
        obtain ⟨i, back, hold, hrest, hend⟩ := inverse_holds ht branch h₂
        exact ⟨i, back, .chainOther hold, hrest, hend⟩

end

/-! ### Another branch in its place -/

section Plugging

variable {g : Nat → Nat} {σ : Span → Span → Prop} {held : Node → Prop} {before behind : Nat → Prop}
    {stop : Nat}

/-- What is asked of the places around a branch: spans on either side of it stay
related when they are moved, and what begins before it and ends behind it is left
out. -/
structure Around (g : Nat → Nat) (σ : Span → Span → Prop) (held : Node → Prop)
    (before behind : Nat → Prop) : Prop where
  moves_before : ∀ x y, before x → before y → σ ⟨x, y⟩ ⟨g x, g y⟩
  moves_behind : ∀ x y, behind x → behind y → σ ⟨x, y⟩ ⟨g x, g y⟩
  leaves : ∀ (tag : Template.BlockTag) program other, before tag.span.start →
    behind tag.span.stop → held (.block tag program other)

/-- The branch `j` may take the place of the branch `i`, which ends at `stop`. -/
structure Stands (g : Nat → Nat) (σ : Span → Span → Prop) (held : Node → Prop) (stop : Nat)
    (i j : InverseTree) : Prop where
  admissible : i.Admissible → j.Admissible
  program : ∀ close close',
    ProgramMatches σ held (i.program stop close) (j.program (g stop) close')

theorem startOf_append (ts us : List Token) (next : Nat) :
    startOf (ts ++ us) next = startOf ts (startOf us next) := by
  cases ts <;> rfl

theorem onEdges_append {edge : Nat → Prop} {ts us : List Token} :
    OnEdges edge (ts ++ us) ↔ OnEdges edge ts ∧ OnEdges edge us := List.forall_mem_append

theorem onEdges_cons {edge : Nat → Prop} {t : Token} {ts : List Token} :
    OnEdges edge (t :: ts) ↔ (edge t.span.start ∧ edge t.span.stop) ∧ OnEdges edge ts :=
  List.forall_mem_cons

theorem ClosingTree.onEdges {edge : Nat → Prop} {c : ClosingTree} (h : OnEdges edge c.tokens) :
    edge c.mark.span.start ∧ edge c.close.span.stop := by
  have hmark := h ⟨.openEndBlock c.mark.value, c.mark.span⟩ (by simp [ClosingTree.tokens])
  have hclose := h (closeToken c.close) (by simp [ClosingTree.tokens])
  exact ⟨hmark.1, hclose.2⟩

mutual

theorem StatementTree.Holds.plug {i j : InverseTree} (harea : Around g σ held before behind)
    (hj : Stands g σ held stop i j) {s : StatementTree} {front back : List Token} :
    s.Holds i front back → OnEdges before front → OnEdges behind back →
      ∀ {next : Nat}, startOf back next = stop →
      ∃ s' : StatementTree, s'.tokens = front.map (·.move g) ++ (j.tokens ++ back.map (·.move g)) ∧
        (s.Admissible → s'.Admissible) ∧ s.node.Matches σ held s'.node
  -- What is replaced stands in the body: all before it keeps, all after it moves.
  | @StatementTree.Holds.body _ mark opening body inverse closing front back h, hfront, hback, next,
      hstop => by
    rw [onEdges_cons, onEdges_append] at hfront
    rw [onEdges_append, onEdges_append] at hback
    rw [startOf_append] at hstop
    obtain ⟨body', htokens, hadmissible, hmatch⟩ := h.plug harea hj hfront.2.2 hback.1 hstop
    have hclosing := ClosingTree.onEdges hback.2.2
    refine ⟨.block (mark.move g) (opening.move g) body' (moveOther g inverse) (closing.move g), ?_, ?_,
      ?_⟩
    · rw [StatementTree.tokens, htokens, opening.tokens_move, otherTokens_move, closing.tokens_move]
      simp
    · intro hs
      rw [StatementTree.Admissible] at hs ⊢
      obtain ⟨hopening, hbody, hother, hname, hspelling⟩ := hs
      refine ⟨opening.admissible_move.mpr hopening, hadmissible hbody,
        (otherAdmissible_move inverse).mpr hother,
        closing.name.admissible_move.mpr hname, ?_⟩
      rw [OpeningTree.move, ClosingTree.move, callee_move, spelling_move, spelling_move, hspelling]
    · rw [StatementTree.node, StatementTree.node, OpeningTree.move, paramsNames_move]
      exact .block (callOf_move opening.call).symm (.inl (harea.leaves _ _ _ hfront.1.1 hclosing.2))
        (.mk hmatch) (other_move_match harea.moves_behind inverse hclosing.1 hback.2.1 _ _)
  -- In a branch: the body is kept as it is.
  | @StatementTree.Holds.other _ mark opening body branch closing front back h, hfront, hback, next,
      hstop => by
    rw [onEdges_cons, onEdges_append, onEdges_append] at hfront
    rw [onEdges_append] at hback
    rw [startOf_append] at hstop
    have hclosing := ClosingTree.onEdges hback.2
    obtain ⟨branch', htokens, hadmissible, hmatch⟩ :=
      h.plug harea hj hfront.2.2.2 hback.1 hclosing.1 hstop
    refine ⟨.block (mark.move g) (opening.move g) (moveStatements g body) (some branch')
      (closing.move g), ?_, ?_, ?_⟩
    · rw [StatementTree.tokens, otherTokens, htokens, opening.tokens_move, statementsTokens_move,
        closing.tokens_move]
      simp
    · intro hs
      rw [StatementTree.Admissible, OtherAdmissible] at hs ⊢
      obtain ⟨hopening, hbody, hother, hname, hspelling⟩ := hs
      refine ⟨opening.admissible_move.mpr hopening, (statementsAdmissible_move body).mpr hbody,
        hadmissible hother,
        closing.name.admissible_move.mpr hname, ?_⟩
      rw [OpeningTree.move, ClosingTree.move, callee_move, spelling_move, spelling_move, hspelling]
    · rw [StatementTree.node, StatementTree.node, OpeningTree.move, paramsNames_move, otherOf,
        otherOf]
      exact .block (callOf_move opening.call).symm (.inl (harea.leaves _ _ _ hfront.1.1 hclosing.2))
        (.mk (statements_move_match harea.moves_before body hfront.2.2.1))
        (.some (hmatch _ _))

theorem StatementsHold.plug {i j : InverseTree} (harea : Around g σ held before behind)
    (hj : Stands g σ held stop i j) {ss : List StatementTree} {front back : List Token} :
    StatementsHold i front ss back → OnEdges before front → OnEdges behind back →
      ∀ {next : Nat}, startOf back next = stop →
      ∃ ss' : List StatementTree,
        statementsTokens ss' = front.map (·.move g) ++ (j.tokens ++ back.map (·.move g)) ∧
        (StatementsAdmissible ss → StatementsAdmissible ss') ∧
        NodesMatch σ held (nodesOf ss) (nodesOf ss')
  | @StatementsHold.head _ s rest front back h, hfront, hback, next, hstop => by
    rw [onEdges_append] at hback
    rw [startOf_append] at hstop
    obtain ⟨s', htokens, hadmissible, hmatch⟩ := h.plug harea hj hfront hback.1 hstop
    refine ⟨s' :: moveStatements g rest, ?_, ?_, ?_⟩
    · rw [statementsTokens, htokens, statementsTokens_move]
      simp
    · intro hs
      rw [StatementsAdmissible] at hs ⊢
      exact ⟨hadmissible hs.1, (statementsAdmissible_move rest).mpr hs.2⟩
    · rw [nodesOf, nodesOf]
      exact .cons hmatch (statements_move_match harea.moves_behind rest hback.2)
  | @StatementsHold.tail _ s rest front back h, hfront, hback, next, hstop => by
    rw [onEdges_append] at hfront
    obtain ⟨rest', htokens, hadmissible, hmatch⟩ := h.plug harea hj hfront.2 hback hstop
    refine ⟨s.move g :: rest', ?_, ?_, ?_⟩
    · rw [statementsTokens, htokens, s.tokens_move]
      simp
    · intro hs
      rw [StatementsAdmissible] at hs ⊢
      exact ⟨s.admissible_move.mpr hs.1, hadmissible hs.2⟩
    · rw [nodesOf, nodesOf]
      exact .cons (statement_move_match harea.moves_before s hfront.1) hmatch

theorem InverseTree.Holds.plug {i j : InverseTree} (harea : Around g σ held before behind)
    (hj : Stands g σ held stop i j) {b : InverseTree} {front back : List Token} :
    InverseTree.Holds i front b back → OnEdges before front → OnEdges behind back →
      ∀ {next : Nat}, behind next → startOf back next = stop →
      ∃ b' : InverseTree, b'.tokens = front.map (·.move g) ++ (j.tokens ++ back.map (·.move g)) ∧
        (b.Admissible → b'.Admissible) ∧
        ∀ close close', ProgramMatches σ held (b.program next close) (b'.program (g next) close')
  -- The branch itself is replaced.
  | .here, _, _, next, _, hstop => by
    obtain rfl : next = stop := hstop
    exact ⟨j, by simp, hj.admissible, hj.program⟩
  | @InverseTree.Holds.plain _ mark body front back h, hfront, hback, next, hnext, hstop => by
    rw [onEdges_cons] at hfront
    obtain ⟨body', htokens, hadmissible, hmatch⟩ := h.plug harea hj hfront.2 hback hstop
    refine ⟨.plain (mark.move g) body', ?_, ?_, ?_⟩
    · rw [InverseTree.tokens, htokens]
      simp
    · intro hs
      rw [InverseTree.Admissible] at hs ⊢
      exact hadmissible hs
    · intro close close'
      rw [InverseTree.program, InverseTree.program]
      exact .mk hmatch
  | @InverseTree.Holds.chainBody _ mark opening body inverse front back h, hfront, hback, next,
      hnext, hstop => by
    rw [onEdges_cons, onEdges_append] at hfront
    rw [onEdges_append] at hback
    rw [startOf_append] at hstop
    obtain ⟨body', htokens, hadmissible, hmatch⟩ := h.plug harea hj hfront.2.2 hback.1 hstop
    refine ⟨.chain (mark.move g) (opening.move g) body' (moveOther g inverse), ?_, ?_, ?_⟩
    · rw [InverseTree.tokens, htokens, opening.tokens_move, otherTokens_move]
      simp
    · intro hs
      rw [InverseTree.Admissible] at hs ⊢
      exact ⟨opening.admissible_move.mpr hs.1, hadmissible hs.2.1,
        (otherAdmissible_move inverse).mpr hs.2.2⟩
    · intro close close'
      rw [InverseTree.program, InverseTree.program, OpeningTree.move, paramsNames_move]
      exact .mk (.cons (.block (callOf_move opening.call).symm
        (.inl (harea.leaves _ _ _ hfront.1.1 hnext)) (.mk hmatch)
        (other_move_match harea.moves_behind inverse hnext hback.2 _ _)) .nil)
  | @InverseTree.Holds.chainOther _ mark opening body branch front back h, hfront, hback, next,
      hnext, hstop => by
    rw [onEdges_cons, onEdges_append, onEdges_append] at hfront
    obtain ⟨branch', htokens, hadmissible, hmatch⟩ := h.plug harea hj hfront.2.2.2 hback hnext hstop
    refine ⟨.chain (mark.move g) (opening.move g) (moveStatements g body) (some branch'), ?_, ?_,
      ?_⟩
    · rw [InverseTree.tokens, otherTokens, htokens, opening.tokens_move, statementsTokens_move]
      simp
    · intro hs
      rw [InverseTree.Admissible, OtherAdmissible] at hs ⊢
      exact ⟨opening.admissible_move.mpr hs.1, (statementsAdmissible_move body).mpr hs.2.1,
        hadmissible hs.2.2⟩
    · intro close close'
      rw [InverseTree.program, InverseTree.program, OpeningTree.move, paramsNames_move, otherOf,
        otherOf]
      exact .mk (.cons (.block (callOf_move opening.call).symm
        (.inl (harea.leaves _ _ _ hfront.1.1 hnext))
        (.mk (statements_move_match harea.moves_before body hfront.2.2.1))
        (.some (hmatch _ _))) .nil)

end

/-- A link of a chain written as a block of its own in the other branch. -/
def nestedBranch (g : Nat → Nat) (mark : Leaf Strip) (inner : Leaf Bool) (opening : OpeningTree)
    (body : List StatementTree) (inverse : Option InverseTree) (closing : ClosingTree) :
    InverseTree :=
  .plain mark
    [.block inner (opening.move g) (moveStatements g body) (moveOther g inverse) closing]

theorem nestedBranch_tokens (mark : Leaf Strip) (inner : Leaf Bool) (opening : OpeningTree)
    (body : List StatementTree) (inverse : Option InverseTree) (closing : ClosingTree) :
    (nestedBranch g mark inner opening body inverse closing).tokens
      = ⟨.inverse mark.value, mark.span⟩ :: ⟨.openBlock inner.value, inner.span⟩
        :: ((opening.tokens ++ (statementsTokens body ++ otherTokens inverse)).map (·.move g)
          ++ closing.tokens) := by
  rw [nestedBranch, InverseTree.tokens, statementsTokens, statementsTokens, StatementTree.tokens,
    opening.tokens_move, statementsTokens_move, otherTokens_move]
  simp

theorem callee_admissible {call : CallTree ExprTree} (h : CallAdmissible call) :
    call.callee.Admissible := by
  obtain ⟨callee, params, pairs⟩ := call
  rw [CallAdmissible] at h
  exact h.1

/-- A link of a chain may be written as a block of its own: both stand for a block
in a program of its own. -/
theorem stands_nested {g' : Nat → Nat} {edge : Nat → Prop} {mark : Leaf Bool} {opening : OpeningTree}
    {body : List StatementTree} {inverse : Option InverseTree} (mark' : Leaf Strip)
    (inner : Leaf Bool) {closing : ClosingTree}
    (hleaves : ∀ (tag : Template.BlockTag) program other, tag.span = ⟨mark.span.start, stop⟩ →
      held (.block tag program other))
    (hmoves : ∀ x y, edge x → edge y → σ ⟨x, y⟩ ⟨g x, g y⟩)
    (hedges : OnEdges edge (statementsTokens body ++ otherTokens inverse)) (hstop : edge stop)
    (hclosing : closing.mark.span.start = g stop)
    (hname : opening.call.callee.Admissible → closing.name.Admissible)
    (hspelling : spelling opening.call.callee.expr = spelling closing.name.expr) :
    Stands g' σ held stop (.chain mark opening body inverse)
      (nestedBranch g mark' inner opening body inverse closing) where
  admissible h := by
    rw [InverseTree.Admissible] at h
    rw [nestedBranch, InverseTree.Admissible, StatementsAdmissible, StatementsAdmissible,
      StatementTree.Admissible, opening.admissible_move, statementsAdmissible_move,
      otherAdmissible_move, OpeningTree.move, callee_move, spelling_move]
    exact ⟨⟨h.1, h.2.1, h.2.2, hname (callee_admissible h.1.1), hspelling⟩, trivial⟩
  program close close' := by
    rw [onEdges_append] at hedges
    rw [nestedBranch, InverseTree.program, InverseTree.program, nodesOf, nodesOf, StatementTree.node,
      OpeningTree.move, paramsNames_move, hclosing]
    exact .mk (.cons (.block (callOf_move opening.call).symm (.inl (hleaves _ _ _ rfl))
      (.mk (statements_move_match hmoves body hedges.1))
      (other_move_match hmoves inverse hstop hedges.2 _ _)) .nil)

end Plugging

end TemplateCompiler.Mustache
