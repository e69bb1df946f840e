/-
Chains of `else`s among tokens.

A link of a chain is a block that an `else` begins.  Written out, it is a block of its
own in the other branch, with a tag of its own to close it.

* `chain_holds` — an `else` with more after it begins a branch that goes on to the
  closing tag, and derives as any tokens of the same kinds do;
* `NestingTags.tokens` — the tokens with the link written out;
* `parseProgram_nested` — they are accepted, and the two programs match.

Design notes: tokens that are moved to one place differ in their kinds only
(`nowhere_eq_iff`).  A derivation is found for the tokens of one text and carried to
those of another that way, since nothing is known of where the others stand.
-/
import TemplateCompiler.Proofs.Mustache.Branches
import TemplateCompiler.Proofs.Mustache.Relocation

namespace TemplateCompiler.Mustache

/-! ### Tokens without places -/

/-- The kinds of tokens. -/
def kinds (ts : List Token) : List TokenKind := ts.map (·.kind)

/-- Every offset is moved to the start. -/
def nowhere (_ : Nat) : Nat := 0

theorem nowhere_eq_iff {ts us : List Token} :
    ts.map (·.move nowhere) = us.map (·.move nowhere) ↔ kinds ts = kinds us := by
  have hkinds : ∀ ts : List Token,
      ts.map (·.move nowhere) = (kinds ts).map fun kind => ⟨kind, ⟨0, 0⟩⟩ := by
    intro ts
    rw [kinds, List.map_map]
    rfl
  rw [hkinds, hkinds]
  exact List.map_inj_right fun kind kind' h => (Token.mk.inj h).1

theorem kinds_append (ts us : List Token) : kinds (ts ++ us) = kinds ts ++ kinds us :=
  List.map_append

theorem kinds_move (g : Nat → Nat) (ts : List Token) : kinds (ts.map (·.move g)) = kinds ts := by
  rw [kinds, kinds, List.map_map]
  rfl

/-! ### A link among tokens -/

/-- An `else` with more after it begins a branch that goes on to the closing tag, and derives as
any derivation of tokens of the same kinds does. -/
theorem chain_holds {ss : List StatementTree} {front linked back : List Token} {mark : Leaf Bool}
    {opening : OpeningTree} {body : List StatementTree} {inverse : Option InverseTree}
    (h : statementsTokens ss
      = front ++ ⟨.openInverseChain mark.value, mark.span⟩ :: (linked ++ back))
    (hlinked : kinds linked
      = kinds (opening.tokens ++ (statementsTokens body ++ otherTokens inverse)))
    (hback : BeginsEnd back) :
    ∃ opening' body' inverse', StatementsHold (.chain mark opening' body' inverse') front ss back ∧
      linked = opening'.tokens ++ (statementsTokens body' ++ otherTokens inverse') ∧
      opening'.move nowhere = opening.move nowhere := by
  obtain ⟨i, back', hold, hrest, hend⟩ := statements_hold (by rfl) ss h
  -- With all spans forgotten, the two derivations read the same tokens, so they are one.
  have hmoved : otherTokens (some (i.move nowhere)) ++ back'.map (·.move nowhere)
      = otherTokens (some ((InverseTree.chain mark opening body inverse).move nowhere))
        ++ back.map (·.move nowhere) := by
    rw [otherTokens, otherTokens, i.tokens_move, InverseTree.tokens_move, ← List.map_append,
      ← List.map_append, ← hrest, nowhere_eq_iff, InverseTree.tokens, List.cons_append, kinds,
      kinds, List.map_cons, List.map_cons, ← kinds, ← kinds, kinds_append, kinds_append, hlinked]
  have hkind : ∀ {ts : List Token}, BeginsEnd ts → BeginsEnd (ts.map (·.move nowhere)) := by
    rintro ts ⟨strip, hstrip⟩
    cases ts with
    | nil => cases hstrip
    | cons t ts => exact ⟨strip, hstrip⟩
  obtain ⟨x, hx⟩ := hkind hend
  obtain ⟨y, hy⟩ := hkind hback
  obtain ⟨hi, hbacks⟩ := other_unique _ _ hmoved hx hy
  -- Tokens are dropped nowhere, so the ends are equally long and the tokens split alike.
  have hlength : back'.length = back.length := by
    simpa using congrArg List.length hbacks
  rw [← List.cons_append] at hrest
  obtain ⟨htokens, rfl⟩ := List.append_inj' hrest hlength.symm
  cases i with
  | plain mark' body' =>
    rw [InverseTree.move, InverseTree.move] at hi
    cases hi
  | chain mark' opening' body' inverse' =>
    rw [InverseTree.move, InverseTree.move] at hi
    obtain ⟨-, hopening, -⟩ := InverseTree.chain.inj (Option.some.inj hi)
    rw [InverseTree.tokens] at htokens
    obtain ⟨hmark, hlinks⟩ := List.cons.inj htokens
    obtain ⟨hvalue, hspan⟩ := Token.mk.inj hmark
    obtain rfl : mark = mark' := by
      cases mark
      cases mark'
      cases hvalue
      cases hspan
      rfl
    exact ⟨opening', body', inverse', hold, hlinks, hopening⟩

/-- The tags that a link gets when it is written as a block of its own: the `else`, what opens
the block, what closes it, and the braces that end the closing tag. -/
structure NestingTags where
  mark : Leaf Strip
  opens : Leaf Bool
  closes : Leaf Bool
  ends : Leaf Bool

/-- The tokens of a template in which a link is written as a block of its own.  What is around it
is moved by `g`, and what is in it by `g'`. -/
def NestingTags.tokens (tags : NestingTags) (g g' : Nat → Nat)
    (front linked name back : List Token) : List Token :=
  front.map (·.move g) ++ ⟨.inverse tags.mark.value, tags.mark.span⟩
    :: ⟨.openBlock tags.opens.value, tags.opens.span⟩
    :: (linked.map (·.move g') ++ ⟨.openEndBlock tags.closes.value, tags.closes.span⟩
      :: (name ++ closeToken tags.ends :: back.map (·.move g)))

section Nesting

variable {g g' : Nat → Nat} {σ : Span → Span → Prop} {held : Node → Prop}
  {before behind edge : Nat → Prop}

/-- The last token is all that comes after the statements. -/
theorem statements_of_root {ss : List StatementTree} {eof : Span} {front back : List Token}
    (h : (RootTree.mk ss eof).tokens = front ++ back) (hback : BeginsEnd back) :
    ∃ back', back = back' ++ [⟨.eof, eof⟩] ∧ statementsTokens ss = front ++ back' ∧
      BeginsEnd back' := by
  obtain ⟨strip, hstrip⟩ := hback
  rcases List.eq_nil_or_concat back with rfl | ⟨back', last, rfl⟩
  · cases hstrip
  rw [List.concat_eq_append] at h hstrip ⊢
  rw [RootTree.tokens, ← List.append_assoc] at h
  obtain ⟨hbody, hlast⟩ := List.append_inj' h rfl
  obtain rfl := List.singleton_inj.mp hlast
  refine ⟨back', rfl, hbody, strip, ?_⟩
  cases back' with
  | nil => cases hstrip
  | cons t ts => exact hstrip

/-- A link of a chain among tokens, written as a block of its own in the other branch, is accepted,
and the two programs match. -/
theorem parseProgram_nested {front linked name back : List Token} (mark : Leaf Bool)
    {opening : OpeningTree} {body : List StatementTree} {inverse : Option InverseTree}
    {closing : ExprTree} {p : Program}
    (hends : Ends (front ++ ⟨.openInverseChain mark.value, mark.span⟩ :: (linked ++ back)))
    (h : parseProgram (front ++ ⟨.openInverseChain mark.value, mark.span⟩ :: (linked ++ back))
      = .ok p)
    (hlinked : kinds linked
      = kinds (opening.tokens ++ (statementsTokens body ++ otherTokens inverse)))
    (hname : kinds name = kinds closing.tokens)
    (hadmits : opening.call.callee.Admissible → closing.Admissible)
    (hspelling : spelling closing.expr = spelling opening.call.callee.expr) (hback : BeginsEnd back)
    (harea : Around g σ held before behind) (hbefore : OnEdges before front)
    (hbehind : OnEdges behind back)
    (hleaves : ∀ (tag : Template.BlockTag) program other,
      tag.span = ⟨mark.span.start, startOf back 0⟩ → held (.block tag program other))
    (hmoves : ∀ x y, edge x → edge y → σ ⟨x, y⟩ ⟨g' x, g' y⟩) (hedges : OnEdges edge linked)
    (hstop : edge (startOf back 0)) (tags : NestingTags)
    (hcloses : tags.closes.span.start = g' (startOf back 0))
    (hends' : Ends (tags.tokens g g' front linked name back)) :
    ∃ p', parseProgram (tags.tokens g g' front linked name back) = .ok p' ∧
      ProgramMatches σ held p p' := by
  obtain ⟨⟨ss, eof⟩, htokens, hadmissible, rfl⟩ := parseProgram_sound hends h
  rw [← List.cons_append, ← List.append_assoc] at htokens
  obtain ⟨back, rfl, hss, hback⟩ := statements_of_root htokens hback
  rw [List.append_assoc, List.cons_append] at hss
  obtain ⟨opening', body', inverse', hold, rfl, hopening⟩ := chain_holds hss hlinked hback
  -- The derivation among the tokens differs from the given one in places only.
  have hcallee : opening'.call.callee.move nowhere = opening.call.callee.move nowhere := by
    rw [← callee_move, ← callee_move]
    exact congrArg (fun o : OpeningTree => o.call.callee) hopening
  have hclosing : name.map (·.move nowhere) = (closing.move nowhere).tokens := by
    rw [ExprTree.tokens_move, nowhere_eq_iff, hname]
  obtain ⟨closing', rfl, hnamed⟩ := ExprTree.lift _ hclosing
  have hadmits' : opening'.call.callee.Admissible → closing'.Admissible := by
    rw [← opening'.call.callee.admissible_move (g := nowhere), hcallee, ExprTree.admissible_move,
      ← closing'.admissible_move (g := nowhere), hnamed, ExprTree.admissible_move]
    exact hadmits
  have hspelling' : spelling opening'.call.callee.expr = spelling closing'.expr := by
    rw [← spelling_move (g := nowhere) opening'.call.callee, hcallee, spelling_move, ← hspelling,
      ← spelling_move (g := nowhere) closing', hnamed, spelling_move]
  have hstart : startOf back 0 = startOf (back ++ [⟨.eof, eof⟩]) 0 := by
    obtain ⟨strip, hstrip⟩ := hback
    cases back with
    | nil => cases hstrip
    | cons t ts => rfl
  rw [← hstart] at hleaves hstop hcloses
  have hstands : Stands g σ held (startOf back 0) (.chain mark opening' body' inverse')
      (nestedBranch g' tags.mark tags.opens opening' body' inverse'
        ⟨tags.closes, closing', tags.ends⟩) :=
    stands_nested tags.mark tags.opens hleaves hmoves
      (fun t ht => hedges t (List.mem_append_right _ ht)) hstop hcloses hadmits' hspelling'
  obtain ⟨ss', htokens', hadmissible', hmatch⟩ :=
    hold.plug harea hstands hbefore (onEdges_append.mp hbehind).1 rfl
  have hroot : (RootTree.mk ss' (eof.move g)).tokens
      = tags.tokens g g' front (opening'.tokens ++ (statementsTokens body' ++ otherTokens inverse'))
        closing'.tokens (back ++ [⟨.eof, eof⟩]) := by
    rw [RootTree.tokens, htokens', nestedBranch_tokens, NestingTags.tokens, ClosingTree.tokens]
    simp
  rw [← hroot] at hends' ⊢
  exact ⟨_, parseProgram_complete hends' (hadmissible' hadmissible), .mk hmatch⟩

end Nesting

end TemplateCompiler.Mustache
