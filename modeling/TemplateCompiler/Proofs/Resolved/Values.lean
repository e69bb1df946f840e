/-
Values are resolved by lexical scoping.

Every step that resolves a value, an attribute or a modifier comes to what the
rules of `ResolvesExpr` and its companions say (`expr_outcome`,
`attrValue_outcome`, `modifierOf_outcome`).  None of them opens a block.

The proofs follow the steps: a step that succeeds is taken apart, the outcomes of
its parts are put in sequence, and the rule for the form is applied to them.
-/
import TemplateCompiler.Proofs.Resolved.Steps

namespace TemplateCompiler.Resolved

open Template (Pair Hash Call MustacheTag ConcatPart AttrValue)

section

variable {o : Settings} {env : Scopes}

/-! ### Expressions -/

mutual

/-- An expression at a site. -/
theorem expr_outcome (site : Site) (e : Template.Expr) {p q : Progress} {value : Expr}
    (hat : At o env p) (h : (expr o site e).run p = .ok value q) :
    Outcome o (fun F => ResolvesExpr o F env site e value) [] p q := by
  match e with
  | .literal literal span =>
    rw [expr] at h
    obtain ⟨rfl, rfl⟩ := run_pure_ok.mp h
    exact Outcome.rfl hat fun F => .literal
  | .path path =>
    rw [expr] at h
    exact path_outcome hat h
  | .sub call span =>
    rw [expr] at h
    obtain ⟨k, r, hk, h⟩ := run_bind_ok.mp h
    obtain ⟨rfl, hkeyword⟩ := callKeyword?_ok hat hk
    cases k with
    | some k => exact (keywordCall_outcome k _ span call hat h).imp fun F hF => .keyword hkeyword hF
    | none => exact (callOf_outcome .sub span call hat h).imp fun F hF => .call hkeyword hF

theorem arguments_outcome (params : List Template.Expr) {p q : Progress} {values : List Expr}
    (hat : At o env p) (h : (arguments o params).run p = .ok values q) :
    Outcome o (fun F => ResolvesExprs o F env params values) [] p q := by
  match params with
  | [] =>
    rw [arguments] at h
    obtain ⟨rfl, rfl⟩ := run_pure_ok.mp h
    exact Outcome.rfl hat fun F => .nil
  | param :: rest =>
    rw [arguments] at h
    simp only [run_bind_ok, run_pure_ok] at h
    obtain ⟨value, r, hvalue, values, _, hvalues, rfl, rfl⟩ := h
    have h₁ := expr_outcome .argument param hat hvalue
    have h₂ := arguments_outcome rest (h₁.at hat) hvalues
    exact (h₁.seq h₂).imp fun F hF => .cons hF.1 hF.2

theorem namedArguments_outcome (pairs : List (Pair Template.Expr)) {p q : Progress}
    {named : List (Named Expr)} (hat : At o env p)
    (h : (namedArguments o pairs).run p = .ok named q) :
    Outcome o (fun F => ResolvesPairs o F env pairs named) [] p q := by
  match pairs with
  | [] =>
    rw [namedArguments] at h
    obtain ⟨rfl, rfl⟩ := run_pure_ok.mp h
    exact Outcome.rfl hat fun F => .nil
  | ⟨key, param, span⟩ :: rest =>
    rw [namedArguments] at h
    simp only [run_bind_ok, run_pure_ok] at h
    obtain ⟨value, r, hvalue, values, _, hvalues, rfl, rfl⟩ := h
    have h₁ := expr_outcome .argument param hat hvalue
    have h₂ := namedArguments_outcome rest (h₁.at hat) hvalues
    exact (h₁.seq h₂).imp fun F hF => ResolvesPairs.cons hF.1 hF.2

theorem callOf_outcome (site : Site) (span : Span) (call : Call Template.Expr) {p q : Progress}
    {value : Expr} (hat : At o env p) (h : (callOf o site span call).run p = .ok value q) :
    Outcome o (fun F => ResolvesCall o F env site span call value) [] p q := by
  match call with
  | ⟨callee, params, ⟨pairs, hashSpan⟩⟩ =>
    rw [callOf] at h
    simp only [run_bind_ok, run_pure_ok] at h
    obtain ⟨callee', _, hcallee, positional, _, hparams, named, _, hpairs, rfl, rfl⟩ := h
    have h₁ := expr_outcome site callee hat hcallee
    have h₂ := arguments_outcome params (h₁.at hat) hparams
    have h₃ := namedArguments_outcome pairs (h₂.at (h₁.at hat)) hpairs
    exact ((h₁.seq h₂).seq h₃).imp fun F hF => .mk hF.1.1 hF.1.2 hF.2

theorem definitionOf_outcome (label : String) (span : Span) (params : List Template.Expr)
    {p q : Progress} {value : Expr × List Expr} (hat : At o env p)
    (h : (definitionOf o label span params).run p = .ok value q) :
    ∃ definition rest, params = definition :: rest ∧
      Outcome o (fun F => ResolvesExpr o F env .argument definition value.1 ∧
        ResolvesExprs o F env rest value.2) [] p q := by
  match params with
  | [] =>
    rw [definitionOf] at h
    exact (run_throw_ok.mp h).elim
  | definition :: rest =>
    rw [definitionOf] at h
    simp only [run_bind_ok, run_ite_ok, run_throw_ok, run_pure_ok, false_and, exists_false,
      and_false, false_or] at h
    obtain ⟨-, value, _, hvalue, positional, _, hparams, rfl, rfl⟩ := h
    have h₁ := expr_outcome .argument definition hat hvalue
    have h₂ := arguments_outcome rest (h₁.at hat) hparams
    exact ⟨definition, rest, rfl, h₁.seq h₂⟩

theorem inlineBranch_outcome (negated : Bool) (label : String) (span : Span)
    (hash : Hash Template.Expr) (callee : Template.Expr) (params : List Template.Expr)
    {p q : Progress} {value : Expr} (hat : At o env p)
    (h : (inlineBranch o negated label span hash params).run p = .ok value q) :
    Outcome o
      (fun F => ResolvesKeyword o F env (.branch negated) span ⟨callee, params, hash⟩ value) []
      p q := by
  match params with
  | [condition, truthy] =>
    unfold inlineBranch at h
    simp only [run_bind_ok, run_pure_ok] at h
    obtain ⟨_, _, hnamed, condition', _, hcondition, truthy', _, htruthy, rfl, rfl⟩ := h
    obtain ⟨rfl, htakes⟩ := checkNamed_ok hnamed
    have h₁ := expr_outcome .argument condition hat hcondition
    have h₂ := expr_outcome .argument truthy (h₁.at hat) htruthy
    exact (h₁.seq h₂).imp fun F hF => .branch htakes hF.1 hF.2
  | [condition, truthy, falsy] =>
    unfold inlineBranch at h
    simp only [run_bind_ok, run_pure_ok] at h
    obtain ⟨_, _, hnamed, condition', _, hcondition, truthy', _, htruthy, falsy', _, hfalsy,
      rfl, rfl⟩ := h
    obtain ⟨rfl, htakes⟩ := checkNamed_ok hnamed
    have h₁ := expr_outcome .argument condition hat hcondition
    have h₂ := expr_outcome .argument truthy (h₁.at hat) htruthy
    have h₃ := expr_outcome .argument falsy (h₂.at (h₁.at hat)) hfalsy
    exact ((h₁.seq h₂).seq h₃).imp fun F hF => .branchElse htakes hF.1.1 hF.1.2 hF.2
  -- Any other number of arguments is a fault.
  | [] | [_] | _ :: _ :: _ :: _ :: _ =>
    unfold inlineBranch at h
    exact (run_throw_ok.mp h).elim

theorem dynamicVar_outcome (label : String) (span : Span) (hash : Hash Template.Expr)
    (callee : Template.Expr) (params : List Template.Expr) {p q : Progress} {value : Expr}
    (hat : At o env p) (h : (dynamicVar o label span hash params).run p = .ok value q) :
    Outcome o
      (fun F => ResolvesKeyword o F env .getDynamicVar span ⟨callee, params, hash⟩ value) []
      p q := by
  match params with
  | [name] =>
    unfold dynamicVar at h
    simp only [run_bind_ok, run_pure_ok] at h
    obtain ⟨_, _, hnamed, name', _, hname, rfl, rfl⟩ := h
    obtain ⟨rfl, htakes⟩ := checkNamed_ok hnamed
    exact (expr_outcome .argument name hat hname).imp fun F hF => .getDynamicVar htakes hF
  | [] | _ :: _ :: _ =>
    unfold dynamicVar at h
    exact (run_throw_ok.mp h).elim

/-- The call of a keyword: what it takes is checked before its arguments. -/
theorem keywordCall_outcome (k : CallKeyword) (label : String) (span : Span)
    (call : Call Template.Expr) {p q : Progress} {value : Expr} (hat : At o env p)
    (h : (keywordCall o k label span call).run p = .ok value q) :
    Outcome o (fun F => ResolvesKeyword o F env k span call value) [] p q := by
  match call with
  | ⟨callee, params, ⟨pairs, hashSpan⟩⟩ =>
    unfold keywordCall at h
    cases k with
    | branch negated => exact inlineBranch_outcome negated label span _ callee params hat h
    | hasBlock =>
      simp only [run_bind_ok, run_ite_ok, run_throw_ok, run_pure_ok, false_and, exists_false,
        and_false, false_or] at h
      obtain ⟨hcount, _, _, hnamed, slot, _, hslot, rfl, rfl⟩ := h
      obtain ⟨rfl, htakes⟩ := checkNamed_ok hnamed
      exact (askedBlock_outcome hat hslot).imp fun F hF => .hasBlock htakes (by omega) hF
    | hasBlockParams =>
      simp only [run_bind_ok, run_ite_ok, run_throw_ok, run_pure_ok, false_and, exists_false,
        and_false, false_or] at h
      obtain ⟨hcount, _, _, hnamed, slot, _, hslot, rfl, rfl⟩ := h
      obtain ⟨rfl, htakes⟩ := checkNamed_ok hnamed
      exact (askedBlock_outcome hat hslot).imp fun F hF => .hasBlockParams htakes (by omega) hF
    | curry kind =>
      simp only [run_bind_ok, run_pure_ok] at h
      obtain ⟨value, _, hvalue, named, _, hpairs, rfl, rfl⟩ := h
      -- The first argument is what is curried, and there is at least one.
      obtain ⟨definition, rest, rfl, h₁⟩ := definitionOf_outcome label span params hat hvalue
      have h₂ := namedArguments_outcome pairs (h₁.at hat) hpairs
      exact (h₁.seq h₂).imp fun F hF => .curry hF.1.1 hF.1.2 hF.2
    | log =>
      simp only [run_bind_ok, run_pure_ok] at h
      obtain ⟨_, _, hnamed, positional, _, hparams, rfl, rfl⟩ := h
      obtain ⟨rfl, htakes⟩ := checkNamed_ok hnamed
      exact (arguments_outcome params hat hparams).imp fun F hF => .log htakes hF
    | getDynamicVar => exact dynamicVar_outcome label span _ callee params hat h

end

theorem dynamicCall_outcome {label : String} {span : Span} {call : Call Template.Expr}
    {p q : Progress} {value : Expr × Args Expr} (hat : At o env p)
    (h : (dynamicCall o label span call).run p = .ok value q) :
    Outcome o (fun F => ResolvesDynamic o F env span call value.1 value.2) [] p q := by
  obtain ⟨callee, params, hash⟩ := call
  simp only [dynamicCall, run_bind_ok, run_pure_ok] at h
  obtain ⟨value, _, hvalue, named, _, hpairs, rfl, rfl⟩ := h
  obtain ⟨definition, rest, rfl, h₁⟩ := definitionOf_outcome label span params hat hvalue
  have h₂ := namedArguments_outcome hash.pairs (h₁.at hat) hpairs
  exact (h₁.seq h₂).imp fun F hF => .mk hF.1.1 hF.1.2 hF.2

theorem optionalNamed_outcome {key : String} {hash : Hash Template.Expr} {p q : Progress}
    {value : Option Expr} (hat : At o env p)
    (h : (optionalNamed o key hash).run p = .ok value q) :
    Outcome o (fun F => ResolvesOptional o F env key hash value) [] p q := by
  rw [optionalNamed] at h
  split at h
  · rename_i hget
    obtain ⟨rfl, rfl⟩ := run_pure_ok.mp h
    exact Outcome.rfl hat fun F => .none hget
  · rename_i pair hget
    simp only [run_bind_ok, run_pure_ok] at h
    obtain ⟨value, _, hvalue, rfl, rfl⟩ := h
    exact (expr_outcome .argument pair.value hat hvalue).imp fun F hF => .some hget hF

/-! ### Attributes and modifiers -/

/-- A step made for each member of a list. -/
theorem mapM_outcome {α β : Type} {f : α → Walk β} {R : Symbols → α → β → Prop}
    (hf : ∀ {a : α} {b : β} {p q : Progress}, At o env p → (f a).run p = .ok b q →
      Outcome o (fun F => R F a b) [] p q) (l : List α) {p q : Progress} {bs : List β}
    (hat : At o env p) (h : (l.mapM f).run p = .ok bs q) :
    Outcome o (fun F => List.Forall₂ (R F) l bs) [] p q := by
  induction l generalizing p bs with
  | nil =>
    rw [List.mapM_nil] at h
    obtain ⟨rfl, rfl⟩ := run_pure_ok.mp h
    exact Outcome.rfl hat fun F => .nil
  | cons a l ih =>
    simp only [List.mapM_cons, run_bind_ok, run_pure_ok] at h
    obtain ⟨b, r, hb, bs, _, hbs, rfl, rfl⟩ := h
    have h₁ := hf hat hb
    have h₂ := ih (h₁.at hat) hbs
    exact (h₁.seq h₂).imp fun F hF => .cons hF.1 hF.2

theorem attrMustache_outcome {tag : MustacheTag} {p q : Progress} {value : Expr}
    (hat : At o env p) (h : (attrMustache o tag).run p = .ok value q) :
    Outcome o (fun F => ResolvesAttrTag o F env tag value) [] p q := by
  obtain ⟨k, r, hk, h⟩ := run_bind_ok.mp h
  obtain ⟨rfl, hkeyword⟩ := callKeyword?_ok hat hk
  cases k with
  | some k => exact (keywordCall_outcome k _ tag.span tag.call hat h).imp fun F hF =>
      .keyword hkeyword hF
  | none =>
    simp only [run_ite_ok] at h
    rcases h with ⟨hbare, h⟩ | ⟨-, h⟩
    · rw [Bool.and_eq_true, List.isEmpty_iff, List.isEmpty_iff] at hbare
      exact (expr_outcome _ tag.call.callee hat h).imp fun F hF => .bare hkeyword hbare.1 hbare.2 hF
    · exact (callOf_outcome _ tag.span tag.call hat h).imp fun F hF => .call hkeyword hF

theorem concatPart_outcome {part : ConcatPart} {p q : Progress} {value : Expr}
    (hat : At o env p) (h : (concatPart o part).run p = .ok value q) :
    Outcome o (fun F => ResolvesPart o F env part value) [] p q := by
  cases part with
  | text node =>
    obtain ⟨rfl, rfl⟩ := run_pure_ok.mp h
    exact Outcome.rfl hat fun F => .text
  | mustache tag => exact (attrMustache_outcome hat h).imp fun F hF => .mustache hF

theorem attrValue_outcome {attr : AttrValue} {p q : Progress} {value : Expr}
    (hat : At o env p) (h : (attrValue o attr).run p = .ok value q) :
    Outcome o (fun F => ResolvesAttrValue o F env attr value) [] p q := by
  cases attr with
  | text node =>
    obtain ⟨rfl, rfl⟩ := run_pure_ok.mp h
    exact Outcome.rfl hat fun F => .text
  | mustache tag => exact (attrMustache_outcome hat h).imp fun F hF => .mustache hF
  | concat parts span =>
    simp only [attrValue, run_bind_ok, run_pure_ok] at h
    obtain ⟨es, _, hparts, rfl, rfl⟩ := h
    exact (mapM_outcome concatPart_outcome parts hat hparts).imp fun F hF => .concat hF

theorem elementAttr_outcome {attr : Template.Attr} {p q : Progress} {a : Attr}
    (hat : At o env p) (h : (elementAttr o attr).run p = .ok a q) :
    Outcome o (fun F => ResolvesAttr o F env attr a) [] p q := by
  simp only [elementAttr, run_ite_ok, run_bind_ok, run_pure_ok] at h
  rcases h with ⟨hname, slot, _, hslot, rfl, rfl⟩ | ⟨hname, value, _, hvalue, rfl, rfl⟩
  · exact (namedBlock_outcome hat hslot).imp fun F hF => .splat hname hF
  · exact (attrValue_outcome hat hvalue).imp fun F hF => .attr (by simpa using hname) hF

theorem componentAttrs_outcome (attributes : List Template.Attr) {p q : Progress}
    {value : List Attr × List (Named Expr)} (hat : At o env p)
    (h : (componentAttrs o attributes).run p = .ok value q) :
    Outcome o (fun F => ResolvesAttrs o F env attributes value.1 value.2) [] p q := by
  induction attributes generalizing p value with
  | nil =>
    obtain ⟨rfl, rfl⟩ := run_pure_ok.mp h
    exact Outcome.rfl hat fun F => .nil
  | cons attr rest ih =>
    simp only [componentAttrs, run_ite_ok, run_bind_ok, run_pure_ok] at h
    rcases h with ⟨hname, e, _, he, more, _, hmore, rfl, rfl⟩ |
      ⟨hname, a, _, ha, more, _, hmore, rfl, rfl⟩
    · have h₁ := attrValue_outcome hat he
      have h₂ := ih (h₁.at hat) hmore
      exact (h₁.seq h₂).imp fun F hF => .argument hname hF.1 hF.2
    · have h₁ := elementAttr_outcome hat ha
      have h₂ := ih (h₁.at hat) hmore
      exact (h₁.seq h₂).imp fun F hF => .attr (by simpa using hname) hF.1 hF.2

theorem modifierOf_outcome {m : Template.Modifier} {p q : Progress} {m' : Modifier}
    (hat : At o env p) (h : (modifierOf o m).run p = .ok m' q) :
    Outcome o (fun F => ResolvesModifier o F env m m') [] p q := by
  simp only [modifierOf, run_bind_ok, run_pure_ok] at h
  obtain ⟨callee, _, hcallee, positional, _, hparams, named, _, hpairs, rfl, rfl⟩ := h
  have h₁ := expr_outcome .modifier m.call.callee hat hcallee
  have h₂ := arguments_outcome m.call.params (h₁.at hat) hparams
  have h₃ := namedArguments_outcome m.call.hash.pairs (h₂.at (h₁.at hat)) hpairs
  exact ((h₁.seq h₂).seq h₃).imp fun F hF => .mk hF.1.1 hF.1.2 hF.2

end

end TemplateCompiler.Resolved
