/-
Where the walk that resolves names finds fault.

* `Walk.Lies` — whatever came before, a step of the walk does not fail or finds a
  fault that lies in a text;
* `expr_lies`, `keywordCall_lies`, `blockForm_lies`, … — so do the steps for what
  lies in the text;
* `statements_lies` — so does the walk over the statements of a template.
-/
import TemplateCompiler.Proofs.Template.Faults
import TemplateCompiler.Resolved.Content

namespace TemplateCompiler.Resolved

open Template (Pair Hash Call MustacheTag BlockTag StartTag ConcatPart AttrValue Statement
  callSpans exprSpans pairSpans bodyLies blockLies otherLies)

/-! ### Steps -/

/-- A step of the walk does not fail, or finds a fault that lies in a text. -/
def Walk.Lies {α : Type} (text : List Char) (step : Walk α) : Prop :=
  ∀ p q f, step.run p = .error f q → f.LiesIn text

namespace Walk.Lies

variable {α β : Type} {text : List Char}

theorem pure (a : α) : Walk.Lies text (Pure.pure a) := by
  intro p q f h
  cases h

theorem throw {f : Fault} (hf : f.LiesIn text) : Walk.Lies text (MonadExcept.throw f : Walk α) := by
  intro p q f' h
  cases h
  exact hf

theorem bind {step : Walk α} {next : α → Walk β} (h : Walk.Lies text step)
    (hnext : ∀ a, Walk.Lies text (next a)) : Walk.Lies text (step >>= next) := by
  intro p q f hrun
  simp only [EStateM.run_bind] at hrun
  cases hstep : step.run p with
  | ok a p₁ =>
    rw [hstep] at hrun
    exact hnext a p₁ q f hrun
  | error f₁ p₁ =>
    rw [hstep] at hrun
    cases hrun
    exact h p q f hstep

theorem ite {c : Prop} [Decidable c] {x y : Walk α} (hx : c → Walk.Lies text x)
    (hy : ¬c → Walk.Lies text y) : Walk.Lies text (if c then x else y) := by
  split
  · next hc => exact hx hc
  · next hc => exact hy hc

theorem modifyGet (f : Progress → α × Progress) :
    Walk.Lies text (MonadStateOf.modifyGet f : Walk α) := by
  intro p q fault h
  cases h

theorem onSymbols (f : Symbols → α × Symbols) : Walk.Lies text (Resolved.onSymbols f) :=
  modifyGet _

theorem getSymbols : Walk.Lies text Resolved.getSymbols := by
  intro p q f h
  cases h

theorem mapM {l : List α} {step : α → Walk β} (h : ∀ a ∈ l, Walk.Lies text (step a)) :
    Walk.Lies text (l.mapM step) := by
  induction l with
  | nil => exact pure []
  | cons a rest ih =>
    obtain ⟨hfirst, hrest⟩ := List.forall_mem_cons.mp h
    rw [List.mapM_cons]
    exact hfirst.bind fun b => (ih hrest).bind fun bs => pure (b :: bs)

/-- A step in a scope of its own. -/
theorem inBlock {params : List String} {step : List Nat → Walk α}
    (h : ∀ slots, Walk.Lies text (step slots)) : Walk.Lies text (Resolved.inBlock params step) := by
  rw [Resolved.inBlock]
  exact (onSymbols _).bind fun slots => (h slots).bind fun result =>
    (onSymbols _).bind fun _ => pure result

end Walk.Lies

section

variable {o : Settings} {text : List Char}

/-! ### Names -/

theorem resolveName_lies {site : Site} {simple : Bool} {written name : String} {span : Span}
    (hspan : span.LiesIn text) : Walk.Lies text (resolveName o site simple written name span) := by
  rw [resolveName]
  refine .bind .getSymbols fun symbols => ?_
  split
  · exact .pure _
  refine .ite (fun _ => ?_) fun _ => ?_
  · exact .ite (fun _ => .bind (.onSymbols _) fun _ => .pure _)
      fun _ => .throw (.ofResolution hspan)
  · split
    · exact .bind (.onSymbols _) fun _ => .pure _
    · exact .throw (.ofResolution hspan)

theorem path_lies {site : Site} {p : Template.Path} (hspan : p.span.LiesIn text) :
    Walk.Lies text (path o site p) := by
  rw [path]
  split
  · exact .pure _
  · exact .bind (.onSymbols _) fun _ => .pure _
  · exact .bind (resolveName_lies hspan) fun _ => .pure _

theorem keywordName?_lies (callee : Template.Expr) : Walk.Lies text (keywordName? o callee) := by
  rw [keywordName?]
  refine .bind .getSymbols fun symbols => ?_
  split
  · exact .pure _
  · exact .pure _

theorem checkNamed_lies {label : String} {allowed : List String} {hash : Hash Template.Expr}
    (hhash : SpansLie text (pairSpans hash.pairs)) :
    Walk.Lies text (checkNamed label allowed hash) := by
  rw [checkNamed]
  split
  · exact .pure _
  · next pair hpair =>
    exact .throw (.ofStructure (Mustache.pair_lies hhash (List.mem_of_find?_eq_some hpair)).1)

theorem wrongCount_lies {label : String} {least : Nat} {most : Option Nat} {count : Nat}
    {span : Span} (hspan : span.LiesIn text) :
    (wrongCount label least most count span).LiesIn text :=
  .ofStructure hspan

/-! ### Values -/

theorem expr_span_lies {e : Template.Expr} (h : SpansLie text [e.spanTree]) :
    e.span.LiesIn text := by
  rw [← Template.Expr.spanTree_span]
  exact h.lies

theorem exprSpans_lie_iff {params : List Template.Expr} :
    SpansLie text (exprSpans params) ↔ ∀ e ∈ params, SpansLie text [e.spanTree] := by
  induction params with
  | nil => exact ⟨fun _ e he => (by cases he), fun _ => .nil⟩
  | cons e rest ih => rw [exprSpans, SpansLie.cons_iff, ih, List.forall_mem_cons]

theorem askedBlock_lies {label : String} {params : List Template.Expr}
    (h : SpansLie text (exprSpans params)) : Walk.Lies text (askedBlock label params) := by
  unfold askedBlock
  split
  · exact .onSymbols _
  · exact .onSymbols _
  · rw [exprSpans, SpansLie.cons_iff] at h
    exact .throw (.ofStructure (expr_span_lies h.1))

theorem callKeyword?_lies (callee : Template.Expr) : Walk.Lies text (callKeyword? o callee) := by
  rw [callKeyword?]
  exact (keywordName?_lies callee).bind fun _ => .pure _

mutual

theorem expr_lies (site : Site) (e : Template.Expr) (h : SpansLie text [e.spanTree]) :
    Walk.Lies text (expr o site e) := by
  match e with
  | .literal value span =>
    rw [expr]
    exact .pure _
  | .path p =>
    rw [expr]
    rw [Template.Expr.spanTree] at h
    exact path_lies h.lies
  | .sub call span =>
    rw [expr]
    rw [Template.Expr.spanTree, SpansLie.node_iff] at h
    refine (callKeyword?_lies _).bind fun keyword => ?_
    split
    · exact keywordCall_lies _ _ h.1 call h.2
    · exact callOf_lies _ call h.2

theorem arguments_lies (params : List Template.Expr) (h : SpansLie text (exprSpans params)) :
    Walk.Lies text (arguments o params) := by
  match params with
  | [] =>
    rw [arguments]
    exact .pure _
  | param :: rest =>
    rw [arguments]
    rw [exprSpans, SpansLie.cons_iff] at h
    exact (expr_lies _ param h.1).bind fun _ => (arguments_lies rest h.2).bind fun _ => .pure _

theorem namedArguments_lies (pairs : List (Pair Template.Expr))
    (h : SpansLie text (pairSpans pairs)) : Walk.Lies text (namedArguments o pairs) := by
  match pairs with
  | [] =>
    rw [namedArguments]
    exact .pure _
  | ⟨key, value, span⟩ :: rest =>
    rw [namedArguments]
    rw [pairSpans, SpansLie.cons_iff, SpansLie.node_iff] at h
    exact (expr_lies _ value h.1.2).bind fun _ =>
      (namedArguments_lies rest h.2).bind fun _ => .pure _

theorem callOf_lies (site : Site) {span : Span} (call : Call Template.Expr)
    (h : SpansLie text (callSpans call)) : Walk.Lies text (callOf o site span call) := by
  match call with
  | ⟨callee, params, ⟨pairs, hashSpan⟩⟩ =>
    rw [callOf]
    rw [callSpans, SpansLie.cons_iff, SpansLie.append_iff, SpansLie.node_iff] at h
    obtain ⟨hcallee, hparams, -, hpairs⟩ := h
    exact (expr_lies _ callee hcallee).bind fun _ => (arguments_lies params hparams).bind fun _ =>
      (namedArguments_lies pairs hpairs).bind fun _ => .pure _

theorem definitionOf_lies (label : String) {span : Span} (hspan : span.LiesIn text)
    (params : List Template.Expr) (h : SpansLie text (exprSpans params)) :
    Walk.Lies text (definitionOf o label span params) := by
  match params with
  | [] =>
    rw [definitionOf]
    exact .throw (wrongCount_lies hspan)
  | definition :: params =>
    rw [definitionOf]
    rw [exprSpans, SpansLie.cons_iff] at h
    refine .ite (fun _ => .throw (.ofResolution (expr_span_lies h.1))) fun _ => ?_
    exact (expr_lies _ definition h.1).bind fun _ =>
      (arguments_lies params h.2).bind fun _ => .pure _

theorem inlineBranch_lies (negated : Bool) (label : String) {span : Span}
    (hspan : span.LiesIn text) {hash : Hash Template.Expr}
    (hhash : SpansLie text (pairSpans hash.pairs)) (params : List Template.Expr)
    (h : SpansLie text (exprSpans params)) :
    Walk.Lies text (inlineBranch o negated label span hash params) := by
  match params with
  | [condition, truthy] =>
    rw [inlineBranch]
    simp only [exprSpans_lie_iff, List.forall_mem_cons] at h
    obtain ⟨hcondition, htruthy, -⟩ := h
    exact (checkNamed_lies hhash).bind fun _ => (expr_lies _ condition hcondition).bind fun _ =>
      (expr_lies _ truthy htruthy).bind fun _ => .pure _
  | [condition, truthy, falsy] =>
    rw [inlineBranch]
    simp only [exprSpans_lie_iff, List.forall_mem_cons] at h
    obtain ⟨hcondition, htruthy, hfalsy, -⟩ := h
    exact (checkNamed_lies hhash).bind fun _ => (expr_lies _ condition hcondition).bind fun _ =>
      (expr_lies _ truthy htruthy).bind fun _ => (expr_lies _ falsy hfalsy).bind fun _ => .pure _
  | [] | [_] | _ :: _ :: _ :: _ :: _ =>
    unfold inlineBranch
    exact .throw (wrongCount_lies hspan)

theorem dynamicVar_lies (label : String) {span : Span} (hspan : span.LiesIn text)
    {hash : Hash Template.Expr} (hhash : SpansLie text (pairSpans hash.pairs))
    (params : List Template.Expr) (h : SpansLie text (exprSpans params)) :
    Walk.Lies text (dynamicVar o label span hash params) := by
  match params with
  | [name] =>
    rw [dynamicVar]
    rw [exprSpans, SpansLie.cons_iff] at h
    exact (checkNamed_lies hhash).bind fun _ => (expr_lies _ name h.1).bind fun _ => .pure _
  | [] | _ :: _ :: _ =>
    unfold dynamicVar
    exact .throw (wrongCount_lies hspan)

theorem keywordCall_lies (keyword : CallKeyword) (label : String) {span : Span}
    (hspan : span.LiesIn text) (call : Call Template.Expr)
    (h : SpansLie text (callSpans call)) :
    Walk.Lies text (keywordCall o keyword label span call) := by
  match call with
  | ⟨callee, params, ⟨pairs, hashSpan⟩⟩ =>
    rw [callSpans, SpansLie.cons_iff, SpansLie.append_iff, SpansLie.node_iff] at h
    -- A fault points at the call, at an argument or at a name that is not taken.
    obtain ⟨-, hparams, -, hpairs⟩ := h
    cases keyword with
    | branch negated =>
      rw [keywordCall]
      exact inlineBranch_lies _ _ hspan hpairs params hparams
    | hasBlock =>
      rw [keywordCall]
      refine .ite (fun _ => .throw (wrongCount_lies hspan)) fun _ => ?_
      exact (checkNamed_lies hpairs).bind fun _ => (askedBlock_lies hparams).bind fun _ => .pure _
    | hasBlockParams =>
      rw [keywordCall]
      refine .ite (fun _ => .throw (wrongCount_lies hspan)) fun _ => ?_
      exact (checkNamed_lies hpairs).bind fun _ => (askedBlock_lies hparams).bind fun _ => .pure _
    | curry kind =>
      rw [keywordCall]
      exact (definitionOf_lies _ hspan params hparams).bind fun _ =>
        (namedArguments_lies pairs hpairs).bind fun _ => .pure _
    | log =>
      rw [keywordCall]
      exact (checkNamed_lies hpairs).bind fun _ =>
        (arguments_lies params hparams).bind fun _ => .pure _
    | getDynamicVar =>
      rw [keywordCall]
      exact dynamicVar_lies _ hspan hpairs params hparams

end

/-- The parts of a call lie in the text. -/
theorem callSpans_lie_iff {call : Call Template.Expr} :
    SpansLie text (callSpans call) ↔ SpansLie text [call.callee.spanTree] ∧
      SpansLie text (exprSpans call.params) ∧ call.hash.span.LiesIn text ∧
        SpansLie text (pairSpans call.hash.pairs) := by
  obtain ⟨callee, params, hash⟩ := call
  rw [callSpans, SpansLie.cons_iff, SpansLie.append_iff, SpansLie.node_iff]

theorem dynamicCall_lies {label : String} {span : Span} {call : Call Template.Expr}
    (hspan : span.LiesIn text) (h : SpansLie text (callSpans call)) :
    Walk.Lies text (dynamicCall o label span call) := by
  obtain ⟨-, hparams, -, hpairs⟩ := callSpans_lie_iff.mp h
  rw [dynamicCall]
  exact (definitionOf_lies _ hspan _ hparams).bind fun _ =>
    (namedArguments_lies _ hpairs).bind fun _ => .pure _

/-! ### Attributes -/

theorem attrMustache_lies {tag : MustacheTag} (h : SpansLie text [tag.spanTree]) :
    Walk.Lies text (attrMustache o tag) := by
  obtain ⟨hspan, hcall⟩ := SpansLie.node_iff.mp h
  rw [attrMustache]
  refine (callKeyword?_lies _).bind fun keyword => ?_
  split
  · exact keywordCall_lies _ _ hspan _ hcall
  · refine .ite (fun _ => ?_) fun _ => callOf_lies _ _ hcall
    exact expr_lies _ _ (callSpans_lie_iff.mp hcall).1

theorem attrValue_lies {value : AttrValue} (h : SpansLie text [value.spanTree]) :
    Walk.Lies text (attrValue o value) := by
  cases value with
  | text node => exact .pure _
  | mustache tag => exact attrMustache_lies h
  | concat parts span =>
    obtain ⟨-, hparts⟩ := SpansLie.node_iff.mp h
    rw [attrValue]
    refine Walk.Lies.bind (.mapM fun part hpart => ?_) fun _ => .pure _
    have hlies := SpansLie.iff_forall.mp hparts _ (List.mem_map_of_mem hpart)
    cases part with
    | text node => exact .pure _
    | mustache tag => exact attrMustache_lies hlies

/-! ### Tags among content -/

theorem yieldTarget_lies {hash : Hash Template.Expr} (h : SpansLie text (pairSpans hash.pairs)) :
    Walk.Lies text (yieldTarget hash) := by
  rw [yieldTarget]
  split
  · exact .pure _
  · exact .pure _
  · next pair hpair =>
    exact .throw (.ofStructure (Mustache.pair_lies h (List.mem_of_find?_eq_some hpair)).1)

theorem appendForm_lies {keyword : AppendKeyword} {tag : MustacheTag}
    (h : SpansLie text [tag.spanTree]) : Walk.Lies text (appendForm o keyword tag) := by
  obtain ⟨hspan, hcall⟩ := SpansLie.node_iff.mp h
  obtain ⟨-, hparams, -, hpairs⟩ := callSpans_lie_iff.mp hcall
  cases keyword with
  | yield =>
    rw [appendForm]
    exact (checkNamed_lies hpairs).bind fun _ => (yieldTarget_lies hpairs).bind fun _ =>
      .bind (.onSymbols _) fun _ => (arguments_lies _ hparams).bind fun _ => .pure _
  | partialCall =>
    rw [appendForm]
    refine .ite (fun _ => .throw (.ofResolution hspan)) fun _ => ?_
    simp only
    split
    · next target htarget =>
      rw [htarget, exprSpans, SpansLie.cons_iff] at hparams
      exact (checkNamed_lies hpairs).bind fun _ => (expr_lies _ _ hparams.1).bind fun _ =>
        .bind (.onSymbols _) fun _ => .bind .getSymbols fun _ => .pure _
    · exact .throw (wrongCount_lies hspan)
  | debugger =>
    rw [appendForm]
    refine .ite (fun _ => .throw (wrongCount_lies hspan)) fun _ => ?_
    exact (checkNamed_lies hpairs).bind fun _ => .bind (.onSymbols _) fun _ =>
      .bind .getSymbols fun _ => .pure _
  | component =>
    rw [appendForm]
    exact (dynamicCall_lies hspan hcall).bind fun _ => .pure _
  | value keyword =>
    rw [appendForm]
    exact (keywordCall_lies _ _ hspan _ hcall).bind fun _ => .pure _

theorem appendTag_lies {tag : MustacheTag} (h : SpansLie text [tag.spanTree]) :
    Walk.Lies text (appendTag o tag) := by
  obtain ⟨hspan, hcall⟩ := SpansLie.node_iff.mp h
  rw [appendTag]
  refine (keywordName?_lies _).bind fun keyword => ?_
  split
  · exact appendForm_lies h
  · refine .ite (fun _ => ?_) fun _ => (callOf_lies _ _ hcall).bind fun _ => .pure _
    exact (expr_lies _ _ (callSpans_lie_iff.mp hcall).1).bind fun _ => .pure _

/-! ### Blocks -/

/-- A block that is still to be resolved lies in the text. -/
structure Branch.Lies (text : List Char) (branch : Branch) : Prop where
  span : branch.span.LiesIn text
  resolve : Walk.Lies text branch.resolve

section

variable {program : Branch} {inverse : Option Branch}

theorem otherBlock_lies (hinverse : ∀ branch ∈ inverse, branch.Lies text) :
    Walk.Lies text (otherBlock inverse) := by
  cases inverse with
  | none => exact .pure _
  | some branch => exact (hinverse branch rfl).resolve.bind fun _ => .pure _

theorem namedBranches_lies (hprogram : program.Lies text)
    (hinverse : ∀ branch ∈ inverse, branch.Lies text) :
    Walk.Lies text (namedBranches program inverse) := by
  rw [namedBranches]
  refine hprogram.resolve.bind fun block => ?_
  cases inverse with
  | none => exact .pure _
  | some branch => exact (hinverse branch rfl).resolve.bind fun _ => .pure _

theorem checkNoInverse_lies {label : String} (hinverse : ∀ branch ∈ inverse, branch.Lies text) :
    Walk.Lies text (checkNoInverse label inverse) := by
  cases inverse with
  | none => exact .pure _
  | some branch => exact .throw (.ofStructure (hinverse branch rfl).span)

theorem optionalNamed_lies {key : String} {hash : Hash Template.Expr}
    (h : SpansLie text (pairSpans hash.pairs)) : Walk.Lies text (optionalNamed o key hash) := by
  rw [optionalNamed]
  split
  · exact .pure _
  · next pair hpair =>
    exact (expr_lies _ _ (Mustache.pair_lies h (List.mem_of_find?_eq_some hpair)).2).bind
      fun _ => .pure _

theorem blockForm_lies {keyword : BlockKeyword} {tag : BlockTag}
    (h : SpansLie text [.node tag.span (callSpans tag.call)]) (hprogram : program.Lies text)
    (hinverse : ∀ branch ∈ inverse, branch.Lies text) :
    Walk.Lies text (blockForm o keyword tag program inverse) := by
  obtain ⟨hspan, hcall⟩ := SpansLie.node_iff.mp h
  obtain ⟨-, hparams, -, hpairs⟩ := callSpans_lie_iff.mp hcall
  have hcount : ∀ {label : String} {least : Nat} {most : Option Nat} {count : Nat} {α : Type},
      Walk.Lies text (throw (wrongCount label least most count tag.span) : Walk α) :=
    .throw (wrongCount_lies hspan)
  -- The forms that take one positional argument.
  have hone : ∀ {value : Template.Expr}, tag.call.params = [value] →
      Walk.Lies text (expr o .argument value) := by
    intro value hvalue
    rw [hvalue, exprSpans, SpansLie.cons_iff] at hparams
    exact expr_lies _ _ hparams.1
  cases keyword with
  | branch negated =>
    rw [blockForm]
    split
    · next condition hcondition =>
      exact (checkNamed_lies hpairs).bind fun _ => (hone hcondition).bind fun _ =>
        hprogram.resolve.bind fun _ => (otherBlock_lies hinverse).bind fun _ => .pure _
    · exact hcount
  | each =>
    rw [blockForm]
    split
    · next value hvalue =>
      exact (checkNamed_lies hpairs).bind fun _ => (hone hvalue).bind fun _ =>
        (optionalNamed_lies hpairs).bind fun _ => hprogram.resolve.bind fun _ =>
          (otherBlock_lies hinverse).bind fun _ => .pure _
    · exact hcount
  | withValue =>
    rw [blockForm]
    split
    · next value hvalue =>
      exact (checkNamed_lies hpairs).bind fun _ => (hone hvalue).bind fun _ =>
        hprogram.resolve.bind fun _ => (otherBlock_lies hinverse).bind fun _ => .pure _
    · exact hcount
  | letValues =>
    rw [blockForm]
    refine .ite (fun _ => hcount) fun _ => ?_
    exact (checkNamed_lies hpairs).bind fun _ => (checkNoInverse_lies hinverse).bind fun _ =>
      (arguments_lies _ hparams).bind fun _ => hprogram.resolve.bind fun _ => .pure _
  | inElement =>
    rw [blockForm]
    simp only
    split
    · next pair hpair =>
      exact .throw (.ofStructure (Mustache.pair_lies hpairs (List.mem_of_find?_eq_some hpair)).1)
    split
    · next value hvalue =>
      exact (checkNamed_lies hpairs).bind fun _ => (checkNoInverse_lies hinverse).bind fun _ =>
        .bind (.modifyGet _) fun _ => (hone hvalue).bind fun _ =>
          (optionalNamed_lies hpairs).bind fun _ => hprogram.resolve.bind fun _ => .pure _
    · exact hcount
  | component =>
    rw [blockForm]
    exact (dynamicCall_lies hspan hcall).bind fun _ =>
      (namedBranches_lies hprogram hinverse).bind fun _ => .pure _
  | withDynamicVars =>
    rw [blockForm]
    refine .ite (fun _ => hcount) fun _ => ?_
    refine .ite (fun _ => .throw (.ofStructure hspan)) fun _ => ?_
    exact (checkNoInverse_lies hinverse).bind fun _ => (namedArguments_lies _ hpairs).bind fun _ =>
      hprogram.resolve.bind fun _ => .pure _

theorem blockTag_lies {tag : BlockTag} (h : SpansLie text [.node tag.span (callSpans tag.call)])
    (hprogram : program.Lies text) (hinverse : ∀ branch ∈ inverse, branch.Lies text) :
    Walk.Lies text (blockTag o tag program inverse) := by
  obtain ⟨-, hcall⟩ := SpansLie.node_iff.mp h
  obtain ⟨hcallee, hparams, -, hpairs⟩ := callSpans_lie_iff.mp hcall
  rw [blockTag]
  refine (keywordName?_lies _).bind fun keyword => ?_
  split
  · exact blockForm_lies h hprogram hinverse
  · exact (expr_lies _ _ hcallee).bind fun _ => (arguments_lies _ hparams).bind fun _ =>
      (namedArguments_lies _ hpairs).bind fun _ =>
        (namedBranches_lies hprogram hinverse).bind fun _ => .pure _

end

/-! ### Elements -/

theorem componentName_lies {tag : String} : Walk.Lies text (componentName o tag) := by
  rw [componentName]
  split
  · exact .pure _
  · refine .bind (.modifyGet fun p => (p, p)) fun p => ?_
    split
    · exact .pure _
    · exact .bind (.modifyGet fun p => ((), _)) fun _ => .pure _

theorem elementAttr_lies {attr : Template.Attr} (h : SpansLie text [attr.spanTree]) :
    Walk.Lies text (elementAttr o attr) := by
  obtain ⟨-, hvalue⟩ := SpansLie.node_iff.mp h
  rw [elementAttr]
  refine .ite (fun _ => .bind (.onSymbols _) fun _ => .pure _) fun _ => ?_
  exact (attrValue_lies hvalue).bind fun _ => .pure _

theorem modifierOf_lies {m : Template.Modifier} (h : SpansLie text [m.spanTree]) :
    Walk.Lies text (modifierOf o m) := by
  obtain ⟨-, hcall⟩ := SpansLie.node_iff.mp h
  obtain ⟨hcallee, hparams, -, hpairs⟩ := callSpans_lie_iff.mp hcall
  rw [modifierOf]
  exact (expr_lies _ _ hcallee).bind fun _ => (arguments_lies _ hparams).bind fun _ =>
    (namedArguments_lies _ hpairs).bind fun _ => .pure _

theorem componentAttrs_lies {attrs : List Template.Attr}
    (h : SpansLie text (attrs.map Template.Attr.spanTree)) :
    Walk.Lies text (componentAttrs o attrs) := by
  induction attrs with
  | nil => exact .pure _
  | cons attr rest ih =>
    obtain ⟨hattr, hrest⟩ := SpansLie.cons_iff.mp h
    obtain ⟨-, hvalue⟩ := SpansLie.node_iff.mp hattr
    rw [componentAttrs]
    refine .ite (fun _ => ?_) fun _ => ?_
    · exact (attrValue_lies hvalue).bind fun _ => (ih hrest).bind fun _ => .pure _
    · exact (elementAttr_lies hattr).bind fun _ => (ih hrest).bind fun _ => .pure _

section

variable {tag : StartTag} {span : Span} (hlength : Text.byteLength text ≤ maxOffset)

include hlength

/-- The bracket and the name of a start tag. -/
theorem tagSpan_lies (h : tag.LiesIn text span) : (tagSpan tag span).LiesIn text := by
  obtain ⟨⟨hcut, -, hstop⟩, hname, -⟩ := h
  have hle := Nat.le_trans hstop hlength
  have hstart := hcut.le
  refine ⟨hcut, ?_, Nat.le_trans (Nat.min_le_left _ _) (Nat.le_trans hname hstop)⟩
  show span.start ≤ min (span.start + Text.byteLength tag.name.toList + 1) maxOffset
  omega

theorem isComponent_lies (h : tag.LiesIn text span) : Walk.Lies text (isComponent o tag span) := by
  have htag := tagSpan_lies hlength h
  rw [isComponent]
  refine .bind .getSymbols fun symbols => ?_
  refine .ite (fun _ => .pure _) fun _ => ?_
  refine .ite (fun _ => .throw (.ofResolution htag)) fun _ => ?_
  exact .ite (fun _ => .throw (.ofResolution htag)) fun _ => .pure _

theorem componentCallee_lies (h : tag.LiesIn text span) :
    Walk.Lies text (componentCallee o tag span) := by
  rw [componentCallee]
  simp only
  refine .bind .getSymbols fun symbols => ?_
  refine .ite (fun _ => .bind (.onSymbols _) fun _ => .pure _) fun _ => ?_
  refine .ite (fun _ => .pure _) fun _ => ?_
  refine .ite (fun _ => (resolveName_lies (tagSpan_lies hlength h)).bind fun _ => .pure _)
    fun _ => ?_
  exact componentName_lies.bind fun _ => .bind (.onSymbols _) fun _ => .pure _

theorem component_lies {blocks : Walk (List (NamedBlock Content))} (h : tag.LiesIn text span)
    (hblocks : Walk.Lies text blocks) : Walk.Lies text (component o tag span blocks) := by
  obtain ⟨hattributes, hmodifiers, -⟩ := Template.StartTag.spansLie_iff.mp h.parts
  rw [component]
  refine (componentCallee_lies hlength h).bind fun _ => ?_
  refine (componentAttrs_lies hattributes).bind fun _ => ?_
  refine Walk.Lies.bind (.mapM fun m hm => ?_) fun _ => hblocks.bind fun _ => .pure _
  exact modifierOf_lies (SpansLie.iff_forall.mp hmodifiers _ (List.mem_map_of_mem hm))

theorem plainElement_lies {body : Walk (List Content)} (h : tag.LiesIn text span)
    (hbody : Walk.Lies text body) : Walk.Lies text (plainElement o tag span body) := by
  obtain ⟨hattributes, hmodifiers, -⟩ := Template.StartTag.spansLie_iff.mp h.parts
  have hattr : ∀ attr ∈ tag.attributes, SpansLie text [attr.spanTree] := fun attr hattr =>
    SpansLie.iff_forall.mp hattributes _ (List.mem_map_of_mem hattr)
  rw [plainElement]
  simp only
  split
  · next attr hfind =>
    exact .throw (.ofStructure (hattr attr (List.mem_of_find?_eq_some hfind)).lies)
  refine .ite (fun _ => .throw (.ofStructure (tagSpan_lies hlength h))) fun _ => ?_
  refine Walk.Lies.bind (.mapM fun attr hmem => elementAttr_lies (hattr attr hmem)) fun _ => ?_
  refine Walk.Lies.bind (.mapM fun m hm => ?_) fun _ => hbody.bind fun _ => .pure _
  exact modifierOf_lies (SpansLie.iff_forall.mp hmodifiers _ (List.mem_map_of_mem hm))

theorem namedBlockName_lies {seen : List String} (h : tag.LiesIn text span) :
    Walk.Lies text (namedBlockName seen tag span) := by
  have htag := tagSpan_lies hlength h
  rw [namedBlockName]
  refine .ite (fun _ => .throw (.ofStructure htag)) fun _ => ?_
  refine .ite (fun _ => .throw (.ofStructure htag)) fun _ => ?_
  exact .ite (fun _ => .throw (.ofStructure htag)) fun _ => .pure _

end

/-! ### Statements -/

theorem statement_span_lies {s : Statement} (h : s.Lies text) : s.span.LiesIn text := by
  cases s <;> rw [Statement.Lies] at h
  case mustache => exact h.lies
  case block => exact h.1.lies
  case partialCall => exact h.lies
  case element => exact h.1.lies
  all_goals exact h

mutual

theorem statement_lies (hlength : Text.byteLength text ≤ maxOffset) (s : Statement)
    (h : s.Lies text) : Walk.Lies text (statement o s) := by
  match s with
  | .text node =>
    rw [statement]
    exact .pure _
  | .comment c =>
    rw [statement]
    exact .pure _
  | .mustacheComment c =>
    rw [statement]
    exact .pure _
  | .partialCall tag =>
    rw [statement]
    exact .throw (.ofStructure (statement_span_lies h))
  | .mustache tag =>
    rw [statement]
    rw [Statement.Lies] at h
    exact appendTag_lies h
  | .block tag program none =>
    rw [statement]
    rw [Statement.Lies] at h
    refine blockTag_lies h.1 (block_lies hlength program h.2.1) fun branch hbranch => ?_
    cases hbranch
  | .block tag program (some inverse) =>
    rw [statement]
    rw [Statement.Lies] at h
    refine blockTag_lies h.1 (block_lies hlength program h.2.1) fun branch hbranch => ?_
    cases hbranch
    exact block_lies hlength inverse h.2.2
  | .element tag children span =>
    rw [statement]
    rw [Statement.Lies] at h
    obtain ⟨htag, hchildren⟩ := h
    -- Faults of an element point at its tag.
    have hspan := tagSpan_lies hlength htag
    refine .ite (fun _ => .throw (.ofStructure hspan)) fun _ => ?_
    refine (isComponent_lies hlength htag).bind fun invoked => ?_
    refine .ite (fun _ => component_lies hlength htag ?_) fun _ => ?_
    · refine .ite (fun _ => ?_) fun _ => ?_
      · exact .ite (fun _ => namedBlocks_lies hlength _ _ children hchildren)
          fun _ => .throw (.ofStructure hspan)
      · refine .ite (fun _ => .pure _) fun _ => ?_
        exact Walk.Lies.bind (.inBlock fun _ => (statements_lies hlength children hchildren).bind
          fun _ => .pure _) fun _ => .pure _
    · exact plainElement_lies hlength htag (statements_lies hlength children hchildren)

theorem statements_lies (hlength : Text.byteLength text ≤ maxOffset) (ss : List Statement)
    (h : bodyLies text ss) : Walk.Lies text (statements o ss) := by
  match ss with
  | [] =>
    rw [statements]
    exact .pure _
  | s :: rest =>
    rw [statements]
    rw [bodyLies] at h
    exact (statement_lies hlength s h.1).bind fun _ =>
      (statements_lies hlength rest h.2).bind fun _ => .pure _

theorem block_lies (hlength : Text.byteLength text ≤ maxOffset) (t : Template.Block Statement)
    (h : blockLies text t) : Branch.Lies text ⟨t.span, block o t⟩ := by
  match t with
  | ⟨body, params, chained, span⟩ =>
    rw [blockLies] at h
    refine ⟨h.1, ?_⟩
    rw [block]
    exact .inBlock fun _ => (statements_lies hlength body h.2).bind fun _ => .pure _

theorem namedBlocks_lies (hlength : Text.byteLength text ≤ maxOffset) (component : String)
    (seen : List String) (ss : List Statement) (h : bodyLies text ss) :
    Walk.Lies text (namedBlocks o component seen ss) := by
  match ss with
  | [] =>
    rw [namedBlocks]
    exact .pure _
  | .element tag children span :: rest =>
    rw [namedBlocks]
    rw [bodyLies, Statement.Lies] at h
    obtain ⟨⟨htag, hchildren⟩, hrest⟩ := h
    refine .ite (fun _ => ?_) fun _ => .throw (.ofStructure htag.lies)
    refine (namedBlockName_lies hlength htag).bind fun name => ?_
    refine Walk.Lies.bind (.inBlock fun _ => (statements_lies hlength children hchildren).bind
      fun _ => .pure _) fun _ => ?_
    exact (namedBlocks_lies hlength component _ rest hrest).bind fun _ => .pure _
  | .text _ :: rest | .comment _ :: rest | .mustacheComment _ :: rest | .mustache _ :: rest
  | .partialCall _ :: rest | .block _ _ _ :: rest =>
    unfold namedBlocks
    rw [bodyLies] at h
    exact .ite (fun _ => namedBlocks_lies hlength component seen rest h.2)
      fun _ => .throw (.ofStructure (statement_span_lies h.1))

end

end

end TemplateCompiler.Resolved
