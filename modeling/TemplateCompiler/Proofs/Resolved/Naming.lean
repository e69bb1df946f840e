/-
Each tag is customized once.

The walk asks for the name of a free tag when it comes to the tag, and remembers it.  What the
walk does is followed for all customizations at once: it comes to the same wherever two of them
give the tags that it asks for the same names.

* `Settings.naming` — settings with a customization;
* `register` — the names of tags with that of one more, unless it is there;
* `Asks` — the tags that a step asks for, in order;
* `expr_asks`, `statement_asks`, … — a value asks for none, and a statement for the free heads of
  the tags in it;
* `resolve_customizes` — the tags of a loose template that are customized are its free heads
  without repetition, and each callee has the name of its tag.
-/
import TemplateCompiler.Proofs.Resolved.Callees
import TemplateCompiler.Proofs.Resolved.Numbering

namespace TemplateCompiler.Resolved

open Template (Path Pair Hash Call MustacheTag BlockTag StartTag ConcatPart AttrValue Statement)

/-- Settings with a customization. -/
def Settings.naming (o : Settings) (customize : String → String) : Settings :=
  { o with customize := some customize }

theorem Settings.naming_self {o : Settings} {f : String → String} (h : o.customize = some f) :
    o.naming f = o := by
  rw [naming, ← h]

theorem Settings.registered_of_customize {o : Settings} {f : String → String}
    (h : o.customize = some f) : o.registered = f := by
  funext tag
  rw [registered, h]

/-! ### The names of tags -/

/-- The names of tags with that of one more, unless it is there. -/
def register (customize : String → String) (names : List (String × String)) (tag : String) :
    List (String × String) :=
  if tag ∈ names.map Prod.fst then names else names ++ [(tag, customize tag)]

theorem lookup_isSome_iff_mem {names : List (String × String)} {tag : String} :
    (names.lookup tag).isSome ↔ tag ∈ names.map Prod.fst := by
  simp [List.lookup_isSome_iff]

/-- Tags are registered as free names are noted. -/
theorem foldl_register (f : String → String) (tags : List String) :
    tags.foldl (register f) [] = tags.eraseDups.map fun tag => (tag, f tag) := by
  rw [← foldl_note]
  -- As with `foldl_note`, the last tag is registered after all tags in front of it.
  induction tags using List.reverseRecOn with
  | nil => rfl
  | append_singleton tags tag ih =>
    rw [List.foldl_append, List.foldl_append, ih]
    generalize tags.foldl note [] = noted
    have hfst : (noted.map fun tag => (tag, f tag)).map Prod.fst = noted := by
      rw [List.map_map]
      exact List.map_id noted
    rw [List.foldl_cons, List.foldl_nil, List.foldl_cons, List.foldl_nil, register, hfst, note]
    split
    · rfl
    · rw [List.map_append]
      rfl

theorem eraseDups_nodup (names : List String) : names.eraseDups.Nodup := by
  rw [← foldl_note]
  -- Each name is noted after those that came before it.
  induction names using List.reverseRecOn with
  | nil => exact List.nodup_nil
  | append_singleton names name ih =>
    rw [List.foldl_append, List.foldl_cons, List.foldl_nil, note]
    split
    · exact ih
    · next hmem =>
      rw [← List.concat_eq_append]
      exact List.Nodup.concat hmem ih

/-! ### Steps that ask for names -/

/-- The names around the place that the walk is at. -/
def Around (around : List String) (p : Progress) : Prop :=
  ∀ name, (p.symbols.lookup? name).isSome = around.contains name

section

variable {α β : Type}

/-- What a step has come to that asked for the names of tags: it comes to the same wherever these
have the same names. -/
structure Asked (tags : List String) (x : (String → String) → Walk α) (f : String → String)
    (p : Progress) (a : α) (q : Progress) : Prop where
  blocks : q.symbols.blocks = p.symbols.blocks
  root : q.symbols.root = p.symbols.root
  names : q.componentNames = tags.foldl (register f) p.componentNames
  answered : ∀ g : String → String, (∀ tag ∈ tags, g tag = f tag) → (x g).run p = .ok a q

/-- A step, where the given names are around it, asks for the names of these tags. -/
structure Asks (around tags : List String) (x : (String → String) → Walk α) : Prop where
  asked : ∀ {f : String → String} {p : Progress} {a : α} {q : Progress}, Around around p →
    (x f).run p = .ok a q → Asked tags x f p a q

variable {around tags tags₁ tags₂ : List String} {x y : (String → String) → Walk α}
  {f : String → String} {p q : Progress} {a : α}

/-- A step leaves the names around it as they were. -/
theorem Asked.place (h : Asked tags x f p a q) (hp : Around around p) : Around around q := by
  intro name
  rw [← hp name, Symbols.lookup?, Symbols.lookup?, Symbols.frames, Symbols.frames, h.blocks, h.root]

theorem Asks.pure (a : α) : Asks around [] fun _ => (Pure.pure a : Walk α) := by
  refine ⟨fun {f p b q} _ h => ?_⟩
  obtain ⟨rfl, rfl⟩ := run_pure_ok.mp h
  exact ⟨rfl, rfl, rfl, fun _ _ => rfl⟩

theorem Asks.throw (fault : Fault) : Asks around tags fun _ => (MonadExcept.throw fault : Walk α) :=
  ⟨fun _ h => (run_throw_ok.mp h).elim⟩

/-- Two steps, one after the other. -/
theorem Asks.bind {k : (String → String) → α → Walk β} (h : Asks around tags₁ x)
    (hk : ∀ a, Asks around tags₂ fun f => k f a) :
    Asks around (tags₁ ++ tags₂) fun f => x f >>= k f := by
  refine ⟨fun {f p b q} hp hrun => ?_⟩
  obtain ⟨a, r, hx, hrun⟩ := run_bind_ok.mp hrun
  have hfirst := h.asked hp hx
  have hsecond := (hk a).asked (hfirst.place hp) hrun
  refine ⟨hsecond.blocks.trans hfirst.blocks, hsecond.root.trans hfirst.root, ?_, fun g hg => ?_⟩
  · rw [List.foldl_append, ← hfirst.names, hsecond.names]
  · obtain ⟨hg₁, hg₂⟩ := List.forall_mem_append.mp hg
    exact run_bind_ok.mpr ⟨a, r, hfirst.answered g hg₁, hsecond.answered g hg₂⟩

/-- A step that asks for nothing comes before another. -/
theorem Asks.then {k : (String → String) → α → Walk β} (h : Asks around [] x)
    (hk : ∀ a, Asks around tags fun f => k f a) : Asks around tags fun f => x f >>= k f :=
  h.bind hk

/-- A step that asks for nothing comes after another. -/
theorem Asks.last {k : (String → String) → α → Walk β} (h : Asks around tags x)
    (hk : ∀ a, Asks around [] fun f => k f a) : Asks around tags fun f => x f >>= k f := by
  have hbind := h.bind hk
  rwa [List.append_nil] at hbind

theorem Asks.ite {c : Prop} [Decidable c] (hx : c → Asks around tags x)
    (hy : ¬c → Asks around tags y) : Asks around tags fun f => if c then x f else y f := by
  by_cases hc : c
  · simp only [if_pos hc]
    exact hx hc
  · simp only [if_neg hc]
    exact hy hc

theorem Asks.throw_bind {fault : Fault} {k : (String → String) → α → Walk β} :
    Asks around tags fun f => (MonadExcept.throw fault : Walk α) >>= k f := by
  refine ⟨fun _ hrun => ?_⟩
  obtain ⟨_, _, hthrow, -⟩ := run_bind_ok.mp hrun
  exact (run_throw_ok.mp hthrow).elim

/-- A check that refuses before a step is taken. -/
theorem Asks.unless {c : Prop} [Decidable c] {fault : Fault} {k : (String → String) → β → Walk α}
    (h : Asks around tags x) :
    Asks around tags fun f => if c then (MonadExcept.throw fault : Walk β) >>= k f else x f :=
  .ite (fun _ => .throw_bind) fun _ => h

/-- A step that changes neither scopes nor names. -/
theorem Asks.onSymbols {step : Symbols → α × Symbols}
    (hstep : ∀ s, (step s).2.blocks = s.blocks ∧ (step s).2.root = s.root) :
    Asks around [] fun _ => Resolved.onSymbols step := by
  refine ⟨fun {f p a q} _ h => ?_⟩
  obtain ⟨rfl, rfl⟩ := run_onSymbols_ok.mp h
  exact ⟨(hstep p.symbols).1, (hstep p.symbols).2, rfl, fun _ _ => rfl⟩

/-- A step that reads which names are bound. -/
theorem Asks.getSymbols {k : (String → String) → Symbols → Walk β}
    (h : ∀ s, (∀ name, (s.lookup? name).isSome = around.contains name) →
      Asks around tags fun f => k f s) :
    Asks around tags fun f => Resolved.getSymbols >>= k f := by
  refine ⟨fun {f p b q} hp hrun => ?_⟩
  obtain ⟨_, _, hget, hrun⟩ := run_bind_ok.mp hrun
  obtain ⟨rfl, rfl⟩ := run_getSymbols_ok.mp hget
  have hasked := (h _ hp).asked hp hrun
  exact ⟨hasked.blocks, hasked.root, hasked.names, fun g hg =>
    run_bind_ok.mpr ⟨_, _, hget, hasked.answered g hg⟩⟩

/-- A step made for each member of a list. -/
theorem Asks.mapM {k : (String → String) → α → Walk β} (h : ∀ a, Asks around [] fun f => k f a)
    (l : List α) : Asks around [] fun f => l.mapM (k f) := by
  induction l with
  | nil => exact Asks.pure []
  | cons a l ih =>
    simp only [List.mapM_cons]
    exact (h a).then fun _ => ih.then fun _ => Asks.pure _

end

/-! ### Names and forms of calls -/

section

variable {around tags : List String}

theorem programSlot_asks (name : String) :
    Asks around [] fun _ => onSymbols (·.programSlot name) :=
  Asks.onSymbols fun s => by
    rw [Symbols.programSlot]
    split <;> exact ⟨rfl, rfl⟩

theorem free_asks (name : String) : Asks around [] fun _ => onSymbols (·.free name) :=
  Asks.onSymbols fun s => by
    rw [Symbols.free]
    split <;> exact ⟨rfl, rfl⟩

theorem useLocal_asks (name : String) : Asks around [] fun _ => onSymbols (·.useLocal name) :=
  Asks.onSymbols fun s => by
    rw [Symbols.useLocal, Symbols.free]
    split <;> exact ⟨rfl, rfl⟩

theorem markEval_asks : Asks around [] fun _ => onSymbols fun s => ((), s.markEval) :=
  Asks.onSymbols fun _ => ⟨rfl, rfl⟩

theorem nextCursor_asks : Asks around [] fun _ => nextCursor := by
  refine ⟨fun {f p a q} _ h => ?_⟩
  obtain ⟨rfl, rfl⟩ := run_modifyGet_ok.mp h
  exact ⟨rfl, rfl, rfl, fun _ _ => rfl⟩

theorem checkNamed_asks (label : String) (allowed : List String) (hash : Hash Template.Expr) :
    Asks around [] fun _ => checkNamed label allowed hash := by
  unfold checkNamed
  split
  · exact Asks.pure ()
  · exact Asks.throw _

theorem askedBlock_asks (label : String) (params : List Template.Expr) :
    Asks around [] fun _ => askedBlock label params := by
  unfold askedBlock
  split
  · exact programSlot_asks _
  · exact programSlot_asks _
  · exact Asks.throw _

theorem yieldTarget_asks (hash : Hash Template.Expr) :
    Asks around [] fun _ => yieldTarget hash := by
  unfold yieldTarget
  split
  · exact Asks.pure _
  · exact Asks.pure _
  · exact Asks.throw _

theorem namedBlockName_asks (seen : List String) (tag : StartTag) (span : Span) :
    Asks around [] fun _ => namedBlockName seen tag span := by
  unfold namedBlockName
  exact .unless (.unless (.unless (.pure _)))

end

/-! ### Values -/

section

variable {o : Settings} {around : List String}

theorem keywordName?_asks (callee : Template.Expr) :
    Asks around [] fun _ => keywordName? o callee :=
  Asks.getSymbols fun s _ => by
    cases callee with
    | path | sub | literal => exact Asks.pure _

theorem callKeyword?_asks (callee : Template.Expr) :
    Asks around [] fun _ => callKeyword? o callee :=
  (keywordName?_asks callee).then fun _ => .pure _

theorem resolveName_asks (site : Site) (simple : Bool) (written name : String) (span : Span) :
    Asks around [] fun _ => resolveName o site simple written name span :=
  Asks.getSymbols fun s _ => by
    cases s.lookup? name with
    | some slot => exact Asks.pure _
    | none =>
      refine .ite (fun _ => .ite (fun _ => (useLocal_asks name).then fun _ => .pure _) fun _ =>
        .throw _) fun _ => ?_
      cases site.resolution? simple with
      | some resolution => exact (free_asks name).then fun _ => .pure _
      | none => exact Asks.throw _

theorem path_asks (site : Site) (p : Path) : Asks around [] fun _ => path o site p := by
  unfold path
  cases p.head with
  | this => exact (Asks.pure _).then fun _ => .pure _
  | «at» name => exact (programSlot_asks _).then fun _ => .pure _
  | var name => exact (resolveName_asks ..).then fun _ => .pure _

mutual

/-- A value is no component. -/
theorem expr_asks (site : Site) (e : Template.Expr) : Asks around [] fun _ => expr o site e := by
  match e with
  | .literal value span =>
    simp only [expr]
    exact .pure _
  | .path path =>
    simp only [expr]
    exact path_asks site path
  | .sub call span =>
    simp only [expr]
    refine (callKeyword?_asks call.callee).then fun keyword => ?_
    cases keyword with
    | some keyword => exact keywordCall_asks keyword _ span call
    | none => exact callOf_asks .sub span call

theorem arguments_asks (params : List Template.Expr) :
    Asks around [] fun _ => arguments o params := by
  match params with
  | [] =>
    simp only [arguments]
    exact .pure _
  | param :: rest =>
    simp only [arguments]
    exact (expr_asks .argument param).then fun _ => (arguments_asks rest).then fun _ => .pure _

theorem namedArguments_asks (pairs : List (Pair Template.Expr)) :
    Asks around [] fun _ => namedArguments o pairs := by
  match pairs with
  | [] =>
    simp only [namedArguments]
    exact .pure _
  | ⟨key, value, span⟩ :: rest =>
    simp only [namedArguments]
    exact (expr_asks .argument value).then fun _ => (namedArguments_asks rest).then fun _ => .pure _

theorem callOf_asks (site : Site) (span : Span) (call : Call Template.Expr) :
    Asks around [] fun _ => callOf o site span call := by
  match call with
  | ⟨callee, params, ⟨pairs, hashSpan⟩⟩ =>
    simp only [callOf]
    exact (expr_asks site callee).then fun _ => (arguments_asks params).then fun _ =>
      (namedArguments_asks pairs).then fun _ => .pure _

theorem definitionOf_asks (label : String) (span : Span) (params : List Template.Expr) :
    Asks around [] fun _ => definitionOf o label span params := by
  match params with
  | [] =>
    simp only [definitionOf]
    exact .throw _
  | definition :: rest =>
    simp only [definitionOf]
    exact .unless ((expr_asks .argument definition).then fun _ =>
      (arguments_asks rest).then fun _ => .pure _)

theorem inlineBranch_asks (negated : Bool) (label : String) (span : Span)
    (hash : Hash Template.Expr) (params : List Template.Expr) :
    Asks around [] fun _ => inlineBranch o negated label span hash params := by
  match params with
  | [condition, truthy] =>
    simp only [inlineBranch]
    exact (checkNamed_asks ..).then fun _ => (expr_asks .argument condition).then fun _ =>
      (expr_asks .argument truthy).then fun _ => .pure _
  | [condition, truthy, falsy] =>
    simp only [inlineBranch]
    exact (checkNamed_asks ..).then fun _ => (expr_asks .argument condition).then fun _ =>
      (expr_asks .argument truthy).then fun _ => (expr_asks .argument falsy).then fun _ => .pure _
  | [] | [_] | _ :: _ :: _ :: _ :: _ =>
    simp only [inlineBranch]
    exact .throw _

theorem dynamicVar_asks (label : String) (span : Span) (hash : Hash Template.Expr)
    (params : List Template.Expr) :
    Asks around [] fun _ => dynamicVar o label span hash params := by
  match params with
  | [name] =>
    simp only [dynamicVar]
    exact (checkNamed_asks ..).then fun _ => (expr_asks .argument name).then fun _ => .pure _
  | [] | _ :: _ :: _ =>
    simp only [dynamicVar]
    exact .throw _

theorem keywordCall_asks (k : CallKeyword) (label : String) (span : Span)
    (call : Call Template.Expr) : Asks around [] fun _ => keywordCall o k label span call := by
  match call with
  | ⟨callee, params, ⟨pairs, hashSpan⟩⟩ =>
    cases k with
    | branch negated =>
      simp only [keywordCall]
      exact inlineBranch_asks negated label span _ params
    | hasBlock | hasBlockParams =>
      simp only [keywordCall]
      exact .unless ((checkNamed_asks ..).then fun _ =>
        (askedBlock_asks ..).then fun _ => .pure _)
    | curry kind =>
      simp only [keywordCall]
      exact (definitionOf_asks label span params).then fun _ =>
        (namedArguments_asks pairs).then fun _ => .pure _
    | log =>
      simp only [keywordCall]
      exact (checkNamed_asks ..).then fun _ => (arguments_asks params).then fun _ => .pure _
    | getDynamicVar =>
      simp only [keywordCall]
      exact dynamicVar_asks label span _ params

end

end

/-! ### Values and customizations -/

section

variable (o : Settings) (f : String → String)

-- No value depends on the customization: with and without it the recursion unfolds to one term.

theorem expr_naming : expr (o.naming f) = expr o := by
  delta expr
  rfl

theorem arguments_naming : arguments (o.naming f) = arguments o := by
  delta arguments
  rfl

theorem namedArguments_naming : namedArguments (o.naming f) = namedArguments o := by
  delta namedArguments
  rfl

theorem callOf_naming : callOf (o.naming f) = callOf o := by
  delta callOf
  rfl

theorem definitionOf_naming : definitionOf (o.naming f) = definitionOf o := by
  delta definitionOf
  rfl

theorem keywordCall_naming : keywordCall (o.naming f) = keywordCall o := by
  delta keywordCall
  rfl

theorem keywordName?_naming : keywordName? (o.naming f) = keywordName? o := rfl

theorem callKeyword?_naming : callKeyword? (o.naming f) = callKeyword? o := rfl

theorem resolveName_naming : resolveName (o.naming f) = resolveName o := rfl

theorem naming_strict : (o.naming f).strict = o.strict := rfl

end

section

variable {o : Settings} {around : List String}

theorem dynamicCall_asks (label : String) (span : Span) (call : Call Template.Expr) :
    Asks around [] fun f => dynamicCall (o.naming f) label span call := by
  simp only [dynamicCall, definitionOf_naming, namedArguments_naming]
  exact (definitionOf_asks ..).then fun _ => (namedArguments_asks _).then fun _ => .pure _

theorem optionalNamed_asks (key : String) (hash : Hash Template.Expr) :
    Asks around [] fun f => optionalNamed (o.naming f) key hash := by
  simp only [optionalNamed, expr_naming]
  cases hash.get? key with
  | none => exact Asks.pure _
  | some pair => exact (expr_asks .argument pair.value).then fun _ => .pure _

/-! ### Attributes and modifiers -/

theorem attrMustache_asks (tag : MustacheTag) :
    Asks around [] fun f => attrMustache (o.naming f) tag := by
  simp only [attrMustache, callKeyword?_naming, keywordCall_naming, expr_naming, callOf_naming]
  refine (callKeyword?_asks tag.call.callee).then fun keyword => ?_
  cases keyword with
  | some keyword => exact keywordCall_asks keyword _ tag.span tag.call
  | none => exact .ite (fun _ => expr_asks _ _) fun _ => callOf_asks ..

theorem concatPart_asks (part : ConcatPart) :
    Asks around [] fun f => concatPart (o.naming f) part := by
  cases part with
  | text node => exact Asks.pure _
  | mustache tag => exact attrMustache_asks tag

theorem attrValue_asks (value : AttrValue) :
    Asks around [] fun f => attrValue (o.naming f) value := by
  cases value with
  | text node => exact Asks.pure _
  | mustache tag => exact attrMustache_asks tag
  | concat parts span => exact (Asks.mapM concatPart_asks parts).then fun _ => .pure _

theorem elementAttr_asks (attr : Template.Attr) :
    Asks around [] fun f => elementAttr (o.naming f) attr := by
  unfold elementAttr
  exact .ite (fun _ => (programSlot_asks _).then fun _ => .pure _) fun _ =>
    (attrValue_asks attr.value).then fun _ => .pure _

theorem modifierOf_asks (m : Template.Modifier) :
    Asks around [] fun f => modifierOf (o.naming f) m := by
  simp only [modifierOf, expr_naming, arguments_naming, namedArguments_naming]
  exact (expr_asks .modifier _).then fun _ => (arguments_asks _).then fun _ =>
    (namedArguments_asks _).then fun _ => .pure _

theorem componentAttrs_asks (attributes : List Template.Attr) :
    Asks around [] fun f => componentAttrs (o.naming f) attributes := by
  induction attributes with
  | nil => exact Asks.pure _
  | cons attr rest ih =>
    simp only [componentAttrs]
    exact .ite (fun _ => (attrValue_asks attr.value).then fun _ => ih.then fun _ => .pure _)
      fun _ => (elementAttr_asks attr).then fun _ => ih.then fun _ => .pure _

/-! ### Tags among content -/

theorem appendForm_asks (k : AppendKeyword) (tag : MustacheTag) :
    Asks around [] fun f => appendForm (o.naming f) k tag := by
  cases k with
  | yield =>
    simp only [appendForm, arguments_naming]
    exact (checkNamed_asks ..).then fun _ => (yieldTarget_asks _).then fun _ =>
      (programSlot_asks _).then fun _ => (arguments_asks _).then fun _ => .pure _
  | partialCall =>
    simp only [appendForm, expr_naming, naming_strict]
    refine .unless ?_
    split
    · exact (checkNamed_asks ..).then fun _ => (expr_asks ..).then fun _ =>
        markEval_asks.then fun _ => .getSymbols fun _ _ => .pure _
    · exact .throw _
  | debugger =>
    simp only [appendForm]
    exact .unless ((checkNamed_asks ..).then fun _ => markEval_asks.then fun _ =>
      .getSymbols fun _ _ => .pure _)
  | component => exact (dynamicCall_asks ..).then fun _ => .pure _
  | value k =>
    simp only [appendForm, keywordCall_naming]
    exact (keywordCall_asks ..).then fun _ => .pure _

theorem appendTag_asks (tag : MustacheTag) :
    Asks around [] fun f => appendTag (o.naming f) tag := by
  simp only [appendTag, keywordName?_naming, expr_naming, callOf_naming]
  refine (keywordName?_asks _).then fun name => ?_
  split
  · exact appendForm_asks ..
  · exact .ite (fun _ => (expr_asks ..).then fun _ => .pure _) fun _ =>
      (callOf_asks ..).then fun _ => .pure _

/-! ### Blocks -/

/-- The other branch of a block, if there is one, asks for the names of tags. -/
inductive OtherAsks (around : List String) :
    List String → ((String → String) → Option Branch) → Prop
  | none : OtherAsks around [] fun _ => none
  | some {tags : List String} (span : Span) {branch : (String → String) → Walk (Block Content)}
    (h : Asks around tags branch) : OtherAsks around tags fun f => some ⟨span, branch f⟩

variable {tags tags₁ tags₂ : List String} {program : (String → String) → Walk (Block Content)}
  {inverse : (String → String) → Option Branch}

theorem otherBlock_asks (h : OtherAsks around tags inverse) :
    Asks around tags fun f => otherBlock (inverse f) := by
  cases h with
  | none => exact Asks.pure _
  | some span h => exact h.last fun _ => .pure _

theorem namedBranches_asks (span : Span) (hprogram : Asks around tags₁ program)
    (hinverse : OtherAsks around tags₂ inverse) :
    Asks around (tags₁ ++ tags₂) fun f => namedBranches ⟨span, program f⟩ (inverse f) := by
  cases hinverse with
  | none =>
    simp only [namedBranches]
    exact hprogram.bind fun _ => .pure _
  | some otherSpan h =>
    simp only [namedBranches]
    exact hprogram.bind fun _ => h.last fun _ => .pure _

/-- A form without another branch. -/
theorem Asks.checkNoInverse {α : Type} {label : String}
    {k : (String → String) → Unit → Walk α} (hinverse : OtherAsks around tags₂ inverse)
    (h : Asks around tags₁ fun f => k f ()) :
    Asks around (tags₁ ++ tags₂) fun f => Resolved.checkNoInverse label (inverse f) >>= k f := by
  cases hinverse with
  | none =>
    rw [List.append_nil]
    exact (Asks.pure ()).then fun _ => h
  | some span hbranch =>
    simp only [Resolved.checkNoInverse]
    exact .throw_bind

/-- A block with a keyword. -/
theorem blockForm_asks (k : BlockKeyword) (tag : BlockTag) (span : Span)
    (hprogram : Asks around tags₁ program) (hinverse : OtherAsks around tags₂ inverse) :
    Asks around (tags₁ ++ tags₂) fun f =>
      blockForm (o.naming f) k tag ⟨span, program f⟩ (inverse f) := by
  -- The branches ask in the order of their text, whatever is made of them.
  have hbranches : ∀ c : Block Content → Option (Block Content) → Content,
      Asks around (tags₁ ++ tags₂) fun f => do
        let block ← program f
        let other ← otherBlock (inverse f)
        return c block other :=
    fun c => hprogram.bind fun _ => (otherBlock_asks hinverse).last fun _ => .pure _
  cases k with
  | branch negated =>
    simp only [blockForm, expr_naming]
    split
    · exact (checkNamed_asks ..).then fun _ => (expr_asks ..).then fun _ => hbranches _
    · exact .throw _
  | each =>
    simp only [blockForm, expr_naming]
    split
    · exact (checkNamed_asks ..).then fun _ => (expr_asks ..).then fun _ =>
        (optionalNamed_asks ..).then fun _ => hbranches _
    · exact .throw _
  | withValue =>
    simp only [blockForm, expr_naming]
    split
    · exact (checkNamed_asks ..).then fun _ => (expr_asks ..).then fun _ => hbranches _
    · exact .throw _
  | letValues =>
    simp only [blockForm, arguments_naming]
    exact .unless ((checkNamed_asks ..).then fun _ => .checkNoInverse hinverse
      ((arguments_asks _).then fun _ => hprogram.last fun _ => .pure _))
  | inElement =>
    simp only [blockForm, expr_naming]
    split
    · exact .throw_bind
    split
    · exact (checkNamed_asks ..).then fun _ => .checkNoInverse hinverse
        (nextCursor_asks.then fun _ => (expr_asks ..).then fun _ =>
          (optionalNamed_asks ..).then fun _ => hprogram.last fun _ => .pure _)
    · exact .throw _
  | component =>
    exact (dynamicCall_asks ..).then fun _ =>
      (namedBranches_asks span hprogram hinverse).last fun _ => .pure _
  | withDynamicVars =>
    simp only [blockForm, namedArguments_naming]
    exact .unless (.unless (.checkNoInverse hinverse
      ((namedArguments_asks _).then fun _ => hprogram.last fun _ => .pure _)))

theorem blockTag_asks (tag : BlockTag) (span : Span) (hprogram : Asks around tags₁ program)
    (hinverse : OtherAsks around tags₂ inverse) :
    Asks around (tags₁ ++ tags₂) fun f =>
      blockTag (o.naming f) tag ⟨span, program f⟩ (inverse f) := by
  simp only [blockTag, keywordName?_naming, expr_naming, arguments_naming, namedArguments_naming]
  refine (keywordName?_asks _).then fun name => ?_
  split
  · exact blockForm_asks _ tag span hprogram hinverse
  · exact (expr_asks ..).then fun _ => (arguments_asks _).then fun _ =>
      (namedArguments_asks _).then fun _ =>
        (namedBranches_asks span hprogram hinverse).last fun _ => .pure _

end

/-! ### Elements -/

section

variable {o : Settings} {around tags : List String}

/-- A free tag is asked for, unless its name is remembered. -/
theorem componentName_asks (tag : String) :
    Asks around [tag] fun f => componentName (o.naming f) tag := by
  refine ⟨fun {f p name q} _ h => ?_⟩
  simp only [componentName, Settings.naming] at h
  obtain ⟨_, _, hget, h⟩ := run_bind_ok.mp h
  obtain ⟨rfl, rfl⟩ := run_get_ok.mp hget
  cases hlookup : p.componentNames.lookup tag with
  | some found =>
    rw [hlookup] at h
    obtain ⟨rfl, rfl⟩ := run_pure_ok.mp h
    -- A name that is remembered is not asked for again.
    have hmem : tag ∈ p.componentNames.map Prod.fst := by
      rw [← lookup_isSome_iff_mem, hlookup]
      rfl
    refine ⟨rfl, rfl, ?_, fun g _ => run_bind_ok.mpr ⟨p, p, rfl, ?_⟩⟩
    · rw [List.foldl_cons, List.foldl_nil, register, if_pos hmem]
    · rw [hlookup]
      rfl
  | none =>
    rw [hlookup] at h
    obtain ⟨_, _, hset, h⟩ := run_bind_ok.mp h
    obtain ⟨rfl, rfl⟩ := run_pure_ok.mp h
    obtain rfl := run_set_ok.mp hset
    have hmem : tag ∉ p.componentNames.map Prod.fst := by
      rw [← lookup_isSome_iff_mem, hlookup]
      exact Bool.false_ne_true
    refine ⟨rfl, rfl, ?_, fun g hg => run_bind_ok.mpr ⟨p, p, rfl, ?_⟩⟩
    · rw [List.foldl_cons, List.foldl_nil, register, if_neg hmem]
    · rw [hlookup, hg tag List.mem_cons_self]
      rfl

/-- The callee of a tag is asked for if its head is in no scope. -/
theorem componentCallee_asks (hloose : o.strict = false) (tag : StartTag) (span : Span) :
    Asks around (freeHeads [⟨around, tag, span⟩]) fun f =>
      componentCallee (o.naming f) tag span := by
  simp only [componentCallee, naming_strict, resolveName_naming, hloose, Bool.false_or]
  refine .getSymbols fun s hs => ?_
  rw [hs]
  have hscope : PlacedTag.inScope ⟨around, tag, span⟩
      = (isArgumentName (tagPath tag.name).1 || (tagPath tag.name).1 == "this" ||
        around.contains (tagPath tag.name).1) := rfl
  refine .ite (fun harg => ?_) fun harg => .ite (fun hthis => ?_) fun hthis =>
    .ite (fun hbound => ?_) fun hfree => ?_
  · rw [freeHeads_of_inScope (by rw [hscope, harg, Bool.true_or, Bool.true_or])]
    exact (programSlot_asks _).then fun _ => (Asks.pure _).then fun _ => .pure _
  · rw [freeHeads_of_inScope (by rw [hscope, hthis, Bool.or_true, Bool.true_or])]
    exact (Asks.pure _).then fun _ => .pure _
  · rw [freeHeads_of_inScope (by rw [hscope, hbound, Bool.or_true])]
    exact (resolveName_asks ..).then fun _ => .pure _
  · rw [Bool.not_eq_true] at harg hthis hfree
    rw [freeHeads_of_free (by rw [hscope, harg, hthis, hfree, Bool.or_false, Bool.or_false])]
    exact (componentName_asks _).last fun _ => (free_asks _).then fun _ =>
      (Asks.pure _).then fun _ => .pure _

theorem component_asks (hloose : o.strict = false) (tag : StartTag) (span : Span)
    {blocks : (String → String) → Walk (List (NamedBlock Content))} (h : Asks around tags blocks) :
    Asks around (freeHeads [⟨around, tag, span⟩] ++ tags) fun f =>
      component (o.naming f) tag span (blocks f) := by
  unfold component
  exact (componentCallee_asks hloose tag span).bind fun _ => (componentAttrs_asks _).then fun _ =>
    (Asks.mapM modifierOf_asks _).then fun _ => h.last fun _ => .pure _

theorem plainElement_asks (tag : StartTag) (span : Span)
    {body : (String → String) → Walk (List Content)} (h : Asks around tags body) :
    Asks around tags fun f => plainElement (o.naming f) tag span (body f) := by
  simp only [plainElement]
  split
  · exact .throw_bind
  · exact .unless ((Asks.mapM elementAttr_asks _).then fun _ =>
      (Asks.mapM modifierOf_asks _).then fun _ => h.last fun _ => .pure _)

/-- Whether a tag invokes a component is known from the names around it. -/
theorem isComponent_around {f : String → String} {tag : StartTag} {span : Span} {p q : Progress}
    {b : Bool} (hloose : o.strict = false) (hp : Around around p)
    (h : (isComponent (o.naming f) tag span).run p = .ok b q) :
    p = q ∧ invokesIn o around tag = b := by
  simp only [isComponent, tagInScope, isBound, naming_strict, hloose, Bool.false_and,
    Bool.or_false, run_bind_ok, run_getSymbols_ok, run_ite_ok, run_throw_ok, run_pure_ok,
    false_and, exists_false, and_false, false_or] at h
  obtain ⟨_, _, ⟨rfl, rfl⟩, h⟩ := h
  rw [hp] at h
  rw [invokesIn, Settings.bindsIn, hloose, Bool.false_and, Bool.or_false]
  rcases h with ⟨hin, rfl, rfl⟩ | ⟨hout, -, -, rfl, rfl⟩
  · exact ⟨rfl, by simp only [hin, Bool.true_or]⟩
  · exact ⟨rfl, by simp only [Bool.eq_false_iff.mpr hout, Bool.false_or]⟩

/-- A step that is told whether a tag invokes a component. -/
theorem Asks.isComponent {α : Type} {tag : StartTag} {span : Span}
    {k : (String → String) → Bool → Walk α} (hloose : o.strict = false)
    (h : Asks around tags fun f => k f (invokesIn o around tag)) :
    Asks around tags fun f => Resolved.isComponent (o.naming f) tag span >>= k f := by
  refine ⟨fun {f p a q} hp hrun => ?_⟩
  obtain ⟨b, r, hb, hrun⟩ := run_bind_ok.mp hrun
  obtain ⟨rfl, rfl⟩ := isComponent_around hloose hp hb
  have hasked := h.asked hp hrun
  exact ⟨hasked.blocks, hasked.root, hasked.names, fun g hg =>
    run_bind_ok.mpr ⟨_, p, hb, hasked.answered g hg⟩⟩

/-! ### Statements -/

/-- Inside a block its parameters are around a place. -/
theorem Around.openBlock {params : List String} {slots : List Nat} {p : Progress} {s : Symbols}
    (hp : Around around p) (hopen : Symbols.Opened p.symbols params slots s) :
    Around (params ++ around) { p with symbols := s } := by
  intro name
  have hfind := Scopes.find?_isSome [params.zip slots] name
  rw [Scopes.declared_cons [] hopen.length, Scopes.find?, List.findSome?_singleton,
    Scopes.declared, List.flatten_nil, List.map_nil, List.append_nil] at hfind
  rw [hopen.lookup, Option.isSome_or, hfind, hp, List.contains_append]

/-- A step in the scope of a block. -/
theorem Asks.inBlock {α : Type} {params : List String}
    {step : (String → String) → List Nat → Walk α}
    (h : ∀ slots, Asks (params ++ around) tags fun f => step f slots) :
    Asks around tags fun f => Resolved.inBlock params (step f) := by
  refine ⟨fun {f p a q} hp hrun => ?_⟩
  simp only [Resolved.inBlock, run_bind_ok, run_onSymbols_ok, run_pure_ok] at hrun
  obtain ⟨slots, _, ⟨hslots, rfl⟩, _, r, hstep, _, _, ⟨-, rfl⟩, rfl, rfl⟩ := hrun
  generalize hs : (p.symbols.openBlock params).2 = s at hstep
  have hopen : Symbols.Opened p.symbols params slots s :=
    Symbols.openBlock_opened (Prod.ext hslots hs)
  have hasked := (h slots).asked (hp.openBlock hopen) hstep
  refine ⟨?_, hasked.root.trans hopen.root, hasked.names, fun g hg => ?_⟩
  · rw [← hopen.closed, ← hasked.blocks]
    rfl
  · simp only [Resolved.inBlock, run_bind_ok, run_onSymbols_ok, run_pure_ok]
    exact ⟨slots, _, ⟨hslots, rfl⟩, _, r, hs ▸ hasked.answered g hg, (), _, ⟨trivial, rfl⟩,
      rfl, rfl⟩

end

section

variable {o : Settings}

mutual

/-- A statement asks for the free heads of the tags in it. -/
theorem statement_asks (hloose : o.strict = false) (s : Statement) {around : List String}
    (hcloses : ∀ x ∈ placed o around s, ClosesAlone x.2) :
    Asks around (freeTags o (placed o around s)) fun f => statement (o.naming f) s := by
  match s with
  | .text _ | .comment _ | .mustacheComment _ =>
    simp only [statement, placed]
    exact .pure _
  | .partialCall tag =>
    simp only [statement]
    exact .throw _
  | .mustache tag =>
    simp only [statement, placed]
    exact appendTag_asks tag
  | .block tag program none =>
    simp only [statement]
    rw [placed] at hcloses ⊢
    obtain ⟨-, hinside⟩ := List.forall_mem_cons.mp hcloses
    obtain ⟨hprogram, -⟩ := List.forall_mem_append.mp hinside
    rw [freeTags_cons rfl, freeTags_append, otherPlaced]
    exact blockTag_asks tag _ (block_asks hloose program hprogram) .none
  | .block tag program (some inverse) =>
    simp only [statement]
    rw [placed] at hcloses ⊢
    obtain ⟨-, hinside⟩ := List.forall_mem_cons.mp hcloses
    obtain ⟨hprogram, hinverse⟩ := List.forall_mem_append.mp hinside
    rw [otherPlaced] at hinverse
    rw [freeTags_cons rfl, freeTags_append, otherPlaced]
    exact blockTag_asks tag _ (block_asks hloose program hprogram)
      (.some _ (block_asks hloose inverse hinverse))
  | .element tag children span =>
    simp only [statement]
    refine .ite (fun _ => .throw_bind) fun hname => .isComponent hloose ?_
    rw [Bool.not_eq_true] at hname
    rw [placed, childrenNames, hname, Bool.false_or] at hcloses ⊢
    obtain ⟨hself, hchildren⟩ := List.forall_mem_cons.mp hcloses
    cases hinvokes : invokesIn o around tag with
    | false =>
      rw [hinvokes, if_neg Bool.false_ne_true] at hchildren
      rw [if_neg Bool.false_ne_true, freeTags_cons (by simp [componentTag?, hinvokes])]
      exact plainElement_asks tag span (statements_asks hloose children hchildren)
    | true =>
      rw [hinvokes, if_pos rfl] at hchildren
      rw [if_pos rfl, freeTags, componentTags_component hname hinvokes, ← List.singleton_append,
        freeHeads_append]
      refine component_asks hloose tag span (.ite (fun _ => .ite (fun hparams => ?_) fun _ =>
        .throw _) fun _ => .ite (fun hclosing => ?_) fun _ => ?_)
      · -- A component that is given named blocks declares nothing itself.
        rw [List.isEmpty_iff.mp hparams, List.nil_append] at hchildren ⊢
        exact namedBlocks_asks hloose tag.name [] children hchildren
      · obtain rfl := hself hclosing
        rw [placedWithin]
        exact .pure _
      · exact (Asks.inBlock fun _ => (statements_asks hloose children hchildren).last fun _ =>
          .pure _).last fun _ => .pure _

theorem statements_asks (hloose : o.strict = false) (ss : List Statement) {around : List String}
    (hcloses : ∀ x ∈ placedWithin o around ss, ClosesAlone x.2) :
    Asks around (freeTags o (placedWithin o around ss)) fun f => statements (o.naming f) ss := by
  match ss with
  | [] =>
    simp only [statements, placedWithin]
    exact .pure _
  | s :: rest =>
    simp only [statements]
    rw [placedWithin] at hcloses ⊢
    obtain ⟨hfirst, hrest⟩ := List.forall_mem_append.mp hcloses
    rw [freeTags_append]
    exact (statement_asks hloose s hfirst).bind fun _ =>
      (statements_asks hloose rest hrest).last fun _ => .pure _

theorem block_asks (hloose : o.strict = false) (t : Template.Block Statement)
    {around : List String} (hcloses : ∀ x ∈ blockPlaced o around t, ClosesAlone x.2) :
    Asks around (freeTags o (blockPlaced o around t)) fun f => block (o.naming f) t := by
  match t with
  | ⟨body, params, chained, span⟩ =>
    simp only [block]
    rw [blockPlaced] at hcloses ⊢
    exact .inBlock fun _ => (statements_asks hloose body hcloses).last fun _ => .pure _

theorem namedBlocks_asks (hloose : o.strict = false) (component : String) (seen : List String)
    (ss : List Statement) {around : List String}
    (hcloses : ∀ x ∈ placedWithin o around ss, ClosesAlone x.2) :
    Asks around (freeTags o (placedWithin o around ss)) fun f =>
      namedBlocks (o.naming f) component seen ss := by
  match ss with
  | [] =>
    simp only [namedBlocks, placedWithin]
    exact .pure _
  | .element tag children span :: rest =>
    simp only [namedBlocks]
    refine .ite (fun htag => ?_) fun _ => .throw _
    -- The tag of a named block is no head that could be free; its children may have some.
    rw [placedWithin, placed, childrenNames, htag, Bool.true_or, if_pos rfl] at hcloses ⊢
    obtain ⟨hfirst, hrest⟩ := List.forall_mem_append.mp hcloses
    obtain ⟨-, hchildren⟩ := List.forall_mem_cons.mp hfirst
    rw [freeTags_append, freeTags_cons (by simp [componentTag?, htag])]
    exact (namedBlockName_asks ..).then fun name =>
      (Asks.inBlock fun _ => (statements_asks hloose children hchildren).last fun _ =>
        .pure _).bind fun _ =>
          (namedBlocks_asks hloose component (name :: seen) rest hrest).last fun _ => .pure _
  | .text _ :: rest | .comment _ :: rest | .mustacheComment _ :: rest =>
    simp only [namedBlocks]
    rw [placedWithin, placed] at hcloses ⊢
    obtain ⟨-, hrest⟩ := List.forall_mem_append.mp hcloses
    exact .ite (fun _ => namedBlocks_asks hloose component seen rest hrest) fun _ => .throw _
  | .partialCall _ :: rest | .mustache _ :: rest | .block _ _ _ :: rest =>
    simp only [namedBlocks, isBetweenBlocks]
    exact .throw _

end

end

/-! ### Templates -/

/-- The tags of a loose template that are customized are its free heads, each once and in the
order of the walk.  Each callee has the name of its tag, in its variable and at its upvar.  No
other name is asked for: a customization that gives the free heads the same names comes to the
same template. -/
theorem resolve_customizes {source : Source} {mode : Markup.Mode} {t : Template}
    {warnings : List Diagnostic} {o : Settings} {f : String → String} {body : Body} {p : Progress}
    (hparse : Template.parse source mode = .ok (t, warnings)) (hloose : o.strict = false)
    (hcustomize : o.customize = some f) (h : t.resolve o = (.ok body, p)) :
    (p.componentNames.map Prod.fst).Nodup ∧
      p.componentNames
        = ((freeTags o (placedWithin o [] t.body)).eraseDups.map fun tag => (tag, f tag)) ∧
      List.Forall₂ (Calls f p.symbols) (componentTags o (placedWithin o [] t.body))
        (callees (contentsWithin body.body)) ∧
      ∀ g : String → String, (∀ tag ∈ freeTags o (placedWithin o [] t.body), g tag = f tag) →
        t.resolve (o.naming g) = (.ok body, p) := by
  have hcloses : ∀ x ∈ placedWithin o [] t.body, ClosesAlone x.2 := by
    intro x hx
    have hmem : x.2 ∈ Template.statementsWithin t.body := by
      rw [← placedWithin_snd o []]
      exact List.mem_map_of_mem hx
    exact closesAlone_of_close (Template.parse_closes hparse) x.2 hmem
  have hresolves := (resolve_outcome h).holds p.symbols (Symbols.Grows.refl _)
  -- The callees are told by the relation, the names that are asked for by the walk.
  have hcalls := hresolves.calls hloose hcloses
  rw [Settings.registered_of_customize hcustomize] at hcalls
  rw [Template.resolve] at h
  split at h
  · next contents q hrun =>
    obtain ⟨rfl, rfl⟩ : (⟨contents, t.span⟩ : Body) = body ∧ q = p := by simpa using h
    have hrun' : (statements (o.naming f) t.body).run (start o) = .ok contents q := by
      rwa [Settings.naming_self hcustomize]
    have hasked := (statements_asks hloose t.body hcloses).asked (fun _ => rfl) hrun'
    have hnames : q.componentNames = _ := hasked.names.trans (foldl_register f _)
    refine ⟨?_, hnames, hcalls, fun g hg => ?_⟩
    · rw [hnames, List.map_map]
      exact (List.map_id _).symm ▸ eraseDups_nodup _
    · have hanswered : (statements (o.naming g) t.body).run (start (o.naming g))
          = .ok contents q := hasked.answered g hg
      rw [Template.resolve, hanswered]
  · simp at h

/-- Two free tags, and a block that declares the name of the second. -/
def shadowSource : Source :=
  ⟨"<F/>\x7b\x7b#let x as |B|\x7d\x7d<B/><F/>\x7b\x7b/let\x7d\x7d<B/>", ""⟩

/-- The tokens of `shadowSource`. -/
def shadowTokens : List Mustache.Token :=
  [⟨.content "<F/>", ⟨0, 4⟩⟩, ⟨.openBlock false, ⟨4, 7⟩⟩, ⟨.id "let", ⟨7, 10⟩⟩,
    ⟨.id "x", ⟨11, 12⟩⟩, ⟨.openBlockParams, ⟨13, 17⟩⟩, ⟨.id "B", ⟨17, 18⟩⟩,
    ⟨.closeBlockParams, ⟨18, 19⟩⟩, ⟨.close false, ⟨19, 21⟩⟩, ⟨.content "<B/><F/>", ⟨21, 29⟩⟩,
    ⟨.openEndBlock false, ⟨29, 32⟩⟩, ⟨.id "let", ⟨32, 35⟩⟩, ⟨.close false, ⟨35, 37⟩⟩,
    ⟨.content "<B/>", ⟨37, 41⟩⟩, ⟨.eof, ⟨41, 41⟩⟩]

/-- The template that is written there. -/
def shadowTemplate : Template where
  body :=
    [.element { name := "F", selfClosing := true } [] ⟨0, 4⟩,
      .block ⟨⟨.path ⟨.var "let", [], "let", ⟨7, 10⟩⟩, [.path ⟨.var "x", [], "x", ⟨11, 12⟩⟩],
          ⟨[], ⟨12, 12⟩⟩⟩, {}, {}, {}, ⟨4, 37⟩⟩
        { body :=
            [.element { name := "B", selfClosing := true } [] ⟨21, 25⟩,
              .element { name := "F", selfClosing := true } [] ⟨25, 29⟩]
          params := ["B"]
          span := ⟨21, 29⟩ }
        none,
      .element { name := "B", selfClosing := true } [] ⟨37, 41⟩]
  span := ⟨0, 41⟩

/-- Settings that give all tags one name. -/
def oneName : Settings := { customize := some fun _ => "c" }

theorem resolve_customizes_shadow :
    ∃ body p, Template.parse shadowSource .precompile = .ok (shadowTemplate, []) ∧
      shadowTemplate.resolve oneName = (.ok body, p) ∧
      p.componentNames = [("F", "c"), ("B", "c")] ∧ p.symbols.upvars = ["c", "x"] ∧
      (callees (contentsWithin body.body)).length = 4 ∧
      shadowTemplate.resolve (oneName.naming fun tag => if tag = "x" then "x" else "c")
        = (.ok body, p) := by
  have hparse : Template.parse shadowSource .precompile = .ok (shadowTemplate, []) := by
    have hlex : Mustache.lex shadowSource.text = shadowTokens := by decide +kernel
    have hprogram : Mustache.parseProgram shadowTokens = .ok _ := rfl
    rw [Template.parse, hlex, hprogram]
    -- Only the texts are run; the statements are laid open before.
    show Template.build shadowSource .precompile
      ⟨[.content _, .block _ ⟨[.content _], _, _, _⟩ none, .content _], _, _, _⟩ = _
    simp only [Template.build, Template.Builder.program, Template.Builder.nodes,
      Template.Builder.node]
    with_unfolding_all rfl
  have htags : freeTags oneName (placedWithin oneName [] shadowTemplate.body)
      = ["F", "F", "B"] := by decide +kernel
  have hupvars : (shadowTemplate.resolve oneName).2.symbols.upvars = ["c", "x"] := by
    decide +kernel
  have hcount : (shadowTemplate.resolve oneName).1.toOption.map
      (fun body => (callees (contentsWithin body.body)).length) = some 4 := by decide +kernel
  obtain ⟨body, hbody, hcount⟩ := ok_of_map_toOption hcount
  have hresolve : shadowTemplate.resolve oneName
      = (.ok body, (shadowTemplate.resolve oneName).2) := by rw [← hbody]
  obtain ⟨-, hnames, -, hanswered⟩ := resolve_customizes hparse rfl rfl hresolve
  rw [htags] at hnames hanswered
  exact ⟨body, _, hparse, hresolve, hnames, hupvars, hcount, hanswered _ (by decide)⟩

end TemplateCompiler.Resolved
