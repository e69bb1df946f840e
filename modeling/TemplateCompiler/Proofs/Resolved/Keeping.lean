/-
Nothing that is given is dropped.

* `ResolvesExpr.keeps`, `ResolvesAttr.keeps` — values and attributes, one case for
  each form;
* `Carries` — a form can carry all that it is given;
* `ResolvesStatement.keeps` — what lexical scoping resolves is kept;
* `resolve_keeps` — a template that is resolved keeps all that is given in it;
* `resolve_drops_repeated` — of two arguments under one key the second is dropped.

A keyword checks the keys of its named arguments and then reads one argument for
each key, so a form that reads by key carries an argument only if its key is given
once.
-/
import TemplateCompiler.Proofs.Diagnostic.Success
import TemplateCompiler.Proofs.Resolved.Agreement
import TemplateCompiler.Proofs.Resolved.Given

namespace TemplateCompiler.Resolved

open Template (Pair Hash Call MustacheTag BlockTag StartTag ConcatPart AttrValue Statement)

section

variable {o : Settings} {F : Symbols} {env : Scopes}

/-! ### Values -/

/-- The name that `has-block` is given. -/
theorem AsksFor.keeps {params : List Template.Expr} {slot : Nat} (h : AsksFor F params slot)
    (hcount : params.length ≤ 1) :
    Kept (Represents o F env) (argumentsGiven params) {.block slot} := by
  cases h with
  | default hslot =>
    rw [argumentsGiven]
    exact .zero _
  | @named name span rest _ hslot =>
    obtain rfl : rest = [] := List.eq_nil_of_length_eq_zero (by simpa using hcount)
    simp only [argumentsGiven, exprGiven, add_zero]
    exact .cons (.block hslot) (.zero 0)

/-- A condition is carried also where it is negated. -/
theorem Kept.condition {α : Type} {R : α → Carried → Prop} {given : Multiset α} {e : Expr}
    (h : Kept R given (.value e ::ₘ e.carried)) (negated : Bool) :
    Kept R given (.value (conditionOf negated e) ::ₘ (conditionOf negated e).carried) := by
  cases negated with
  | false => exact h
  | true =>
    rw [conditionOf, if_pos rfl, Expr.carried]
    exact h.mono (Multiset.le_cons_self _ _)

mutual

theorem ResolvesExpr.keeps {site : Site} {t : Template.Expr} {e : Expr} :
    ResolvesExpr o F env site t e → Kept (Represents o F env) (exprGiven t) e.carried
  | .literal | .path _ => by
    rw [exprGiven]
    exact .zero _
  | .keyword hkeyword hcall => by
    rw [exprGiven]
    exact hcall.keeps (exprGiven_keyword hkeyword)
  | .call _ hcall => by
    rw [exprGiven]
    exact hcall.keeps

theorem ResolvesExprs.keeps {ts : List Template.Expr} {es : List Expr} :
    ResolvesExprs o F env ts es → Kept (Represents o F env) (argumentsGiven ts) (exprsCarried es)
  | .nil => by
    rw [argumentsGiven]
    exact .zero _
  | .cons hvalue hvalues => by
    rw [argumentsGiven, exprsCarried]
    exact (Kept.cons (.argument hvalue) hvalue.keeps).add hvalues.keeps

theorem ResolvesPairs.keeps {ts : List (Pair Template.Expr)} {named : List (Named Expr)} :
    ResolvesPairs o F env ts named →
      Kept (Represents o F env) (pairsGiven ts) (namedCarried named)
  | .nil => by
    rw [pairsGiven]
    exact .zero _
  | .cons hvalue hnamed => by
    rw [pairsGiven, namedCarried]
    exact (Kept.cons (.argument hvalue) hvalue.keeps).add hnamed.keeps

theorem ResolvesCall.keeps {site : Site} {span : Span} {t : Call Template.Expr} {e : Expr} :
    ResolvesCall o F env site span t e → Kept (Represents o F env) (callGiven t) e.carried
  | .mk hcallee hparams hpairs => by
    rw [callGiven_eq, Expr.carried, add_assoc]
    exact hcallee.keeps.add (hparams.keeps.add hpairs.keeps)

/-- The call of a keyword, in which itself nothing is given. -/
theorem ResolvesKeyword.keeps {k : CallKeyword} {span : Span} {t : Call Template.Expr} {e : Expr} :
    ResolvesKeyword o F env k span t e → exprGiven t.callee = 0 →
      Kept (Represents o F env) (callGiven t) e.carried
  -- The condition may be negated, which carries the same values.
  | .branch htakes hcondition htruthy, hcallee => by
    rw [callGiven_keyword hcallee, htakes.pairs_eq_nil]
    simp only [argumentsGiven, pairsGiven, Expr.carried, optionCarried, add_zero]
    have hconditionKept := Kept.cons (.argument hcondition) hcondition.keeps
    exact (hconditionKept.condition _).add (.cons (.argument htruthy) htruthy.keeps)
  | .branchElse htakes hcondition htruthy hfalsy, hcallee => by
    rw [callGiven_keyword hcallee, htakes.pairs_eq_nil]
    simp only [argumentsGiven, pairsGiven, Expr.carried, optionCarried, add_zero]
    rw [add_assoc]
    have hconditionKept := Kept.cons (.argument hcondition) hcondition.keeps
    have htruthyKept := Kept.cons (.argument htruthy) htruthy.keeps
    exact (hconditionKept.condition _).add
      (htruthyKept.add (.cons (.argument hfalsy) hfalsy.keeps))
  | .hasBlock htakes hcount hasked, hcallee | .hasBlockParams htakes hcount hasked, hcallee => by
    rw [callGiven_keyword hcallee, htakes.pairs_eq_nil, pairsGiven, add_zero, Expr.carried]
    exact hasked.keeps hcount
  | .curry hdefinition hparams hpairs, hcallee => by
    rw [callGiven_keyword hcallee, argumentsGiven, Expr.carried, add_assoc]
    exact (Kept.cons (.argument hdefinition) hdefinition.keeps).add
      (hparams.keeps.add hpairs.keeps)
  | .log htakes hparams, hcallee => by
    rw [callGiven_keyword hcallee, htakes.pairs_eq_nil, Expr.carried]
    exact hparams.keeps.add (.zero _)
  | .getDynamicVar htakes hname, hcallee => by
    rw [callGiven_keyword hcallee, htakes.pairs_eq_nil]
    simp only [argumentsGiven, pairsGiven, Expr.carried, add_zero]
    exact .cons (.argument hname) hname.keeps

end

/-- An argument and all that is given in it. -/
theorem ResolvesExpr.keeps_argument {t : Template.Expr} {e : Expr}
    (h : ResolvesExpr o F env .argument t e) :
    Kept (Represents o F env) (.argument t ::ₘ exprGiven t) (.value e ::ₘ e.carried) :=
  .cons (.argument h) h.keeps

theorem ResolvesDynamic.keeps {span : Span} {call : Call Template.Expr} {callee : Expr}
    {args : Args Expr} (h : ResolvesDynamic o F env span call callee args) :
    Kept (Represents o F env) (argumentsGiven call.params + pairsGiven call.hash.pairs)
      ((.value callee ::ₘ callee.carried) + args.carried) := by
  cases h with
  | mk hdefinition hparams hpairs =>
    rw [argumentsGiven, Args.carried, add_assoc]
    exact hdefinition.keeps_argument.add (hparams.keeps.add hpairs.keeps)

/-- A form that reads one named argument by its key, which is given once. -/
theorem ResolvesOptional.keeps {key : String} {hash : Hash Template.Expr} {value : Option Expr}
    (h : ResolvesOptional o F env key hash value) (htakes : Takes [key] hash)
    (hdistinct : Distinct hash) :
    Kept (Represents o F env) (pairsGiven hash.pairs) (optionCarried value) := by
  rw [htakes.pairs_eq hdistinct]
  cases h with
  | none hget =>
    rw [hget, Option.toList_none, pairsGiven]
    exact .zero _
  | some hget hvalue =>
    rw [hget, Option.toList_some, optionCarried]
    simp only [pairsGiven, add_zero]
    exact hvalue.keeps_argument

/-- The name of the block that `yield` is given. -/
theorem YieldsTo.keeps {hash : Hash Template.Expr} {name : String} {slot : Nat}
    (h : YieldsTo hash name) (htakes : Takes ["to"] hash) (hdistinct : Distinct hash)
    (hslot : F.Holds slot ("&" ++ Symbols.blockName name)) :
    Kept (Represents o F env) (pairsGiven hash.pairs) {.block slot} := by
  rw [htakes.pairs_eq hdistinct]
  cases h with
  | default hget =>
    rw [hget, Option.toList_none, pairsGiven]
    exact .zero _
  | named hget =>
    rw [hget, Option.toList_some]
    simp only [pairsGiven, exprGiven, add_zero]
    exact .cons (.block hslot) (.zero 0)

/-! ### Attributes and modifiers -/

theorem ResolvesAttrTag.keeps {tag : MustacheTag} {e : Expr} (h : ResolvesAttrTag o F env tag e) :
    Kept (Represents o F env) (callGiven tag.call) e.carried := by
  cases h with
  | keyword hkeyword hcall => exact hcall.keeps (exprGiven_keyword hkeyword)
  | bare hkeyword hparams hpairs hcallee =>
    rw [callGiven_eq, hparams, hpairs]
    simp only [argumentsGiven, pairsGiven, add_zero]
    exact hcallee.keeps
  | call hkeyword hcall => exact hcall.keeps

theorem ResolvesPart.keeps {part : ConcatPart} {e : Expr} (h : ResolvesPart o F env part e) :
    Kept (Represents o F env) (partGiven part) e.carried := by
  cases h with
  | text => exact .zero _
  | mustache htag => exact htag.keeps

/-- The values of a list and all that is carried in them. -/
theorem exprsCarried_eq (es : List Expr) :
    exprsCarried es = (es.map fun e => .value e ::ₘ e.carried).sum := by
  induction es with
  | nil => rfl
  | cons e rest ih => rw [exprsCarried, List.map_cons, List.sum_cons, ih]

theorem ResolvesAttrValue.keeps {value : AttrValue} {e : Expr}
    (h : ResolvesAttrValue o F env value e) :
    Kept (Represents o F env) (attrValueGiven value) e.carried := by
  cases h with
  | text => exact .zero _
  | mustache htag => exact htag.keeps
  | concat hparts =>
    rw [attrValueGiven, Expr.carried, exprsCarried_eq]
    exact .sum hparts fun _ _ _ hpart => hpart.keeps.mono (Multiset.le_cons_self _ _)

theorem ResolvesAttrValue.keeps_attribute {attr : Template.Attr} {e : Expr}
    (h : ResolvesAttrValue o F env attr.value e) :
    Kept (Represents o F env) (attributeGiven attr) (.value e ::ₘ e.carried) := by
  rw [attributeGiven]
  split
  · exact .zero _
  · exact .cons (.attrValue h) h.keeps

/-- No value is given to `...attributes`. -/
def BareSplat (attr : Template.Attr) : Prop :=
  isSplatName attr.name = true → isBare attr.value = true

theorem ResolvesAttr.keeps {attr : Template.Attr} {a : Attr} (h : ResolvesAttr o F env attr a)
    (hbare : BareSplat attr) : Kept (Represents o F env) (attributeGiven attr) a.carried := by
  cases h with
  | splat hname hslot =>
    rw [attributeGiven, if_pos (by simp [hname, hbare hname])]
    exact .zero _
  | attr hname hvalue => exact hvalue.keeps_attribute

theorem ResolvesAttrs.keeps {ts : List Template.Attr} {attrs : List Attr}
    {args : List (Named Expr)} (h : ResolvesAttrs o F env ts attrs args)
    (hbare : ∀ attr ∈ ts, BareSplat attr) :
    Kept (Represents o F env) (ts.map attributeGiven).sum
      ((attrs.map Attr.carried).sum + namedCarried args) := by
  induction h with
  | nil => exact .zero _
  | argument hname hvalue hrest ih =>
    obtain ⟨-, hbare⟩ := List.forall_mem_cons.mp hbare
    -- The argument is carried behind the attributes that come after it.
    rw [List.map_cons, List.sum_cons, namedCarried, add_left_comm]
    exact hvalue.keeps_attribute.add (ih hbare)
  | attr hname hattr hrest ih =>
    obtain ⟨hfirst, hbare⟩ := List.forall_mem_cons.mp hbare
    rw [List.map_cons, List.sum_cons, List.map_cons, List.sum_cons, add_assoc]
    exact (hattr.keeps hfirst).add (ih hbare)

theorem ResolvesModifier.keeps {m : Template.Modifier} {m' : Modifier}
    (h : ResolvesModifier o F env m m') :
    Kept (Represents o F env) (modifierGiven m) m'.carried := by
  refine .cons (.modifier h) ?_
  cases h with
  | mk hcallee hparams hpairs =>
    rw [callGiven_eq, add_assoc]
    exact hcallee.keeps.add (hparams.keeps.add hpairs.keeps)

/-! ### Tags and blocks -/

theorem ResolvesAppendForm.keeps {tag : MustacheTag} {k : AppendKeyword} {c : Content}
    (h : ResolvesAppendForm o F env tag k c) (hcallee : exprGiven tag.call.callee = 0)
    (honce : k = .yield → Distinct tag.call.hash) :
    Kept (Represents o F env) (callGiven tag.call) c.carried := by
  cases h with
  | yield htakes hto hslot hparams =>
    -- The name of the block is given last and carried first.
    rw [callGiven_keyword hcallee, Content.carried, ← Multiset.singleton_add, add_comm]
    exact (hto.keeps htakes (honce rfl) hslot).add hparams.keeps
  | partialCall hloose htakes hparams htarget =>
    rw [callGiven_keyword hcallee, hparams, htakes.pairs_eq_nil]
    simp only [argumentsGiven, pairsGiven, add_zero]
    exact htarget.keeps_argument
  | debugger htakes hparams =>
    rw [callGiven_keyword hcallee, hparams, htakes.pairs_eq_nil]
    simp only [argumentsGiven, pairsGiven, add_zero]
    exact .zero _
  | component hcall =>
    rw [callGiven_keyword hcallee]
    exact hcall.keeps
  | value hcall => exact hcall.keeps hcallee

theorem ResolvesAppend.keeps {tag : MustacheTag} {c : Content} (h : ResolvesAppend o F env tag c)
    (honce : ReadsOnce o env.declared (.mustache tag)) :
    Kept (Represents o F env) (callGiven tag.call) c.carried := by
  cases h with
  | keyword hkeyword hform =>
    rw [ReadsOnce, ← keyword?_eq, hkeyword] at honce
    exact hform.keeps (exprGiven_keyword hkeyword) fun hk => honce (by rw [hk])
  | bare hkeyword hparams hpairs hcallee =>
    rw [callGiven_eq, hparams, hpairs]
    simp only [argumentsGiven, pairsGiven, add_zero]
    exact hcallee.keeps
  | call hkeyword hcall => exact hcall.keeps

/-- A tag among content has nothing inside of it. -/
theorem ResolvesAppend.slottedInside_eq_nil {tag : MustacheTag} {c : Content}
    (h : ResolvesAppend o F env tag c) (around : List Nat) : slottedInside around c = [] := by
  cases h with
  | keyword hkeyword hform => cases hform <;> simp only [slottedInside, namedBlocksSlotted]
  | bare hkeyword hparams hpairs hcallee => rw [slottedInside]
  | call hkeyword hcall => rw [slottedInside]

section

variable {tag : BlockTag} {program : Template.Block Statement}
  {inverse : Option (Template.Block Statement)} {block : Block Content}
  {other : Option (Block Content)} {k : BlockKeyword} {c : Content}

theorem ResolvesBlockForm.keeps
    (h : ResolvesBlockForm o F env tag program inverse block other k c)
    (hcallee : exprGiven tag.call.callee = 0)
    (honce : k = .each ∨ k = .inElement → Distinct tag.call.hash) :
    Kept (Represents o F env) (callGiven tag.call) c.carried := by
  -- The name of the keyword gives nothing, so what is given are the arguments.
  rw [callGiven_keyword hcallee]
  cases h with
  | branch htakes hparams hcondition =>
    rw [hparams, htakes.pairs_eq_nil]
    simp only [argumentsGiven, pairsGiven, add_zero]
    exact hcondition.keeps_argument.condition _
  | each htakes hparams hvalue hkey =>
    rw [hparams]
    simp only [argumentsGiven, add_zero]
    exact hvalue.keeps_argument.add (hkey.keeps htakes (honce (.inl rfl)))
  | withValue htakes hparams hvalue =>
    rw [hparams, htakes.pairs_eq_nil]
    simp only [argumentsGiven, pairsGiven, add_zero]
    exact hvalue.keeps_argument
  | letValues htakes hinverse hparams =>
    rw [htakes.pairs_eq_nil, pairsGiven, add_zero]
    exact hparams.keeps
  | inElement htakes hinverse hparams hdestination hinsert =>
    rw [hparams]
    simp only [argumentsGiven, add_zero]
    exact hdestination.keeps_argument.add (hinsert.keeps htakes (honce (.inr rfl)))
  | component hcall => exact hcall.keeps
  | withDynamicVars hparams hinverse hpairs =>
    rw [hparams, argumentsGiven, zero_add]
    exact hpairs.keeps

/-- The branches of a block, as blocks with names. -/
theorem ResolvesOther.branchBlocks_slotted (h : ResolvesOther o F env inverse other)
    (around : List Nat) :
    namedBlocksSlotted around (branchBlocks program inverse block other)
      = blockSlotted around block ++ otherSlotted around other := by
  cases h with
  | none => simp only [branchBlocks, namedBlocksSlotted, otherSlotted]
  | some hblock => simp only [branchBlocks, namedBlocksSlotted, otherSlotted, List.append_nil]

/-- What is inside of a block with a keyword is inside of its branches. -/
theorem ResolvesBlockForm.slottedInside_eq
    (h : ResolvesBlockForm o F env tag program inverse block other k c)
    (hother : ResolvesOther o F env inverse other) (around : List Nat) :
    slottedInside around c = blockSlotted around block ++ otherSlotted around other := by
  -- A form that takes no other branch was given none.
  have hnone : inverse = none → otherSlotted around other = [] := by
    rintro rfl
    cases hother
    rw [otherSlotted]
  cases h with
  | branch | each | withValue => rw [slottedInside]
  | letValues htakes hinverse hparams =>
    rw [slottedInside, hnone hinverse, List.append_nil]
  | inElement htakes hinverse hparams hdestination hinsert =>
    rw [slottedInside, hnone hinverse, List.append_nil]
  | component hcall =>
    rw [slottedInside]
    exact hother.branchBlocks_slotted around
  | withDynamicVars hparams hinverse hpairs =>
    rw [slottedInside, hnone hinverse, List.append_nil]

end

end

/-! ### Statements -/

/-- No value is given to `...attributes` in a tag. -/
def BareSplats : Statement → Prop
  | .element tag _ _ => ∀ attr ∈ tag.attributes, BareSplat attr
  | _ => True

/-- A component whose tag closes itself has no children. -/
def TakesChildren (o : Settings) (around : List String) : Statement → Prop
  | .element tag children _ =>
    invokesIn o around tag = true → tag.selfClosing = true → children = []
  | _ => True

/-- A form can carry all that it is given. -/
structure Carries (o : Settings) (around : List String) (s : Statement) : Prop where
  once : ReadsOnce o around s
  bare : BareSplats s
  children : TakesChildren o around s

instance (attr : Template.Attr) : Decidable (BareSplat attr) :=
  inferInstanceAs (Decidable (_ → _))

instance : (s : Statement) → Decidable (BareSplats s)
  | .element _ _ _ => inferInstanceAs (Decidable (∀ _ ∈ _, _))
  | .mustache _ | .block _ _ _ | .partialCall _ | .comment _ | .mustacheComment _ | .text _ =>
    inferInstanceAs (Decidable True)

instance (o : Settings) (around : List String) :
    (s : Statement) → Decidable (TakesChildren o around s)
  | .element _ _ _ => inferInstanceAs (Decidable (_ → _ → _))
  | .mustache _ | .block _ _ _ | .partialCall _ | .comment _ | .mustacheComment _ | .text _ =>
    inferInstanceAs (Decidable True)

instance (o : Settings) (around : List String) (s : Statement) : Decidable (Carries o around s) :=
  decidable_of_iff (ReadsOnce o around s ∧ BareSplats s ∧ TakesChildren o around s)
    ⟨fun ⟨once, bare, children⟩ => ⟨once, bare, children⟩,
      fun ⟨once, bare, children⟩ => ⟨once, bare, children⟩⟩

theorem givenAt_singleton {s : Statement} (around : List String) (h : ownGiven s = 0) :
    givenAt [(around, s)] = 0 := by
  rw [givenAt_cons, givenAt_nil, h, Multiset.map_zero, add_zero]

/-- Nothing is given between blocks with names. -/
theorem givenAt_between {s : Statement} (o : Settings) (around : List String)
    (h : isBetweenBlocks s = true) : givenAt (placed o around s) = 0 := by
  cases s with
  | text _ | comment _ | mustacheComment _ =>
    rw [placed]
    exact givenAt_singleton around rfl
  | mustache _ | partialCall _ | block _ _ _ | element _ _ _ => simp [isBetweenBlocks] at h

section

variable {o : Settings} {F : Symbols}

/-- The blocks of a statement, given what is kept of the statement itself. -/
theorem Kept.block_statement {env : Scopes} {tag : BlockTag} {program : Template.Block Statement}
    {inverse : Option (Template.Block Statement)} {block : Block Content}
    {other : Option (Block Content)} {c : Content}
    (hown : Kept (Represents o F env) (callGiven tag.call) c.carried)
    (hinside : slottedInside env.declaredSlots c
      = blockSlotted env.declaredSlots block ++ otherSlotted env.declaredSlots other)
    (hblock : Kept (Stands o F) (givenAt (blockPlaced o env.declared program))
      (carriedAt (blockSlotted env.declaredSlots block)))
    (hother : Kept (Stands o F) (givenAt (otherPlaced o env.declared inverse))
      (carriedAt (otherSlotted env.declaredSlots other))) :
    Kept (Stands o F) (givenAt (placed o env.declared (.block tag program inverse)))
      (carriedAt ((env.declaredSlots, c) :: slottedInside env.declaredSlots c)) := by
  rw [placed, givenAt_cons, givenAt_append, carriedAt_cons, hinside, carriedAt_append]
  exact hown.at_scopes.add (hblock.add hother)

mutual

/-- What lexical scoping resolves is kept. -/
theorem ResolvesStatement.keeps {env : Scopes} {s : Statement} {c : Content} :
    ResolvesStatement o F env s c → (∀ x ∈ placed o env.declared s, Carries o x.1 x.2) →
      Kept (Stands o F) (givenAt (placed o env.declared s))
        (carriedAt ((env.declaredSlots, c) :: slottedInside env.declaredSlots c))
  | .text, _ | .comment, _ | .hiddenComment, _ => by
    rw [placed, givenAt_singleton _ rfl]
    exact .zero _
  | .mustache htag, hcarries => by
    rw [placed] at hcarries ⊢
    have honce := (hcarries _ List.mem_cons_self).once
    rw [givenAt_cons, givenAt_nil, carriedAt_cons, htag.slottedInside_eq_nil]
    exact (htag.keeps honce).at_scopes.add (.zero _)
  | .blockForm hkeyword hblock hother hform, hcarries => by
    rw [placed] at hcarries
    obtain ⟨hfirst, hinside⟩ := List.forall_mem_cons.mp hcarries
    obtain ⟨hprogram, hinverse⟩ := List.forall_mem_append.mp hinside
    have honce := hfirst.once
    rw [ReadsOnce, ← keyword?_eq, hkeyword] at honce
    refine Kept.block_statement ?_ (hform.slottedInside_eq hother _) (hblock.keeps hprogram)
      (hother.keeps hinverse)
    exact hform.keeps (exprGiven_keyword hkeyword) fun hk => honce (by simpa using hk)
  | .invokeBlock _ hcallee hparams hpairs hblock hother, hcarries => by
    rw [placed] at hcarries
    obtain ⟨-, hinside⟩ := List.forall_mem_cons.mp hcarries
    obtain ⟨hprogram, hinverse⟩ := List.forall_mem_append.mp hinside
    refine Kept.block_statement ?_ ?_ (hblock.keeps hprogram) (hother.keeps hinverse)
    · rw [callGiven_eq, add_assoc]
      exact hcallee.keeps.add (hparams.keeps.add hpairs.keeps)
    · rw [slottedInside]
      exact hother.branchBlocks_slotted _
  | .element hname hplain hattrs hmodifiers hbody, hcarries => by
    rw [invokes_eq] at hplain
    rw [placed, childrenNames, hname, hplain, Bool.false_or, if_neg Bool.false_ne_true]
      at hcarries ⊢
    obtain ⟨hfirst, hchildren⟩ := List.forall_mem_cons.mp hcarries
    rw [givenAt_cons, carriedAt_cons, slottedInside]
    refine Kept.add (Kept.at_scopes ?_) (hbody.keeps hchildren)
    exact (Kept.sum hattrs fun attr hattr _ h => h.keeps (hfirst.bare attr hattr)).add
      (.sum hmodifiers fun _ _ _ h => h.keeps)
  | .component hname hinvokes hhead hattrs hmodifiers hblocks, hcarries => by
    rw [invokes_eq] at hinvokes
    rw [placed, childrenNames, hinvokes, Bool.or_true, if_pos rfl] at hcarries ⊢
    obtain ⟨hfirst, hchildren⟩ := List.forall_mem_cons.mp hcarries
    rw [givenAt_cons, carriedAt_cons, slottedInside]
    refine Kept.add (Kept.at_scopes ?_) (hblocks.keeps (hfirst.children hinvokes) hchildren)
    -- The callee is a path, in which nothing is carried.
    rw [Content.carried, Expr.carried, zero_add, ElementParams.carried, add_right_comm]
    exact (hattrs.keeps hfirst.bare).add (.sum hmodifiers fun _ _ _ h => h.keeps)

theorem ResolvesStatements.keeps {env : Scopes} {ss : List Statement} {cs : List Content} :
    ResolvesStatements o F env ss cs →
      (∀ x ∈ placedWithin o env.declared ss, Carries o x.1 x.2) →
      Kept (Stands o F) (givenAt (placedWithin o env.declared ss))
        (carriedAt (slottedWithin env.declaredSlots cs))
  | .nil, _ => by
    rw [placedWithin, givenAt_nil]
    exact .zero _
  | .cons hfirst hrest, hcarries => by
    rw [placedWithin] at hcarries ⊢
    obtain ⟨hs, hss⟩ := List.forall_mem_append.mp hcarries
    rw [givenAt_append, slottedWithin, ← List.cons_append, carriedAt_append]
    exact (hfirst.keeps hs).add (hrest.keeps hss)

theorem ResolvesBlock.keeps {env : Scopes} {t : Template.Block Statement} {b : Block Content} :
    ResolvesBlock o F env t b → (∀ x ∈ blockPlaced o env.declared t, Carries o x.1 x.2) →
      Kept (Stands o F) (givenAt (blockPlaced o env.declared t))
        (carriedAt (blockSlotted env.declaredSlots b))
  | .mk hlength _ hbody, hcarries => by
    rw [blockPlaced, ← Scopes.declared_cons env hlength] at hcarries ⊢
    rw [blockSlotted, ← Scopes.declaredSlots_cons env hlength]
    exact hbody.keeps hcarries

theorem ResolvesOther.keeps {env : Scopes} {t : Option (Template.Block Statement)}
    {b : Option (Block Content)} :
    ResolvesOther o F env t b → (∀ x ∈ otherPlaced o env.declared t, Carries o x.1 x.2) →
      Kept (Stands o F) (givenAt (otherPlaced o env.declared t))
        (carriedAt (otherSlotted env.declaredSlots b))
  | .none, _ => by
    rw [otherPlaced, givenAt_nil]
    exact .zero _
  | .some hblock, hcarries => by
    rw [otherPlaced] at hcarries ⊢
    rw [otherSlotted]
    exact hblock.keeps hcarries

theorem ResolvesChildren.keeps {env : Scopes} {tag : StartTag} {children : List Statement}
    {span : Span} {blocks : List (NamedBlock Content)} :
    ResolvesChildren o F env tag children span blocks → (tag.selfClosing = true → children = []) →
      (∀ x ∈ placedWithin o (tag.blockParams ++ env.declared) children, Carries o x.1 x.2) →
      Kept (Stands o F) (givenAt (placedWithin o (tag.blockParams ++ env.declared) children))
        (carriedAt (namedBlocksSlotted env.declaredSlots blocks))
  | .named _ hparams hblocks, _, hcarries => by
    -- The names are declared by the blocks and not by the component.
    rw [hparams, List.nil_append] at hcarries ⊢
    exact hblocks.keeps hcarries
  | .selfClosing _ hclosing, hchildren, _ => by
    rw [hchildren hclosing, placedWithin, givenAt_nil]
    exact .zero _
  | .default _ _ hblock, _, hcarries => by
    rw [namedBlocksSlotted, namedBlocksSlotted, List.append_nil]
    have hkept := hblock.keeps
    rw [blockPlaced] at hkept
    exact hkept hcarries

theorem ResolvesNamedBlocks.keeps {env : Scopes} {seen : List String} {ss : List Statement}
    {blocks : List (NamedBlock Content)} :
    ResolvesNamedBlocks o F env seen ss blocks →
      (∀ x ∈ placedWithin o env.declared ss, Carries o x.1 x.2) →
      Kept (Stands o F) (givenAt (placedWithin o env.declared ss))
        (carriedAt (namedBlocksSlotted env.declaredSlots blocks))
  | .nil, _ => by
    rw [placedWithin, givenAt_nil]
    exact .zero _
  | .block htag _ _ hattributes hmodifiers _ hblock hrest, hcarries => by
    rw [placedWithin, placed, childrenNames, htag, Bool.true_or, if_pos rfl] at hcarries ⊢
    obtain ⟨hs, hss⟩ := List.forall_mem_append.mp hcarries
    obtain ⟨-, hchildren⟩ := List.forall_mem_cons.mp hs
    -- Nothing is given to the tag of a named block itself.
    rw [givenAt_append, givenAt_cons, ownGiven, hattributes, hmodifiers, namedBlocksSlotted,
      carriedAt_append]
    refine Kept.add ?_ (hrest.keeps hss)
    have hkept := hblock.keeps
    rw [blockPlaced] at hkept
    simpa using hkept hchildren
  | .between hbetween hrest, hcarries => by
    rw [placedWithin] at hcarries ⊢
    obtain ⟨-, hss⟩ := List.forall_mem_append.mp hcarries
    rw [givenAt_append, givenAt_between o _ hbetween, zero_add]
    exact hrest.keeps hss

end

end

/-! ### Templates -/

/-- A template that is resolved keeps all that is given in it, if each form can
carry what it is given. -/
theorem resolve_keeps {t : Template} {o : Settings} {body : Body} {p : Progress}
    (hcarries : ∀ s ∈ placedWithin o [] t.body, Carries o s.1 s.2)
    (h : t.resolve o = (.ok body, p)) :
    Kept (Stands o p.symbols) (givenIn o t) body.carried :=
  ((resolve_outcome h).holds p.symbols (Symbols.Grows.refl _)).keeps hcarries

/-- A string that is written in a template. -/
def quoted (text : String) : Template.Expr := .literal (.string text) .dummy

/-- A loop with a key, around a component that closes itself and is given an
argument, a modifier and the attributes of its caller, and a block that is
yielded to by its name. -/
def carrying : Template where
  body :=
    [.block ⟨⟨bareName "each", [bareName "xs"], ⟨[⟨"key", quoted "a", .dummy⟩], .dummy⟩⟩,
        {}, {}, {}, .dummy⟩
      { body :=
          [.element
            { name := "Foo"
              selfClosing := true
              attributes :=
                [⟨"@a", .mustache ⟨⟨bareName "if", [bareName "x",
                    .sub ⟨bareName "has-block", [quoted "b"], ⟨[], .dummy⟩⟩ .dummy],
                    ⟨[], .dummy⟩⟩, false, {}, .dummy⟩, .dummy⟩,
                  ⟨"...attributes", .text ⟨"", .dummy⟩, .dummy⟩]
              modifiers := [⟨⟨bareName "on", [bareName "x"], ⟨[], .dummy⟩⟩, .dummy⟩] }
            [] .dummy,
          .mustache ⟨⟨bareName "yield", [bareName "x"], ⟨[⟨"to", quoted "c", .dummy⟩], .dummy⟩⟩,
            false, {}, .dummy⟩]
        params := ["x"], span := .dummy }
      none]
  span := .dummy

theorem resolve_keeps_carrying :
    ∃ body p, carrying.resolve {} = (.ok body, p) ∧ (givenIn {} carrying).card = 10 ∧
      Kept (Stands {} p.symbols) (givenIn {} carrying) body.carried := by
  have hok : (carrying.resolve {}).1.isOk = true := by decide +kernel
  have hcount : (givenIn {} carrying).card = 10 := by decide +kernel
  have hcarries : ∀ s ∈ placedWithin {} [] carrying.body, Carries {} s.1 s.2 := by decide +kernel
  match hrun : carrying.resolve {} with
  | (.ok body, p) => exact ⟨body, p, rfl, hcount, resolve_keeps hcarries hrun⟩
  | (.error fault, p) =>
    rw [hrun] at hok
    cases hok

/-- A loop that is given its key twice. -/
def repeatedKey : Template where
  body :=
    [.block ⟨⟨bareName "each", [bareName "a"],
          ⟨[⟨"key", bareName "b", .dummy⟩, ⟨"key", bareName "c", .dummy⟩], .dummy⟩⟩,
        {}, {}, {}, .dummy⟩
      { body := [], span := .dummy }
      none]
  span := .dummy

/-- The second argument under a key is dropped, and the template is resolved all the same. -/
theorem resolve_drops_repeated :
    ∃ body p, repeatedKey.resolve {} = (.ok body, p) ∧
      ¬ Kept (Stands {} p.symbols) (givenIn {} repeatedKey) body.carried := by
  have hgiven : (givenIn {} repeatedKey).card = 3 := by decide +kernel
  have hcarried : (repeatedKey.resolve {}).1.toOption.map (fun body => body.carried.card)
      = some 2 := by decide +kernel
  obtain ⟨body, hbody, hcarried⟩ := ok_of_map_toOption hcarried
  refine ⟨body, (repeatedKey.resolve {}).2, by rw [← hbody], ?_⟩
  -- Three things are given, and there is room for two.
  intro hkept
  have hle := hkept.card_le
  omega

end TemplateCompiler.Resolved
