/-
Strict and loose templates.

Free names are looked up as the mode of the template demands: in a strict
template surrounding code provides them all, in a loose template none of them.

* `Expr.variables` — every variable in a value;
* `contentsWithin`, `Content.exprs` — content with all that is inside of it, and
  the values that stand in one piece of content itself;
* `Body.variables` — every variable in a resolved template;
* `ResolvesStatements.followsMode` — what lexical scoping resolves follows the
  mode;
* `resolve_symbols_followMode` — so do the symbols.
-/
import TemplateCompiler.Proofs.Resolved.Agreement

namespace TemplateCompiler.Resolved

open Template (Statement)

/-! ### Variables of values -/

mutual

/-- Every variable in a value. -/
def Expr.variables : Expr → List Variable
  | .literal _ _ | .hasBlock _ _ | .hasBlockParams _ _ => []
  | .path head _ _ => [head]
  | .call callee args _ =>
    callee.variables ++ exprsVariables args.positional ++ namedVariables args.named
  | .interpolate parts _ => exprsVariables parts
  | .curry definition _ args _ =>
    definition.variables ++ exprsVariables args.positional ++ namedVariables args.named
  | .not value => value.variables
  | .ifInline condition truthy falsy _ =>
    condition.variables ++ truthy.variables ++ optionVariables falsy
  | .getDynamicVar name => name.variables
  | .log args => exprsVariables args.positional ++ namedVariables args.named

/-- Every variable in values. -/
def exprsVariables : List Expr → List Variable
  | [] => []
  | e :: rest => e.variables ++ exprsVariables rest

/-- Every variable in values with names. -/
def namedVariables : List (Named Expr) → List Variable
  | [] => []
  | named :: rest => named.value.variables ++ namedVariables rest

/-- Every variable in a value that may be missing. -/
def optionVariables : Option Expr → List Variable
  | none => []
  | some e => e.variables

end

/-- The mode decides how a variable is looked up that is a free name. -/
def Variable.FollowsMode (strict : Bool) (v : Variable) : Prop :=
  ∀ upvar resolution, v.reference = .free upvar resolution → resolution.isStrict = strict

/-- Every variable in a value follows the mode. -/
def Expr.FollowsMode (strict : Bool) (e : Expr) : Prop :=
  ∀ v ∈ e.variables, v.FollowsMode strict

/-- The values of arguments. -/
def Args.exprs (args : Args Expr) : List Expr := args.positional ++ args.named.map Named.value

section

variable {strict : Bool}

theorem exprsVariables_followMode {es : List Expr} (h : ∀ e ∈ es, e.FollowsMode strict) :
    ∀ v ∈ exprsVariables es, v.FollowsMode strict := by
  induction es with
  | nil => simp [exprsVariables]
  | cons e rest ih =>
    obtain ⟨hfirst, hrest⟩ := List.forall_mem_cons.mp h
    rw [exprsVariables]
    exact List.forall_mem_append.mpr ⟨hfirst, ih hrest⟩

theorem namedVariables_followMode {named : List (Named Expr)}
    (h : ∀ e ∈ named.map Named.value, e.FollowsMode strict) :
    ∀ v ∈ namedVariables named, v.FollowsMode strict := by
  induction named with
  | nil => simp [namedVariables]
  | cons n rest ih =>
    obtain ⟨hfirst, hrest⟩ := List.forall_mem_cons.mp h
    rw [namedVariables]
    exact List.forall_mem_append.mpr ⟨hfirst, ih hrest⟩

theorem path_followsMode {head : Variable} (h : head.FollowsMode strict) (tail : List String)
    (span : Span) : (Expr.path head tail span).FollowsMode strict := by
  intro v hv
  rw [Expr.variables] at hv
  exact List.mem_singleton.mp hv ▸ h

/-- A callee and its arguments. -/
theorem application_followsMode {callee : Expr} {args : Args Expr}
    (hcallee : callee.FollowsMode strict) (hargs : ∀ e ∈ args.exprs, e.FollowsMode strict) :
    ∀ v ∈ callee.variables ++ exprsVariables args.positional ++ namedVariables args.named,
      v.FollowsMode strict := by
  obtain ⟨hpositional, hnamed⟩ := List.forall_mem_append.mp hargs
  exact List.forall_mem_append.mpr ⟨List.forall_mem_append.mpr
    ⟨hcallee, exprsVariables_followMode hpositional⟩, namedVariables_followMode hnamed⟩

theorem conditionOf_followsMode {negated : Bool} {e : Expr} (h : e.FollowsMode strict) :
    (conditionOf negated e).FollowsMode strict := by
  cases negated with
  | false => exact h
  | true =>
    intro v hv
    rw [conditionOf, if_pos rfl, Expr.variables] at hv
    exact h v hv

/-- A variable that is no free name follows every mode. -/
theorem Variable.followsMode_of_ne {v : Variable}
    (h : ∀ upvar resolution, v.reference ≠ .free upvar resolution) : v.FollowsMode strict :=
  fun upvar resolution hfree => absurd hfree (h upvar resolution)

end

section

variable {o : Settings} {F : Symbols} {env : Scopes}

/-! ### Names -/

/-- No site asks surrounding code for a name. -/
theorem isStrict_of_site {site : Site} {simple : Bool} {resolution : Resolution}
    (h : site.resolution? simple = some resolution) : resolution.isStrict = false := by
  cases resolution with
  | loose registries fallback => rfl
  | strict =>
    exfalso
    cases site <;> cases simple <;> simp_all [Site.resolution?, Resolution.ofThis]

theorem ResolvesName.followsMode {site : Site} {simple : Bool} {name : String}
    {reference : Reference} (h : ResolvesName o F env site simple name reference) (span : Span) :
    Variable.FollowsMode o.strict ⟨name, reference, span⟩ := by
  intro upvar resolution hfree
  cases h with
  | bound hfind => cases hfree
  | provided hfind hstrict hlocal hupvar =>
    cases hfree
    exact hstrict.symm
  | loose hfind hloose hsite hupvar =>
    cases hfree
    rw [hloose]
    exact isStrict_of_site hsite

theorem ResolvesHead.followsMode {site : Site} {p : Template.Path} {head : Variable}
    (h : ResolvesHead o F env site p head) : head.FollowsMode o.strict := by
  cases h with
  | this hhead => exact Variable.followsMode_of_ne (by simp)
  | argument hhead hslot => exact Variable.followsMode_of_ne (by simp)
  | bare hhead hname => exact hname.followsMode _

theorem ResolvesTag.followsMode {name : String} {span : Span} {head : Variable}
    (h : ResolvesTag o F env name span head) : head.FollowsMode o.strict := by
  cases h with
  | argument harg hslot => exact Variable.followsMode_of_ne (by simp)
  | this harg hthis => exact Variable.followsMode_of_ne (by simp)
  | bound harg hthis hfind => exact Variable.followsMode_of_ne (by simp)
  | provided harg hthis hfind hstrict hlocal hupvar =>
    intro upvar resolution hfree
    cases hfree
    exact hstrict.symm
  | free harg hthis hfind hloose hupvar =>
    -- The one place that asks for a free name without a site is out of reach of a strict template.
    intro upvar resolution hfree
    cases hfree
    exact hloose.symm

/-! ### Values -/

mutual

theorem ResolvesExpr.followsMode {site : Site} {t : Template.Expr} {e : Expr} :
    ResolvesExpr o F env site t e → e.FollowsMode o.strict
  | .literal => by
    intro v hv
    rw [Expr.variables] at hv
    cases hv
  | .path hhead => path_followsMode hhead.followsMode _ _
  | .keyword _ hcall => hcall.followsMode
  | .call _ hcall => hcall.followsMode

theorem ResolvesExprs.followsMode {ts : List Template.Expr} {es : List Expr} :
    ResolvesExprs o F env ts es → ∀ e ∈ es, e.FollowsMode o.strict
  | .nil => by simp
  | .cons hvalue hvalues => List.forall_mem_cons.mpr ⟨hvalue.followsMode, hvalues.followsMode⟩

theorem ResolvesPairs.followsMode {ts : List (Template.Pair Template.Expr)}
    {named : List (Named Expr)} :
    ResolvesPairs o F env ts named → ∀ e ∈ named.map Named.value, e.FollowsMode o.strict
  | .nil => by simp
  | .cons hvalue hnamed => List.forall_mem_cons.mpr ⟨hvalue.followsMode, hnamed.followsMode⟩

theorem ResolvesCall.followsMode {site : Site} {span : Span} {t : Template.Call Template.Expr}
    {e : Expr} : ResolvesCall o F env site span t e → e.FollowsMode o.strict
  | .mk hcallee hparams hpairs => by
    rw [Expr.FollowsMode, Expr.variables]
    exact application_followsMode hcallee.followsMode
      (List.forall_mem_append.mpr ⟨hparams.followsMode, hpairs.followsMode⟩)

theorem ResolvesKeyword.followsMode {k : CallKeyword} {span : Span}
    {t : Template.Call Template.Expr} {e : Expr} :
    ResolvesKeyword o F env k span t e → e.FollowsMode o.strict
  | .branch _ hcondition htruthy => by
    rw [Expr.FollowsMode, Expr.variables, optionVariables, List.append_nil]
    exact List.forall_mem_append.mpr
      ⟨conditionOf_followsMode hcondition.followsMode, htruthy.followsMode⟩
  | .branchElse _ hcondition htruthy hfalsy => by
    rw [Expr.FollowsMode, Expr.variables, optionVariables]
    exact List.forall_mem_append.mpr ⟨List.forall_mem_append.mpr
      ⟨conditionOf_followsMode hcondition.followsMode, htruthy.followsMode⟩, hfalsy.followsMode⟩
  | .hasBlock _ _ _ | .hasBlockParams _ _ _ => by simp [Expr.FollowsMode, Expr.variables]
  | .curry hdefinition hparams hpairs => by
    rw [Expr.FollowsMode, Expr.variables]
    exact application_followsMode hdefinition.followsMode
      (List.forall_mem_append.mpr ⟨hparams.followsMode, hpairs.followsMode⟩)
  | .log _ hparams => by
    rw [Expr.FollowsMode, Expr.variables, namedVariables, List.append_nil]
    exact exprsVariables_followMode hparams.followsMode
  | .getDynamicVar _ hname => by
    rw [Expr.FollowsMode, Expr.variables]
    exact hname.followsMode

end

theorem ResolvesDynamic.followsMode {span : Span} {call : Template.Call Template.Expr}
    {callee : Expr} {args : Args Expr} (h : ResolvesDynamic o F env span call callee args) :
    ∀ e ∈ callee :: args.exprs, e.FollowsMode o.strict := by
  cases h with
  | mk hdefinition hparams hpairs =>
    exact List.forall_mem_cons.mpr ⟨hdefinition.followsMode,
      List.forall_mem_append.mpr ⟨hparams.followsMode, hpairs.followsMode⟩⟩

theorem ResolvesOptional.followsMode {key : String} {hash : Template.Hash Template.Expr}
    {value : Option Expr} (h : ResolvesOptional o F env key hash value) :
    ∀ e ∈ value.toList, e.FollowsMode o.strict := by
  cases h with
  | none hget => simp
  | some hget hvalue => simpa using hvalue.followsMode

/-! ### Attributes and modifiers -/

/-- The value of an attribute, if it has one of its own. -/
def Attr.exprs : Attr → List Expr
  | .attr _ value _ _ => [value]
  | .splat _ _ => []

/-- The values in the attributes and modifiers of an element. -/
def ElementParams.exprs (p : ElementParams) : List Expr :=
  p.attrs.flatMap Attr.exprs ++ p.modifiers.flatMap fun m => m.callee :: m.args.exprs

theorem textLiteral_followsMode {strict : Bool} (node : Template.TextNode) :
    (textLiteral node).FollowsMode strict := by
  simp [textLiteral, Expr.FollowsMode, Expr.variables]

theorem ResolvesAttrTag.followsMode {tag : Template.MustacheTag} {e : Expr}
    (h : ResolvesAttrTag o F env tag e) : e.FollowsMode o.strict := by
  cases h with
  | keyword hkeyword hcall => exact hcall.followsMode
  | bare hkeyword hparams hpairs hcallee => exact hcallee.followsMode
  | call hkeyword hcall => exact hcall.followsMode

theorem ResolvesPart.followsMode {part : Template.ConcatPart} {e : Expr}
    (h : ResolvesPart o F env part e) : e.FollowsMode o.strict := by
  cases h with
  | text => exact textLiteral_followsMode _
  | mustache htag => exact htag.followsMode

/-- What holds of the outcome of each member holds of all outcomes. -/
theorem forall_of_forall₂ {α β : Type} {R : α → β → Prop} {P : β → Prop}
    (hP : ∀ {a b}, R a b → P b) {as : List α} {bs : List β} (h : List.Forall₂ R as bs) :
    ∀ b ∈ bs, P b := by
  induction h with
  | nil => simp
  | cons hfirst _ ih => exact List.forall_mem_cons.mpr ⟨hP hfirst, ih⟩

theorem ResolvesAttrValue.followsMode {value : Template.AttrValue} {e : Expr}
    (h : ResolvesAttrValue o F env value e) : e.FollowsMode o.strict := by
  cases h with
  | text => exact textLiteral_followsMode _
  | mustache htag => exact htag.followsMode
  | concat hparts =>
    rw [Expr.FollowsMode, Expr.variables]
    exact exprsVariables_followMode (forall_of_forall₂ (fun h => h.followsMode) hparts)

theorem ResolvesAttr.followsMode {t : Template.Attr} {a : Attr} (h : ResolvesAttr o F env t a) :
    ∀ e ∈ a.exprs, e.FollowsMode o.strict := by
  cases h with
  | splat hname hslot => simp [Attr.exprs]
  | attr hname hvalue => simpa [Attr.exprs] using hvalue.followsMode

theorem ResolvesAttrs.followsMode {ts : List Template.Attr} {attrs : List Attr}
    {args : List (Named Expr)} (h : ResolvesAttrs o F env ts attrs args) :
    (∀ a ∈ attrs, ∀ e ∈ a.exprs, e.FollowsMode o.strict) ∧
      ∀ e ∈ args.map Named.value, e.FollowsMode o.strict := by
  induction h with
  | nil => simp
  | argument hname hvalue hrest ih =>
    exact ⟨ih.1, List.forall_mem_cons.mpr ⟨hvalue.followsMode, ih.2⟩⟩
  | attr hname hattr hrest ih =>
    exact ⟨List.forall_mem_cons.mpr ⟨hattr.followsMode, ih.1⟩, ih.2⟩

theorem ResolvesModifier.followsMode {t : Template.Modifier} {m : Modifier}
    (h : ResolvesModifier o F env t m) :
    ∀ e ∈ m.callee :: m.args.exprs, e.FollowsMode o.strict := by
  cases h with
  | mk hcallee hparams hpairs =>
    exact List.forall_mem_cons.mpr ⟨hcallee.followsMode,
      List.forall_mem_append.mpr ⟨hparams.followsMode, hpairs.followsMode⟩⟩

theorem elementParams_followMode {strict : Bool} {attrs : List Attr} {modifiers : List Modifier}
    (hattrs : ∀ a ∈ attrs, ∀ e ∈ a.exprs, e.FollowsMode strict)
    (hmodifiers : ∀ m ∈ modifiers, ∀ e ∈ m.callee :: m.args.exprs, e.FollowsMode strict) :
    ∀ e ∈ (ElementParams.mk attrs modifiers).exprs, e.FollowsMode strict := by
  intro e he
  rcases List.mem_append.mp he with he | he
  · obtain ⟨a, ha, he⟩ := List.mem_flatMap.mp he
    exact hattrs a ha e he
  · obtain ⟨m, hm, he⟩ := List.mem_flatMap.mp he
    exact hmodifiers m hm e he

end

/-! ### Content -/

/-- The values that stand in a piece of content itself. -/
def Content.exprs : Content → List Expr
  | .text chars span => [.literal (.string chars) span]
  | .comment _ _ | .hiddenComment _ _ | .debugger _ _ => []
  | .append value _ _ | .partialCall value _ _ => [value]
  | .invokeBlock callee args _ _ | .invokeDynamic callee args _ _ => callee :: args.exprs
  | .invokeComponent callee params args _ _ => callee :: (params.exprs ++ args.map Named.value)
  | .element _ params _ _ => params.exprs
  | .branch value _ _ _ | .withValue value _ _ _ => [value]
  | .each value key _ _ _ => value :: key.toList
  | .letValues positional _ _ | .yield _ positional _ => positional
  | .inElement _ destination insertBefore _ _ => destination :: insertBefore.toList
  | .withDynamicVars named _ _ => named.map Named.value

/-- Whether a piece of content is a partial. -/
def Content.isPartial : Content → Bool
  | .partialCall _ _ _ => true
  | _ => false

mutual

/-- All that is inside of a piece of content. -/
def Content.inside : Content → List Content
  | .text _ _ | .comment _ _ | .hiddenComment _ _ | .append _ _ _ => []
  | .yield _ _ _ | .debugger _ _ | .partialCall _ _ _ => []
  | .invokeBlock _ _ blocks _ | .invokeDynamic _ _ blocks _ => namedBlocksWithin blocks
  | .invokeComponent _ _ _ blocks _ => namedBlocksWithin blocks
  | .element _ _ body _ => contentsWithin body
  | .branch _ block inverse _ | .each _ _ block inverse _ | .withValue _ block inverse _ =>
    blockWithin block ++ otherWithin inverse
  | .letValues _ block _ | .inElement _ _ _ block _ | .withDynamicVars _ block _ =>
    blockWithin block

/-- Content and all that is inside of it. -/
def contentsWithin : List Content → List Content
  | [] => []
  | c :: rest => c :: (c.inside ++ contentsWithin rest)

/-- All that is inside of a block. -/
def blockWithin : Block Content → List Content
  | ⟨_, body, _⟩ => contentsWithin body

/-- All that is inside of blocks with names. -/
def namedBlocksWithin : List (NamedBlock Content) → List Content
  | [] => []
  | named :: rest => blockWithin named.block ++ namedBlocksWithin rest

/-- All that is inside of a block that may be missing. -/
def otherWithin : Option (Block Content) → List Content
  | none => []
  | some block => blockWithin block

end

/-- Every variable in a resolved template. -/
def Body.variables (b : Body) : List Variable :=
  (contentsWithin b.body).flatMap fun c => c.exprs.flatMap Expr.variables

/-- The values in a piece of content follow the mode, and it is a partial only
in a loose template. -/
structure Content.FollowsMode (strict : Bool) (c : Content) : Prop where
  exprs : ∀ e ∈ c.exprs, e.FollowsMode strict
  partialCall : c.isPartial = true → strict = false

/-- Everything that is written follows the mode. -/
def FollowMode (strict : Bool) (cs : List Content) : Prop := ∀ c ∈ cs, c.FollowsMode strict

section

variable {o : Settings} {F : Symbols}

theorem FollowMode.nil {strict : Bool} : FollowMode strict [] := by
  intro c hc
  cases hc

theorem FollowMode.append {strict : Bool} {as bs : List Content} (ha : FollowMode strict as)
    (hb : FollowMode strict bs) : FollowMode strict (as ++ bs) :=
  List.forall_mem_append.mpr ⟨ha, hb⟩

/-- A piece of content that is no partial, with what is inside of it. -/
theorem FollowMode.cons {strict : Bool} {c : Content} {cs : List Content}
    (hc : c.isPartial = false) (hexprs : ∀ e ∈ c.exprs, e.FollowsMode strict)
    (hcs : FollowMode strict cs) : FollowMode strict (c :: cs) :=
  List.forall_mem_cons.mpr ⟨⟨hexprs, fun hpartial => absurd hpartial (by simp [hc])⟩, hcs⟩

theorem ResolvesAppendForm.followsMode {env : Scopes} {tag : Template.MustacheTag}
    {k : AppendKeyword} {c : Content} (h : ResolvesAppendForm o F env tag k c) :
    FollowMode o.strict (c :: c.inside) := by
  cases h with
  | yield htakes hto hslot hparams =>
    rw [Content.inside]
    exact .cons rfl hparams.followsMode .nil
  | partialCall hloose htakes hparams htarget =>
    rw [Content.inside]
    refine List.forall_mem_singleton.mpr ⟨?_, fun _ => hloose⟩
    exact List.forall_mem_singleton.mpr htarget.followsMode
  | debugger htakes hparams =>
    rw [Content.inside]
    exact .cons rfl (by simp [Content.exprs]) .nil
  | component hcall =>
    rw [Content.inside, namedBlocksWithin]
    exact .cons rfl hcall.followsMode .nil
  | value hcall =>
    rw [Content.inside]
    exact .cons rfl (List.forall_mem_singleton.mpr hcall.followsMode) .nil

theorem ResolvesAppend.followsMode {env : Scopes} {tag : Template.MustacheTag} {c : Content}
    (h : ResolvesAppend o F env tag c) : FollowMode o.strict (c :: c.inside) := by
  cases h with
  | keyword hkeyword hform => exact hform.followsMode
  | bare hkeyword hparams hpairs hcallee =>
    rw [Content.inside]
    exact .cons rfl (List.forall_mem_singleton.mpr hcallee.followsMode) .nil
  | call hkeyword hcall =>
    rw [Content.inside]
    exact .cons rfl (List.forall_mem_singleton.mpr hcall.followsMode) .nil

/-- The branches of a block, as blocks with names. -/
theorem branchBlocks_followMode {strict : Bool} {program : Template.Block Statement}
    {inverse : Option (Template.Block Statement)} {block : Block Content}
    {other : Option (Block Content)} (hblock : FollowMode strict (blockWithin block))
    (hother : FollowMode strict (otherWithin other)) :
    FollowMode strict (namedBlocksWithin (branchBlocks program inverse block other)) := by
  unfold branchBlocks
  split
  · simp only [namedBlocksWithin, List.append_nil]
    exact hblock.append (by simpa only [otherWithin] using hother)
  · simpa only [namedBlocksWithin, List.append_nil] using hblock

theorem ResolvesBlockForm.followsMode {env : Scopes} {tag : Template.BlockTag}
    {program : Template.Block Statement} {inverse : Option (Template.Block Statement)}
    {block : Block Content} {other : Option (Block Content)} {k : BlockKeyword} {c : Content}
    (hblock : FollowMode o.strict (blockWithin block))
    (hother : FollowMode o.strict (otherWithin other))
    (h : ResolvesBlockForm o F env tag program inverse block other k c) :
    FollowMode o.strict (c :: c.inside) := by
  -- The values of the block follow the mode, and so do its branches by assumption.
  cases h with
  | branch htakes hparams hcondition =>
    rw [Content.inside]
    exact .cons rfl (List.forall_mem_singleton.mpr (conditionOf_followsMode hcondition.followsMode))
      (hblock.append hother)
  | each htakes hparams hvalue hkey =>
    rw [Content.inside]
    exact .cons rfl (List.forall_mem_cons.mpr ⟨hvalue.followsMode, hkey.followsMode⟩)
      (hblock.append hother)
  | withValue htakes hparams hvalue =>
    rw [Content.inside]
    exact .cons rfl (List.forall_mem_singleton.mpr hvalue.followsMode) (hblock.append hother)
  | letValues htakes hinverse hparams =>
    rw [Content.inside]
    exact .cons rfl hparams.followsMode hblock
  | inElement htakes hinverse hparams hdestination hinsert =>
    rw [Content.inside]
    exact .cons rfl
      (List.forall_mem_cons.mpr ⟨hdestination.followsMode, hinsert.followsMode⟩) hblock
  | component hcall =>
    rw [Content.inside]
    exact .cons rfl hcall.followsMode (branchBlocks_followMode hblock hother)
  | withDynamicVars hparams hinverse hpairs =>
    rw [Content.inside]
    exact .cons rfl hpairs.followsMode hblock

mutual

theorem ResolvesStatement.followsMode {env : Scopes} {t : Statement} {c : Content} :
    ResolvesStatement o F env t c → FollowMode o.strict (c :: c.inside)
  | .text => by
    rw [Content.inside]
    exact .cons rfl (by simp [Content.exprs, Expr.FollowsMode, Expr.variables]) .nil
  | .comment | .hiddenComment => by
    rw [Content.inside]
    exact .cons rfl (by simp [Content.exprs]) .nil
  | .mustache htag => htag.followsMode
  | .blockForm _ hblock hother hform => hform.followsMode hblock.followsMode hother.followsMode
  | .invokeBlock _ hcallee hparams hpairs hblock hother => by
    rw [Content.inside]
    refine .cons rfl (List.forall_mem_cons.mpr ⟨hcallee.followsMode, ?_⟩)
      (branchBlocks_followMode hblock.followsMode hother.followsMode)
    exact List.forall_mem_append.mpr ⟨hparams.followsMode, hpairs.followsMode⟩
  | .element _ _ hattrs hmodifiers hbody => by
    rw [Content.inside]
    exact .cons rfl (elementParams_followMode (forall_of_forall₂ (fun h => h.followsMode) hattrs)
      (forall_of_forall₂ (fun h => h.followsMode) hmodifiers)) hbody.followsMode
  | .component _ _ hhead hattrs hmodifiers hblocks => by
    have hparams := elementParams_followMode hattrs.followsMode.1
      (forall_of_forall₂ (fun h => h.followsMode) hmodifiers)
    rw [Content.inside]
    exact .cons rfl (List.forall_mem_cons.mpr ⟨path_followsMode hhead.followsMode _ _,
      List.forall_mem_append.mpr ⟨hparams, hattrs.followsMode.2⟩⟩) hblocks.followsMode

theorem ResolvesStatements.followsMode {env : Scopes} {ts : List Statement} {cs : List Content} :
    ResolvesStatements o F env ts cs → FollowMode o.strict (contentsWithin cs)
  | .nil => by
    rw [contentsWithin]
    exact .nil
  | .cons hfirst hrest => by
    rw [contentsWithin, ← List.cons_append]
    exact hfirst.followsMode.append hrest.followsMode

theorem ResolvesBlock.followsMode {env : Scopes} {t : Template.Block Statement}
    {b : Block Content} : ResolvesBlock o F env t b → FollowMode o.strict (blockWithin b)
  | .mk _ _ hbody => by
    rw [blockWithin]
    exact hbody.followsMode

theorem ResolvesOther.followsMode {env : Scopes} {t : Option (Template.Block Statement)}
    {b : Option (Block Content)} :
    ResolvesOther o F env t b → FollowMode o.strict (otherWithin b)
  | .none => by
    rw [otherWithin]
    exact .nil
  | .some hblock => by
    rw [otherWithin]
    exact hblock.followsMode

theorem ResolvesChildren.followsMode {env : Scopes} {tag : Template.StartTag}
    {ts : List Statement} {span : Span} {blocks : List (NamedBlock Content)} :
    ResolvesChildren o F env tag ts span blocks → FollowMode o.strict (namedBlocksWithin blocks)
  | .named _ _ hblocks => hblocks.followsMode
  | .selfClosing _ _ => by
    rw [namedBlocksWithin]
    exact .nil
  | .default _ _ hblock => by
    simpa only [namedBlocksWithin, List.append_nil] using hblock.followsMode

theorem ResolvesNamedBlocks.followsMode {env : Scopes} {seen : List String}
    {ts : List Statement} {blocks : List (NamedBlock Content)} :
    ResolvesNamedBlocks o F env seen ts blocks → FollowMode o.strict (namedBlocksWithin blocks)
  | .nil => by
    rw [namedBlocksWithin]
    exact .nil
  | .block _ _ _ _ _ _ hblock hrest => by
    rw [namedBlocksWithin]
    exact hblock.followsMode.append hrest.followsMode
  | .between _ hrest => hrest.followsMode

end

end

/-! ### Templates -/

/-- Before the walk there are no free names. -/
theorem start_followsMode (o : Settings) : (start o).symbols.FollowsMode o.strict :=
  ⟨fun _ => ⟨rfl, List.nodup_nil, fun _ hname => absurd hname List.not_mem_nil⟩, fun _ => rfl⟩

theorem resolve_symbols_followMode {t : Template} {o : Settings} {body : Body} {p : Progress}
    (h : t.resolve o = (.ok body, p)) : p.symbols.FollowsMode o.strict :=
  (resolve_outcome h).mode (start_followsMode o)

theorem resolve_followsMode {t : Template} {o : Settings} {body : Body} {p : Progress}
    (h : t.resolve o = (.ok body, p)) : FollowMode o.strict (contentsWithin body.body) :=
  ((resolve_outcome h).holds p.symbols (Symbols.Grows.refl _)).followsMode

end TemplateCompiler.Resolved
