/-
Programs are well scoped.

A program refers to its names by number: values and statements read slots and
upvars, and blocks fill the slots of their parameters.

* `Program.uses` — every number that a program reads, each with the parameters
  of the blocks around it;
* `Program.blockParams` — the parameters of every block;
* `Program.WellScoped` — every number has a name, blocks are asked for in the
  slots of blocks, block parameters are read inside their blocks, and no two
  blocks share a slot;
* `encode_wellScoped` — what a template is compiled to is well scoped.
-/
import TemplateCompiler.Proofs.Resolved.Agreement
import TemplateCompiler.Wire.Encode

namespace TemplateCompiler.Wire

/-! ### What a program reads -/

/-- A number that a program reads. -/
inductive Use where
  /-- The slot of a value. -/
  | symbol (slot : Nat)
  /-- A free name. -/
  | free (upvar : Nat)
  /-- The slot of a block. -/
  | block (slot : Nat)
deriving DecidableEq, Repr

/-- A number that is read inside blocks with the given parameters, the innermost
first. -/
structure Occurrence where
  use : Use
  scopes : List (List Nat)
deriving DecidableEq, Repr

mutual

/-- What a value reads. -/
def Expr.uses : Expr → List Use
  | .literal _ => []
  | .getSymbol slot _ => [.symbol slot]
  | .getFree _ upvar _ => [.free upvar]
  | .call callee params hash => callee.uses ++ exprsUses params ++ entriesUses hash
  | .concat parts => exprsUses parts
  | .hasBlock slot | .hasBlockParams slot => [.block slot]
  | .curry definition _ params hash => definition.uses ++ exprsUses params ++ entriesUses hash
  | .not value => value.uses
  | .ifInline condition truthy falsy => condition.uses ++ truthy.uses ++ optionUses falsy
  | .getDynamicVar name => name.uses
  | .log params => exprsUses params

/-- What values in order read. -/
def exprsUses : List Expr → List Use
  | [] => []
  | e :: rest => e.uses ++ exprsUses rest

/-- What values with names read. -/
def entriesUses : List (Entry Expr) → List Use
  | [] => []
  | entry :: rest => entry.value.uses ++ entriesUses rest

/-- What a value that may be missing reads. -/
def optionUses : Option Expr → List Use
  | none => []
  | some e => e.uses

end

/-- Numbers that are read at one place. -/
def occurrences (scopes : List (List Nat)) (uses : List Use) : List Occurrence :=
  uses.map fun use => ⟨use, scopes⟩

mutual

/-- What a statement reads, given the parameters of the blocks around it. -/
def Statement.uses (scopes : List (List Nat)) : Statement → List Occurrence
  | .comment _ | .openElement _ _ | .flushElement | .closeElement | .staticAttr _ _ _ _ => []
  | .debugger _ => []
  | .append value _ => occurrences scopes value.uses
  | .modifier callee params hash =>
    occurrences scopes (callee.uses ++ exprsUses params ++ entriesUses hash)
  | .dynamicAttr _ value _ _ _ => occurrences scopes value.uses
  | .attrSplat slot => occurrences scopes [.block slot]
  | .yield target params => occurrences scopes (.block target :: exprsUses params)
  | .partialCall target _ => occurrences scopes target.uses
  | .block callee params hash blocks | .invokeComponent callee params hash blocks =>
    occurrences scopes (callee.uses ++ exprsUses params ++ entriesUses hash)
      ++ entryBlocksUses scopes blocks
  | .component tag params hash blocks =>
    occurrences scopes (tag.uses ++ entriesUses hash) ++ statementsUses scopes params
      ++ entryBlocksUses scopes blocks
  | .inElement block _ destination insertBefore =>
    occurrences scopes (destination.uses ++ optionUses insertBefore) ++ blockUses scopes block
  | .branch condition block inverse =>
    occurrences scopes condition.uses ++ blockUses scopes block ++ otherUses scopes inverse
  | .each value key block inverse =>
    occurrences scopes (value.uses ++ optionUses key) ++ blockUses scopes block
      ++ otherUses scopes inverse
  | .withValue value block inverse =>
    occurrences scopes value.uses ++ blockUses scopes block ++ otherUses scopes inverse
  | .letValues positional block =>
    occurrences scopes (exprsUses positional) ++ blockUses scopes block
  | .withDynamicVars hash block => occurrences scopes (entriesUses hash) ++ blockUses scopes block

/-- What statements read. -/
def statementsUses (scopes : List (List Nat)) : List Statement → List Occurrence
  | [] => []
  | s :: rest => s.uses scopes ++ statementsUses scopes rest

/-- What a block reads: its parameters are around its statements. -/
def blockUses (scopes : List (List Nat)) : Block Statement → List Occurrence
  | ⟨statements, params⟩ => statementsUses (params :: scopes) statements

/-- What blocks with names read. -/
def entryBlocksUses (scopes : List (List Nat)) : List (Entry (Block Statement)) → List Occurrence
  | [] => []
  | entry :: rest => blockUses scopes entry.value ++ entryBlocksUses scopes rest

/-- What a block that may be missing reads. -/
def otherUses (scopes : List (List Nat)) : Option (Block Statement) → List Occurrence
  | none => []
  | some block => blockUses scopes block

end

/-! ### The parameters of blocks -/

mutual

/-- The parameters of every block in a statement. -/
def Statement.blockParams : Statement → List (List Nat)
  | .comment _ | .openElement _ _ | .flushElement | .closeElement | .staticAttr _ _ _ _ => []
  | .append _ _ | .modifier _ _ _ | .dynamicAttr _ _ _ _ _ | .attrSplat _ | .yield _ _ => []
  | .partialCall _ _ | .debugger _ => []
  | .block _ _ _ blocks | .invokeComponent _ _ _ blocks => entryBlocksParams blocks
  | .component _ params _ blocks => statementsParams params ++ entryBlocksParams blocks
  | .branch _ block inverse | .each _ _ block inverse | .withValue _ block inverse =>
    blockParams block ++ otherParams inverse
  | .inElement block _ _ _ | .letValues _ block | .withDynamicVars _ block => blockParams block

/-- The parameters of every block in statements. -/
def statementsParams : List Statement → List (List Nat)
  | [] => []
  | s :: rest => s.blockParams ++ statementsParams rest

/-- The parameters of a block and of every block in it. -/
def blockParams : Block Statement → List (List Nat)
  | ⟨statements, params⟩ => params :: statementsParams statements

/-- The parameters of every block in blocks with names. -/
def entryBlocksParams : List (Entry (Block Statement)) → List (List Nat)
  | [] => []
  | entry :: rest => blockParams entry.value ++ entryBlocksParams rest

/-- The parameters of every block in a block that may be missing. -/
def otherParams : Option (Block Statement) → List (List Nat)
  | none => []
  | some block => blockParams block

end

theorem statementsUses_append (scopes : List (List Nat)) (a b : List Statement) :
    statementsUses scopes (a ++ b) = statementsUses scopes a ++ statementsUses scopes b := by
  induction a with
  | nil => simp [statementsUses]
  | cons s rest ih => simp only [List.cons_append, statementsUses, ih, List.append_assoc]

theorem mem_statementsUses {scopes : List (List Nat)} {x : Occurrence} {ss : List Statement} :
    x ∈ statementsUses scopes ss ↔ ∃ s ∈ ss, x ∈ s.uses scopes := by
  induction ss with
  | nil => simp [statementsUses]
  | cons s rest ih => simp [statementsUses, ih]

theorem statementsParams_append (a b : List Statement) :
    statementsParams (a ++ b) = statementsParams a ++ statementsParams b := by
  induction a with
  | nil => simp [statementsParams]
  | cons s rest ih => simp only [List.cons_append, statementsParams, ih, List.append_assoc]

theorem statementsParams_eq_nil {ss : List Statement} (h : ∀ s ∈ ss, s.blockParams = []) :
    statementsParams ss = [] := by
  induction ss with
  | nil => simp [statementsParams]
  | cons s rest ih =>
    rw [statementsParams, h s List.mem_cons_self, ih fun s hs => h s (List.mem_cons_of_mem _ hs),
      List.append_nil]

/-! ### Scoping -/

namespace Program

/-- Everything that a program reads. -/
def uses (p : Program) : List Occurrence := statementsUses [] p.statements

/-- The parameters of every block of a program. -/
def blockParams (p : Program) : List (List Nat) := statementsParams p.statements

/-- The name in a slot; slots are counted from one. -/
def symbol? (p : Program) (slot : Nat) : Option String :=
  if slot = 0 then none else p.symbols[slot - 1]?

/-- The numbers of a program fit together. -/
structure WellScoped (p : Program) : Prop where
  /-- A slot that is read is that of `this` or of a symbol. -/
  slots : ∀ {slot scopes}, ⟨.symbol slot, scopes⟩ ∈ p.uses →
    slot = 0 ∨ 1 ≤ slot ∧ slot ≤ p.symbols.length
  /-- A free name that is read is among the upvars. -/
  upvars : ∀ {upvar scopes}, ⟨.free upvar, scopes⟩ ∈ p.uses → upvar < p.upvars.length
  /-- A block that is asked for is in the slot of a block. -/
  blocks : ∀ {slot scopes}, ⟨.block slot, scopes⟩ ∈ p.uses →
    ∃ name, p.symbol? slot = some name ∧ name.toList.head? = some '&'
  /-- A symbol that is neither an argument nor a block is read inside a block
  that has it as a parameter. -/
  locals : ∀ {slot scopes name}, ⟨.symbol slot, scopes⟩ ∈ p.uses → p.symbol? slot = some name →
    name.toList.head? ≠ some '@' → name.toList.head? ≠ some '&' → ∃ params ∈ scopes, slot ∈ params
  /-- No two blocks have a parameter in common. -/
  params : p.blockParams.Pairwise List.Disjoint

end Program

end TemplateCompiler.Wire

namespace TemplateCompiler.Resolved

open Template (Statement)
open Wire (Use Occurrence occurrences exprsUses entriesUses optionUses statementsUses)

/-! ### What resolved content reads -/

/-- The slots of the scopes around a place. -/
def Scopes.slots (env : Scopes) : List (List Nat) := env.map fun scope => scope.map Prod.snd

/-- The slots of the scopes around a place hold the names they were given to. -/
def Scopes.Hold (env : Scopes) (F : Symbols) : Prop :=
  ∀ scope ∈ env, ∀ entry ∈ scope, F.Holds entry.2 entry.1

/-- A number has a name of its kind, and a block parameter is read inside its
block. -/
def ReadsWell (F : Symbols) (scopes : List (List Nat)) : Use → Prop
  | .symbol slot => slot = 0 ∨ ∃ name, F.Holds slot name ∧
      (name.toList.head? = some '@' ∨ ∃ params ∈ scopes, slot ∈ params)
  | .free upvar => upvar < F.upvars.length
  | .block slot => ∃ name, F.Holds slot name ∧ name.toList.head? = some '&'

section

variable {o : Settings} {F : Symbols} {env : Scopes}

/-- A slot that is found is that of a parameter around the place. -/
theorem Scopes.Hold.find? (henv : env.Hold F) {name : String} {slot : Nat}
    (hfind : env.find? name = some slot) :
    F.Holds slot name ∧ ∃ params ∈ env.slots, slot ∈ params := by
  obtain ⟨scope, hscope, hlookup⟩ := List.exists_of_findSome?_eq_some hfind
  obtain ⟨before, after, rfl, -⟩ := List.lookup_eq_some_iff.mp hlookup
  have hentry : (name, slot) ∈ before ++ (name, slot) :: after := by simp
  exact ⟨henv _ hscope _ hentry, _, List.mem_map_of_mem hscope, List.mem_map_of_mem hentry⟩

theorem lt_of_upvar {upvar : Nat} {name : String} (h : F.upvars[upvar]? = some name) :
    upvar < F.upvars.length := by
  obtain ⟨hlt, -⟩ := List.getElem?_eq_some_iff.mp h
  exact hlt

/-- Reading a block parameter around the place. -/
theorem readsWell_bound (henv : env.Hold F) {name : String} {slot : Nat}
    (hfind : env.find? name = some slot) : ReadsWell F env.slots (.symbol slot) := by
  obtain ⟨hholds, hparams⟩ := henv.find? hfind
  exact .inr ⟨name, hholds, .inr hparams⟩

theorem ResolvesName.readsWell {site : Site} {simple : Bool} {name : String}
    {reference : Reference} (henv : env.Hold F)
    (h : ResolvesName o F env site simple name reference) (tail : List String) :
    ∀ u ∈ (reference.encode tail).uses, ReadsWell F env.slots u := by
  intro u hu
  cases h with
  | bound hfind =>
    obtain rfl := List.mem_singleton.mp hu
    exact readsWell_bound henv hfind
  | provided hfind hstrict hlocal hupvar =>
    obtain rfl := List.mem_singleton.mp hu
    exact lt_of_upvar hupvar
  | loose hfind hloose hsite hupvar =>
    obtain rfl := List.mem_singleton.mp hu
    exact lt_of_upvar hupvar

theorem ResolvesHead.readsWell {site : Site} {p : Template.Path} {head : Variable}
    (henv : env.Hold F) (h : ResolvesHead o F env site p head) (tail : List String) :
    ∀ u ∈ (head.reference.encode tail).uses, ReadsWell F env.slots u := by
  cases h with
  | this hhead =>
    intro u hu
    obtain rfl := List.mem_singleton.mp hu
    exact .inl rfl
  | argument hhead hslot =>
    intro u hu
    obtain rfl := List.mem_singleton.mp hu
    exact .inr ⟨_, hslot, .inl (by simp)⟩
  | bare hhead hname => exact hname.readsWell henv tail

theorem ResolvesTag.readsWell {name : String} {span : Span} {head : Variable}
    (henv : env.Hold F) (h : ResolvesTag o F env name span head) (tail : List String) :
    ∀ u ∈ (head.reference.encode tail).uses, ReadsWell F env.slots u := by
  intro u hu
  cases h with
  | argument harg hslot =>
    obtain rfl := List.mem_singleton.mp hu
    exact .inr ⟨name, hslot, .inl (by simpa [isArgumentName] using harg)⟩
  | this harg hthis =>
    obtain rfl := List.mem_singleton.mp hu
    exact .inl rfl
  | bound harg hthis hfind =>
    obtain rfl := List.mem_singleton.mp hu
    exact readsWell_bound henv hfind
  | provided harg hthis hfind hstrict hlocal hupvar =>
    obtain rfl := List.mem_singleton.mp hu
    exact lt_of_upvar hupvar
  | free harg hthis hfind hloose hupvar =>
    obtain rfl := List.mem_singleton.mp hu
    exact lt_of_upvar hupvar

theorem AsksFor.readsWell {params : List Template.Expr} {slot : Nat} (h : AsksFor F params slot)
    (scopes : List (List Nat)) : ReadsWell F scopes (.block slot) := by
  cases h with
  | default hslot => exact ⟨_, hslot, by decide⟩
  | named hslot => exact ⟨_, hslot, by simp⟩

theorem conditionOf_uses (negated : Bool) (e : Expr) :
    (conditionOf negated e).encode.uses = e.encode.uses := by
  cases negated <;> simp [conditionOf, Expr.encode, Wire.Expr.uses]

mutual

theorem ResolvesExpr.readsWell (henv : env.Hold F) {site : Site} {t : Template.Expr} {e : Expr} :
    ResolvesExpr o F env site t e → ∀ u ∈ e.encode.uses, ReadsWell F env.slots u
  | .literal => by simp [Expr.encode, Wire.Expr.uses]
  | .path hhead => by
    simp only [Expr.encode]
    exact hhead.readsWell henv _
  | .keyword _ hcall => hcall.readsWell henv
  | .call _ hcall => hcall.readsWell henv

theorem ResolvesExprs.readsWell (henv : env.Hold F) {ts : List Template.Expr} {es : List Expr} :
    ResolvesExprs o F env ts es → ∀ u ∈ exprsUses (encodeExprs es), ReadsWell F env.slots u
  | .nil => by simp [encodeExprs, exprsUses]
  | .cons hvalue hvalues => by
    simp only [encodeExprs, exprsUses]
    exact List.forall_mem_append.mpr ⟨hvalue.readsWell henv, hvalues.readsWell henv⟩

theorem ResolvesPairs.readsWell (henv : env.Hold F) {ts : List (Template.Pair Template.Expr)}
    {es : List (Named Expr)} :
    ResolvesPairs o F env ts es → ∀ u ∈ entriesUses (encodeNamed es), ReadsWell F env.slots u
  | .nil => by simp [encodeNamed, entriesUses]
  | .cons hvalue hnamed => by
    simp only [encodeNamed, entriesUses]
    exact List.forall_mem_append.mpr ⟨hvalue.readsWell henv, hnamed.readsWell henv⟩

theorem ResolvesCall.readsWell (henv : env.Hold F) {site : Site} {span : Span}
    {t : Template.Call Template.Expr} {e : Expr} :
    ResolvesCall o F env site span t e → ∀ u ∈ e.encode.uses, ReadsWell F env.slots u
  | .mk hcallee hparams hpairs => by
    simp only [Expr.encode, Wire.Expr.uses]
    exact List.forall_mem_append.mpr ⟨List.forall_mem_append.mpr
      ⟨hcallee.readsWell henv, hparams.readsWell henv⟩, hpairs.readsWell henv⟩

theorem ResolvesKeyword.readsWell (henv : env.Hold F) {k : CallKeyword} {span : Span}
    {t : Template.Call Template.Expr} {e : Expr} :
    ResolvesKeyword o F env k span t e → ∀ u ∈ e.encode.uses, ReadsWell F env.slots u
  -- What a value reads is what its parts read, in the same scopes.
  | .branch _ hcondition htruthy => by
    simp only [Expr.encode, encodeOption, Wire.Expr.uses, optionUses, conditionOf_uses,
      List.append_nil]
    exact List.forall_mem_append.mpr ⟨hcondition.readsWell henv, htruthy.readsWell henv⟩
  | .branchElse _ hcondition htruthy hfalsy => by
    simp only [Expr.encode, encodeOption, Wire.Expr.uses, optionUses, conditionOf_uses]
    exact List.forall_mem_append.mpr ⟨List.forall_mem_append.mpr
      ⟨hcondition.readsWell henv, htruthy.readsWell henv⟩, hfalsy.readsWell henv⟩
  | .hasBlock _ _ hasked | .hasBlockParams _ _ hasked => by
    intro u hu
    simp only [Expr.encode, Wire.Expr.uses, List.mem_singleton] at hu
    exact hu ▸ hasked.readsWell _
  | .curry hdefinition hparams hpairs => by
    simp only [Expr.encode, Wire.Expr.uses]
    exact List.forall_mem_append.mpr ⟨List.forall_mem_append.mpr
      ⟨hdefinition.readsWell henv, hparams.readsWell henv⟩, hpairs.readsWell henv⟩
  | .log _ hparams => by
    simp only [Expr.encode, Wire.Expr.uses]
    exact hparams.readsWell henv
  | .getDynamicVar _ hname => by
    simp only [Expr.encode, Wire.Expr.uses]
    exact hname.readsWell henv

end

/-! ### Attributes and modifiers -/

/-- Every number that is read has a name of its kind. -/
def AllReadWell (F : Symbols) (xs : List Occurrence) : Prop :=
  ∀ x ∈ xs, ReadsWell F x.scopes x.use

theorem AllReadWell.nil : AllReadWell F [] := by
  intro x hx
  cases hx

theorem AllReadWell.append {xs ys : List Occurrence} (hxs : AllReadWell F xs)
    (hys : AllReadWell F ys) : AllReadWell F (xs ++ ys) :=
  List.forall_mem_append.mpr ⟨hxs, hys⟩

theorem AllReadWell.occurrences {scopes : List (List Nat)} {uses : List Use}
    (h : ∀ u ∈ uses, ReadsWell F scopes u) : AllReadWell F (occurrences scopes uses) := by
  intro x hx
  obtain ⟨u, hu, rfl⟩ := List.mem_map.mp hx
  exact h u hu

theorem ResolvesAttrTag.readsWell (henv : env.Hold F) {tag : Template.MustacheTag} {e : Expr}
    (h : ResolvesAttrTag o F env tag e) : ∀ u ∈ e.encode.uses, ReadsWell F env.slots u := by
  cases h with
  | keyword hkeyword hcall => exact hcall.readsWell henv
  | bare hkeyword hparams hpairs hcallee => exact hcallee.readsWell henv
  | call hkeyword hcall => exact hcall.readsWell henv

theorem ResolvesPart.readsWell (henv : env.Hold F) {part : Template.ConcatPart} {e : Expr}
    (h : ResolvesPart o F env part e) : ∀ u ∈ e.encode.uses, ReadsWell F env.slots u := by
  cases h with
  | text => simp [textLiteral, Expr.encode, Wire.Expr.uses]
  | mustache htag => exact htag.readsWell henv

theorem parts_readsWell (henv : env.Hold F) {parts : List Template.ConcatPart} {es : List Expr}
    (h : List.Forall₂ (ResolvesPart o F env) parts es) :
    ∀ u ∈ exprsUses (encodeExprs es), ReadsWell F env.slots u := by
  induction h with
  | nil => simp [encodeExprs, exprsUses]
  | cons hpart _ ih =>
    simp only [encodeExprs, exprsUses]
    exact List.forall_mem_append.mpr ⟨hpart.readsWell henv, ih⟩

theorem ResolvesAttrValue.readsWell (henv : env.Hold F) {value : Template.AttrValue} {e : Expr}
    (h : ResolvesAttrValue o F env value e) : ∀ u ∈ e.encode.uses, ReadsWell F env.slots u := by
  cases h with
  | text => simp [textLiteral, Expr.encode, Wire.Expr.uses]
  | mustache htag => exact htag.readsWell henv
  | concat hparts =>
    simp only [Expr.encode, Wire.Expr.uses]
    exact parts_readsWell henv hparts

/-- An attribute is encoded as one of these, if at all. -/
theorem Attr.encode_cases {onComponent : Bool} {a : Attr} {s : Wire.Statement}
    (h : a.encode onComponent = some s) :
    (∃ slot span, a = .splat slot span ∧ s = .attrSplat slot) ∨
      (∃ name text space, s = .staticAttr name text space onComponent) ∨
      ∃ name value trusting span space, a = .attr name value trusting span ∧
        s = .dynamicAttr name value.encode space trusting onComponent := by
  unfold Attr.encode at h
  split at h
  · cases h
    exact .inl ⟨_, _, rfl, rfl⟩
  · split at h <;> cases h
    · exact .inr (.inl ⟨_, _, _, rfl⟩)
    · exact .inr (.inl ⟨_, _, _, rfl⟩)
    · exact .inr (.inr ⟨_, _, _, _, _, rfl, rfl⟩)

theorem ResolvesAttr.readsWell (henv : env.Hold F) {t : Template.Attr} {a : Attr}
    (h : ResolvesAttr o F env t a) {onComponent : Bool} {s : Wire.Statement}
    (hs : a.encode onComponent = some s) : AllReadWell F (s.uses env.slots) := by
  obtain ⟨slot, span, rfl, rfl⟩ | ⟨name, text, space, rfl⟩ |
    ⟨name, value, trusting, span, space, rfl, rfl⟩ := Attr.encode_cases hs
  · cases h with
    | splat hname hslot =>
      refine AllReadWell.occurrences fun u hu => ?_
      obtain rfl := List.mem_singleton.mp hu
      exact ⟨_, hslot, by decide⟩
  · simpa only [Wire.Statement.uses] using AllReadWell.nil
  · cases h with
    | attr hname hvalue => exact AllReadWell.occurrences (hvalue.readsWell henv)

theorem ResolvesAttrs.attrs_readsWell (henv : env.Hold F) {ts : List Template.Attr}
    {attrs : List Attr} {args : List (Named Expr)} (h : ResolvesAttrs o F env ts attrs args) :
    ∀ a ∈ attrs, ∀ {onComponent s}, a.encode onComponent = some s →
      AllReadWell F (s.uses env.slots) := by
  induction h with
  | nil => simp
  | argument hname hvalue hrest ih => exact ih
  | attr hname hattr hrest ih =>
    exact List.forall_mem_cons.mpr ⟨fun hs => hattr.readsWell henv hs, ih⟩

theorem ResolvesAttrs.args_readsWell (henv : env.Hold F) {ts : List Template.Attr}
    {attrs : List Attr} {args : List (Named Expr)} (h : ResolvesAttrs o F env ts attrs args) :
    ∀ u ∈ entriesUses (encodeNamed args), ReadsWell F env.slots u := by
  induction h with
  | nil => simp [encodeNamed, entriesUses]
  | argument hname hvalue hrest ih =>
    simp only [encodeNamed, entriesUses]
    exact List.forall_mem_append.mpr ⟨hvalue.readsWell henv, ih⟩
  | attr hname hattr hrest ih => exact ih

theorem ResolvesModifier.readsWell (henv : env.Hold F) {t : Template.Modifier} {m : Modifier}
    (h : ResolvesModifier o F env t m) : AllReadWell F (m.encode.uses env.slots) := by
  cases h with
  | mk hcallee hparams hpairs =>
    exact AllReadWell.occurrences (List.forall_mem_append.mpr ⟨List.forall_mem_append.mpr
      ⟨hcallee.readsWell henv, hparams.readsWell henv⟩, hpairs.readsWell henv⟩)

/-- The attributes that are written of an element stand before its modifiers, and
each comes from one of its own. -/
theorem ElementParams.encode_eq (p : ElementParams) (onComponent : Bool) :
    ∃ attrs, p.encode onComponent = attrs ++ p.modifiers.map Modifier.encode ∧
      (∀ s ∈ attrs, ∃ a ∈ p.attrs, a.encode onComponent = some s) ∧
      (p.hasSplat = true → attrs = p.attrs.filterMap (Attr.encode onComponent)) := by
  refine ⟨_, rfl, fun s hs => ?_, fun h => if_pos h⟩
  split at hs
  · exact List.mem_filterMap.mp hs
  · simp only [List.partition_eq_filter_filter, List.mem_append, Option.mem_toList] at hs
    rcases hs with hs | hs
    · obtain ⟨a, ha, hs⟩ := List.mem_filterMap.mp hs
      exact ⟨a, List.mem_of_mem_filter ha, hs⟩
    · obtain ⟨a, ha, hs⟩ := List.mem_filterMap.mp (List.mem_of_getLast? hs)
      exact ⟨a, List.mem_of_mem_filter ha, hs⟩

/-- Whatever is written of the attributes and modifiers of an element comes from
one of them. -/
theorem ElementParams.mem_encode {onComponent : Bool} {p : ElementParams} {s : Wire.Statement}
    (h : s ∈ p.encode onComponent) :
    (∃ a ∈ p.attrs, a.encode onComponent = some s) ∨ ∃ m ∈ p.modifiers, m.encode = s := by
  obtain ⟨attrs, hencode, hattrs, -⟩ := p.encode_eq onComponent
  rw [hencode] at h
  rcases List.mem_append.mp h with h | h
  · exact .inl (hattrs s h)
  · exact .inr (List.mem_map.mp h)

theorem elementParams_readsWell (p : ElementParams) (onComponent : Bool) {scopes : List (List Nat)}
    (hattrs : ∀ a ∈ p.attrs, ∀ {onComponent s}, a.encode onComponent = some s →
      AllReadWell F (s.uses scopes))
    (hmodifiers : ∀ m ∈ p.modifiers, AllReadWell F (m.encode.uses scopes)) :
    AllReadWell F (statementsUses scopes (p.encode onComponent)) := by
  intro x hx
  obtain ⟨s, hs, hx⟩ := Wire.mem_statementsUses.mp hx
  rcases ElementParams.mem_encode hs with ⟨a, ha, hencode⟩ | ⟨m, hm, rfl⟩
  · exact hattrs a ha hencode x hx
  · exact hmodifiers m hm x hx

theorem forall₂_modifiers (henv : env.Hold F) {ts : List Template.Modifier}
    {modifiers : List Modifier} (h : List.Forall₂ (ResolvesModifier o F env) ts modifiers) :
    ∀ m ∈ modifiers, AllReadWell F (m.encode.uses env.slots) := by
  induction h with
  | nil => simp
  | cons hmodifier _ ih => exact List.forall_mem_cons.mpr ⟨hmodifier.readsWell henv, ih⟩

theorem forall₂_attrs (henv : env.Hold F) {ts : List Template.Attr} {attrs : List Attr}
    (h : List.Forall₂ (ResolvesAttr o F env) ts attrs) :
    ∀ a ∈ attrs, ∀ {onComponent s}, a.encode onComponent = some s →
      AllReadWell F (s.uses env.slots) := by
  induction h with
  | nil => simp
  | cons hattr _ ih => exact List.forall_mem_cons.mpr ⟨fun hs => hattr.readsWell henv hs, ih⟩

/-! ### Statements -/

theorem ResolvesDynamic.readsWell (henv : env.Hold F) {span : Span}
    {call : Template.Call Template.Expr} {callee : Expr} {args : Args Expr}
    (h : ResolvesDynamic o F env span call callee args) :
    ∀ u ∈ callee.encode.uses ++ exprsUses (encodeExprs args.positional)
      ++ entriesUses (encodeNamed args.named), ReadsWell F env.slots u := by
  cases h with
  | mk hdefinition hparams hpairs =>
    exact List.forall_mem_append.mpr ⟨List.forall_mem_append.mpr
      ⟨hdefinition.readsWell henv, hparams.readsWell henv⟩, hpairs.readsWell henv⟩

theorem ResolvesOptional.readsWell (henv : env.Hold F) {key : String}
    {hash : Template.Hash Template.Expr} {value : Option Expr}
    (h : ResolvesOptional o F env key hash value) :
    ∀ u ∈ optionUses (encodeOption value), ReadsWell F env.slots u := by
  cases h with
  | none hget => simp [encodeOption, optionUses]
  | some hget hvalue =>
    simp only [encodeOption, optionUses]
    exact hvalue.readsWell henv

theorem ResolvesAppendForm.readsWell (henv : env.Hold F) {tag : Template.MustacheTag}
    {k : AppendKeyword} {c : Content} (h : ResolvesAppendForm o F env tag k c) :
    AllReadWell F (statementsUses env.slots c.encode) := by
  cases h with
  | yield htakes hto hslot hparams =>
    simp only [Content.encode, statementsUses, Wire.Statement.uses, List.append_nil]
    refine AllReadWell.occurrences (List.forall_mem_cons.mpr ⟨?_, hparams.readsWell henv⟩)
    exact ⟨_, hslot, by simp⟩
  | partialCall hloose htakes hparams htarget =>
    simp only [Content.encode, statementsUses, Wire.Statement.uses, List.append_nil]
    exact AllReadWell.occurrences (htarget.readsWell henv)
  | debugger htakes hparams =>
    simp only [Content.encode, statementsUses, Wire.Statement.uses, List.append_nil]
    exact AllReadWell.nil
  | component hcall =>
    simp only [Content.encode, encodeBlocks, statementsUses, Wire.Statement.uses,
      Wire.entryBlocksUses, List.append_nil]
    exact AllReadWell.occurrences (hcall.readsWell henv)
  | value hcall =>
    simp only [Content.encode, statementsUses, Wire.Statement.uses, List.append_nil]
    exact AllReadWell.occurrences (hcall.readsWell henv)

theorem ResolvesAppend.readsWell (henv : env.Hold F) {tag : Template.MustacheTag} {c : Content}
    (h : ResolvesAppend o F env tag c) : AllReadWell F (statementsUses env.slots c.encode) := by
  cases h with
  | keyword hkeyword hform => exact hform.readsWell henv
  | bare hkeyword hparams hpairs hcallee =>
    simp only [Content.encode, statementsUses, Wire.Statement.uses, List.append_nil]
    exact AllReadWell.occurrences (hcallee.readsWell henv)
  | call hkeyword hcall =>
    simp only [Content.encode, statementsUses, Wire.Statement.uses, List.append_nil]
    exact AllReadWell.occurrences (hcall.readsWell henv)

/-- The branches of a block, as blocks with names. -/
theorem branchBlocks_readsWell {scopes : List (List Nat)} {program : Template.Block Statement}
    {inverse : Option (Template.Block Statement)} {block : Block Content}
    {other : Option (Block Content)}
    (hblock : AllReadWell F (Wire.blockUses scopes (encodeBlock block)))
    (hother : AllReadWell F (Wire.otherUses scopes (encodeOther other))) :
    AllReadWell F
      (Wire.entryBlocksUses scopes (encodeBlocks (branchBlocks program inverse block other))) := by
  unfold branchBlocks
  split
  · simp only [encodeBlocks, Wire.entryBlocksUses, List.append_nil]
    exact hblock.append (by simpa only [encodeOther, Wire.otherUses] using hother)
  · simpa only [encodeBlocks, Wire.entryBlocksUses, List.append_nil] using hblock

theorem ResolvesBlockForm.readsWell (henv : env.Hold F) {tag : Template.BlockTag}
    {program : Template.Block Statement} {inverse : Option (Template.Block Statement)}
    {block : Block Content} {other : Option (Block Content)} {k : BlockKeyword} {c : Content}
    (hblock : AllReadWell F (Wire.blockUses env.slots (encodeBlock block)))
    (hother : AllReadWell F (Wire.otherUses env.slots (encodeOther other)))
    (h : ResolvesBlockForm o F env tag program inverse block other k c) :
    AllReadWell F (statementsUses env.slots c.encode) := by
  -- The values of the block are read outside of it, by the scopes around.
  cases h with
  | branch htakes hparams hcondition =>
    simp only [Content.encode, statementsUses, Wire.Statement.uses, List.append_nil,
      conditionOf_uses]
    exact ((AllReadWell.occurrences (hcondition.readsWell henv)).append hblock).append hother
  | each htakes hparams hvalue hkey =>
    simp only [Content.encode, statementsUses, Wire.Statement.uses, List.append_nil]
    exact ((AllReadWell.occurrences (List.forall_mem_append.mpr
      ⟨hvalue.readsWell henv, hkey.readsWell henv⟩)).append hblock).append hother
  | withValue htakes hparams hvalue =>
    simp only [Content.encode, statementsUses, Wire.Statement.uses, List.append_nil]
    exact ((AllReadWell.occurrences (hvalue.readsWell henv)).append hblock).append hother
  | letValues htakes hinverse hparams =>
    simp only [Content.encode, statementsUses, Wire.Statement.uses, List.append_nil]
    exact (AllReadWell.occurrences (hparams.readsWell henv)).append hblock
  | inElement htakes hinverse hparams hdestination hinsert =>
    simp only [Content.encode, statementsUses, Wire.Statement.uses, List.append_nil]
    exact (AllReadWell.occurrences (List.forall_mem_append.mpr
      ⟨hdestination.readsWell henv, hinsert.readsWell henv⟩)).append hblock
  | component hcall =>
    simp only [Content.encode, statementsUses, Wire.Statement.uses, List.append_nil]
    exact (AllReadWell.occurrences (hcall.readsWell henv)).append
      (branchBlocks_readsWell hblock hother)
  | withDynamicVars hparams hinverse hpairs =>
    simp only [Content.encode, statementsUses, Wire.Statement.uses, List.append_nil]
    exact (AllReadWell.occurrences (hpairs.readsWell henv)).append hblock

/-- The parameters of a block are one more scope around its body. -/
theorem Scopes.slots_cons {params : List String} {slots : List Nat}
    (hlength : slots.length = params.length) (env : Scopes) :
    Scopes.slots (params.zip slots :: env) = slots :: env.slots := by
  rw [Scopes.slots, List.map_cons, List.map_snd_zip (Nat.le_of_eq hlength)]
  rfl

theorem Scopes.Hold.cons {scope : List (String × Nat)} (henv : env.Hold F)
    (hscope : ∀ entry ∈ scope, F.Holds entry.2 entry.1) : Scopes.Hold (scope :: env) F :=
  List.forall_mem_cons.mpr ⟨hscope, henv⟩

mutual

theorem ResolvesStatement.readsWell {env : Scopes} {t : Statement} {c : Content}
    (henv : env.Hold F) :
    ResolvesStatement o F env t c → AllReadWell F (statementsUses env.slots c.encode)
  | .text => by
    simpa [Content.encode, statementsUses, Wire.Statement.uses, Wire.Expr.uses, occurrences]
      using AllReadWell.nil
  | .comment => by
    simpa [Content.encode, statementsUses, Wire.Statement.uses] using AllReadWell.nil
  | .hiddenComment => by
    simpa [Content.encode, statementsUses] using AllReadWell.nil
  | .mustache htag => htag.readsWell henv
  | .blockForm _ hblock hother hform =>
    hform.readsWell henv (hblock.readsWell henv) (hother.readsWell henv)
  | .invokeBlock _ hcallee hparams hpairs hblock hother => by
    simp only [Content.encode, statementsUses, Wire.Statement.uses, List.append_nil]
    refine AllReadWell.append (AllReadWell.occurrences ?_)
      (branchBlocks_readsWell (hblock.readsWell henv) (hother.readsWell henv))
    exact List.forall_mem_append.mpr ⟨List.forall_mem_append.mpr
      ⟨hcallee.readsWell henv, hparams.readsWell henv⟩, hpairs.readsWell henv⟩
  -- The parts of the tag, and then its body, in the same scopes.
  | .element _ _ hattrs hmodifiers hbody => by
    have hparams := elementParams_readsWell ⟨_, _⟩ false
      (forall₂_attrs henv hattrs) (forall₂_modifiers henv hmodifiers)
    simp only [Content.encode, statementsUses, Wire.statementsUses_append, Wire.Statement.uses,
      List.nil_append, List.append_nil]
    exact hparams.append (hbody.readsWell henv)
  | .component _ _ hhead hattrs hmodifiers hblocks => by
    have hparams := elementParams_readsWell ⟨_, _⟩ true
      (hattrs.attrs_readsWell henv) (forall₂_modifiers henv hmodifiers)
    simp only [Content.encode, Expr.encode, statementsUses, Wire.Statement.uses, List.append_nil]
    refine AllReadWell.append (AllReadWell.append (AllReadWell.occurrences ?_) hparams)
      (hblocks.readsWell henv)
    exact List.forall_mem_append.mpr ⟨hhead.readsWell henv _, hattrs.args_readsWell henv⟩

theorem ResolvesStatements.readsWell {env : Scopes} {ts : List Statement} {cs : List Content}
    (henv : env.Hold F) :
    ResolvesStatements o F env ts cs → AllReadWell F (statementsUses env.slots (encodeContents cs))
  | .nil => by
    simpa [encodeContents, statementsUses] using AllReadWell.nil
  | .cons hfirst hrest => by
    rw [encodeContents, Wire.statementsUses_append]
    exact (hfirst.readsWell henv).append (hrest.readsWell henv)

theorem ResolvesBlock.readsWell {env : Scopes} {t : Template.Block Statement} {b : Block Content}
    (henv : env.Hold F) :
    ResolvesBlock o F env t b → AllReadWell F (Wire.blockUses env.slots (encodeBlock b))
  | .mk hlength hslots hbody => by
    -- The body is read with the parameters of the block as one more scope.
    have hinner := hbody.readsWell (henv.cons hslots)
    rw [Scopes.slots_cons hlength] at hinner
    simpa only [encodeBlock, Wire.blockUses] using hinner

theorem ResolvesOther.readsWell {env : Scopes} {t : Option (Template.Block Statement)}
    {b : Option (Block Content)} (henv : env.Hold F) :
    ResolvesOther o F env t b → AllReadWell F (Wire.otherUses env.slots (encodeOther b))
  | .none => by
    simpa [encodeOther, Wire.otherUses] using AllReadWell.nil
  | .some hblock => by
    simpa only [encodeOther, Wire.otherUses] using hblock.readsWell henv

theorem ResolvesChildren.readsWell {env : Scopes} {tag : Template.StartTag}
    {ts : List Statement} {span : Span} {blocks : List (NamedBlock Content)} (henv : env.Hold F) :
    ResolvesChildren o F env tag ts span blocks →
      AllReadWell F (Wire.entryBlocksUses env.slots (encodeBlocks blocks))
  | .named _ _ hblocks => hblocks.readsWell henv
  | .selfClosing _ _ => by
    simpa [encodeBlocks, Wire.entryBlocksUses] using AllReadWell.nil
  | .default _ _ hblock => by
    simpa only [encodeBlocks, Wire.entryBlocksUses, List.append_nil] using hblock.readsWell henv

theorem ResolvesNamedBlocks.readsWell {env : Scopes} {seen : List String} {ts : List Statement}
    {blocks : List (NamedBlock Content)} (henv : env.Hold F) :
    ResolvesNamedBlocks o F env seen ts blocks →
      AllReadWell F (Wire.entryBlocksUses env.slots (encodeBlocks blocks))
  | .nil => by
    simpa [encodeBlocks, Wire.entryBlocksUses] using AllReadWell.nil
  | .block _ _ _ _ _ _ hblock hrest => by
    simp only [encodeBlocks, Wire.entryBlocksUses]
    exact (hblock.readsWell henv).append (hrest.readsWell henv)
  | .between _ hrest => hrest.readsWell henv

end

end

/-! ### The parameters of blocks -/

/-- The attributes and modifiers of an element hold no blocks. -/
theorem ElementParams.encode_params (p : ElementParams) (onComponent : Bool) :
    Wire.statementsParams (p.encode onComponent) = [] := by
  refine Wire.statementsParams_eq_nil fun s hs => ?_
  rcases ElementParams.mem_encode hs with ⟨a, -, hencode⟩ | ⟨m, -, rfl⟩
  · obtain ⟨slot, span, rfl, rfl⟩ | ⟨name, text, space, rfl⟩ |
      ⟨name, value, trusting, span, space, rfl, rfl⟩ := Attr.encode_cases hencode
    · simp only [Wire.Statement.blockParams]
    · simp only [Wire.Statement.blockParams]
    · simp only [Wire.Statement.blockParams]
  · simp only [Modifier.encode, Wire.Statement.blockParams]

mutual

/-- Encoding keeps the parameters of blocks. -/
theorem Content.encode_params (c : Content) :
    Wire.statementsParams c.encode = c.blockParams := by
  match c with
  | .text _ _ | .comment _ _ | .hiddenComment _ _ | .append _ _ _ | .yield _ _ _ | .debugger _ _
  | .partialCall _ _ _ =>
    simp only [Content.encode, Wire.statementsParams, Wire.Statement.blockParams,
      Content.blockParams, List.append_nil]
  | .invokeBlock _ _ blocks _ | .invokeDynamic _ _ blocks _ =>
    simp only [Content.encode, Wire.statementsParams, Wire.Statement.blockParams,
      Content.blockParams, List.append_nil, encodeBlocks_params blocks]
  | .invokeComponent _ params _ blocks _ =>
    simp only [Content.encode, Wire.statementsParams, Wire.Statement.blockParams,
      Content.blockParams, List.append_nil, List.nil_append, params.encode_params,
      encodeBlocks_params blocks]
  | .element _ params body _ =>
    simp only [Content.encode, Wire.statementsParams, Wire.statementsParams_append,
      Wire.Statement.blockParams, Content.blockParams, List.append_nil, List.nil_append,
      params.encode_params, encodeContents_params body]
  | .branch _ block inverse _ | .each _ _ block inverse _ | .withValue _ block inverse _ =>
    simp only [Content.encode, Wire.statementsParams, Wire.Statement.blockParams,
      Content.blockParams, List.append_nil, encodeBlock_params block, encodeOther_params inverse]
  | .letValues _ block _ | .inElement _ _ _ block _ | .withDynamicVars _ block _ =>
    simp only [Content.encode, Wire.statementsParams, Wire.Statement.blockParams,
      Content.blockParams, List.append_nil, encodeBlock_params block]

theorem encodeContents_params (cs : List Content) :
    Wire.statementsParams (encodeContents cs) = contentParams cs := by
  match cs with
  | [] => simp only [encodeContents, Wire.statementsParams, contentParams]
  | c :: rest =>
    rw [encodeContents, Wire.statementsParams_append, contentParams, c.encode_params,
      encodeContents_params rest]

theorem encodeBlock_params (b : Block Content) :
    Wire.blockParams (encodeBlock b) = blockParams b := by
  match b with
  | ⟨params, body, span⟩ =>
    rw [encodeBlock, Wire.blockParams, blockParams, encodeContents_params body]

theorem encodeBlocks_params (blocks : List (NamedBlock Content)) :
    Wire.entryBlocksParams (encodeBlocks blocks) = namedBlockParams blocks := by
  match blocks with
  | [] => simp only [encodeBlocks, Wire.entryBlocksParams, namedBlockParams]
  | ⟨name, block, span⟩ :: rest =>
    simp only [encodeBlocks, Wire.entryBlocksParams, namedBlockParams, encodeBlock_params block,
      encodeBlocks_params rest]

theorem encodeOther_params (b : Option (Block Content)) :
    Wire.otherParams (encodeOther b) = otherParams b := by
  match b with
  | none => simp only [encodeOther, Wire.otherParams, otherParams]
  | some block => simp only [encodeOther, Wire.otherParams, otherParams, encodeBlock_params block]

end

/-! ### Whole programs -/

theorem encode_symbol? (b : Body) {F : Symbols} {slot : Nat} {name : String} :
    (b.encode F).symbol? slot = some name ↔ F.Holds slot name := by
  unfold Wire.Program.symbol? Symbols.Holds
  cases slot with
  | zero => simp
  | succ n => simp [Body.encode]

/-- A program whose numbers all have names of their kinds, and whose blocks have
slots of their own, is well scoped. -/
theorem wellScoped_of_readsWell {b : Body} {F : Symbols}
    (hreads : AllReadWell F (statementsUses [] (encodeContents b.body)))
    (hparams : (contentParams b.body).Pairwise List.Disjoint) :
    (b.encode F).WellScoped where
  slots hmem := by
    rcases hreads _ hmem with hthis | ⟨name, hholds, -⟩
    · exact .inl hthis
    · exact .inr hholds.pos_le
  upvars hmem := hreads _ hmem
  blocks hmem := by
    obtain ⟨name, hholds, hhead⟩ := hreads _ hmem
    exact ⟨name, (encode_symbol? b).mpr hholds, hhead⟩
  locals := by
    intro slot scopes name hmem hname hargument _
    have hholds := (encode_symbol? b).mp hname
    -- Slot zero is `this` and has no name; a slot with a name is one of the program or of a
    -- block.
    rcases hreads _ hmem with hthis | ⟨name', hholds', hhead | hscope⟩
    · replace hthis : slot = 0 := hthis
      have := hholds.pos_le
      omega
    · have := (encode_symbol? b).mpr hholds'
      simp only [hname, Option.some.injEq] at this
      exact absurd (this ▸ hhead) hargument
    · exact hscope
  params := by
    simpa only [Wire.Program.blockParams, Body.encode, encodeContents_params] using hparams

/-- A template that resolves is compiled to a well scoped program. -/
theorem encode_wellScoped (t : Template) (o : Settings) (body : Body) (p : Progress)
    (h : t.resolve o = (.ok body, p)) : (body.encode p.symbols).WellScoped := by
  have hout := resolve_outcome h
  have hresolves := hout.holds p.symbols (Symbols.Grows.refl _)
  -- Outside of all blocks no scope is open.
  have henv : Scopes.Hold [] p.symbols := fun scope hscope => absurd hscope List.not_mem_nil
  exact wellScoped_of_readsWell (hresolves.readsWell henv) hout.fresh.disjoint

/-- A block around an element that takes the attributes of the caller and yields
the parameter of the block. -/
def yielding : Template where
  body :=
    [.block ⟨⟨bareName "let", [.path ⟨.at "a", [], "@a", .dummy⟩], ⟨[], .dummy⟩⟩, {}, {}, {}, .dummy⟩
      { body :=
          [.element { name := "div", attributes := [⟨"...attributes", .text ⟨"", .dummy⟩, .dummy⟩] }
            [.mustache ⟨⟨bareName "yield", [bareName "x"], ⟨[], .dummy⟩⟩, false, {}, .dummy⟩]
            .dummy]
        params := ["x"], span := .dummy }
      none]
  span := .dummy

theorem encode_wellScoped_yielding :
    ∃ body p, yielding.resolve {} = (.ok body, p) ∧
      p.symbols.names = ["@a", "x", "&attrs", "&default"] ∧
      (body.encode p.symbols).WellScoped := by
  have hok : (yielding.resolve {}).1.isOk = true := by decide +kernel
  have hnames : (yielding.resolve {}).2.symbols.names = ["@a", "x", "&attrs", "&default"] := by
    decide +kernel
  match hrun : yielding.resolve {} with
  | (.ok body, p) =>
    rw [hrun] at hnames
    exact ⟨body, p, rfl, hnames, encode_wellScoped yielding {} body p hrun⟩
  | (.error fault, p) =>
    rw [hrun] at hok
    cases hok

end TemplateCompiler.Resolved
