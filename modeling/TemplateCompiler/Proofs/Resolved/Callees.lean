/-
The components that tags invoke.

A tag that invokes a component is resolved to a path.  Its head is free exactly if the head
of the tag is in no scope, and it then goes by the name under which the tag is registered.

* `PlacedTag` — a tag that invokes a component, with the names around it;
* `componentTags`, `callees` — such tags of a template and the callees of its resolved form,
  both in the order of the walk;
* `Calls` — the callee that a tag of a loose template has;
* `ResolvesStatement.calls`, … — lexical scoping gives each tag its callee.
-/
import TemplateCompiler.Proofs.Resolved.Around
import TemplateCompiler.Proofs.Resolved.Modes

namespace TemplateCompiler.Resolved

open Template (MustacheTag BlockTag StartTag Statement)

/-! ### Tags -/

/-- A tag that invokes a component, in its place. -/
structure PlacedTag where
  /-- The names that the blocks around the tag declare. -/
  around : List String
  tag : StartTag
  /-- The bytes of the element. -/
  span : Span

namespace PlacedTag

/-- The head of the name of a tag. -/
def head (t : PlacedTag) : String := (tagPath t.tag.name).1

/-- Whether the head of a tag is an argument, `this` or a block parameter. -/
def inScope (t : PlacedTag) : Bool :=
  isArgumentName t.head || t.head == "this" || t.around.contains t.head

end PlacedTag

/-- The tag of a statement, if it invokes a component. -/
def componentTag? (o : Settings) : List String × Statement → Option PlacedTag
  | (around, .element tag _ span) =>
    if !isBlockName tag.name && invokesIn o around tag then some ⟨around, tag, span⟩ else none
  | _ => none

/-- The tags among statements that invoke components. -/
def componentTags (o : Settings) (placed : List (List String × Statement)) : List PlacedTag :=
  placed.filterMap (componentTag? o)

/-- The heads that are in no scope. -/
def freeHeads (tags : List PlacedTag) : List String :=
  (tags.filter fun t => !t.inScope).map PlacedTag.head

theorem componentTags_append (o : Settings) (a b : List (List String × Statement)) :
    componentTags o (a ++ b) = componentTags o a ++ componentTags o b := List.filterMap_append

theorem componentTags_cons {o : Settings} {s : List String × Statement}
    (h : componentTag? o s = none) (rest : List (List String × Statement)) :
    componentTags o (s :: rest) = componentTags o rest := List.filterMap_cons_none h

/-- The tag of a component comes before those in its children. -/
theorem componentTags_component {o : Settings} {around : List String} {tag : StartTag}
    (hname : isBlockName tag.name = false) (hinvokes : invokesIn o around tag = true)
    (children : List Statement) (span : Span) (rest : List (List String × Statement)) :
    componentTags o ((around, .element tag children span) :: rest)
      = ⟨around, tag, span⟩ :: componentTags o rest :=
  List.filterMap_cons_some (by simp [componentTag?, hname, hinvokes])

theorem freeHeads_append (a b : List PlacedTag) :
    freeHeads (a ++ b) = freeHeads a ++ freeHeads b := by
  rw [freeHeads, List.filter_append, List.map_append]
  rfl

theorem freeHeads_of_inScope {t : PlacedTag} (h : t.inScope = true) : freeHeads [t] = [] := by
  simp [freeHeads, h]

theorem freeHeads_of_free {t : PlacedTag} (h : t.inScope = false) : freeHeads [t] = [t.head] := by
  simp [freeHeads, h]

/-- The free heads of the tags among statements that invoke components. -/
def freeTags (o : Settings) (placed : List (List String × Statement)) : List String :=
  freeHeads (componentTags o placed)

theorem freeTags_append (o : Settings) (a b : List (List String × Statement)) :
    freeTags o (a ++ b) = freeTags o a ++ freeTags o b := by
  rw [freeTags, componentTags_append, freeHeads_append]
  rfl

theorem freeTags_cons {o : Settings} {s : List String × Statement} (h : componentTag? o s = none)
    (rest : List (List String × Statement)) : freeTags o (s :: rest) = freeTags o rest := by
  rw [freeTags, componentTags_cons h]
  rfl

/-! ### Callees -/

/-- The callee of a piece of content that a tag invokes. -/
def Content.callee? : Content → Option Expr
  | .invokeComponent callee _ _ _ _ => some callee
  | _ => none

/-- The callees of the components that are invoked by tags, in order. -/
def callees (cs : List Content) : List Expr := cs.filterMap Content.callee?

theorem callees_append (a b : List Content) : callees (a ++ b) = callees a ++ callees b :=
  List.filterMap_append

theorem callees_cons {c : Content} (h : c.callee? = none) (cs : List Content) :
    callees (c :: cs) = callees cs := List.filterMap_cons_none h

theorem callees_component (callee : Expr) (params : ElementParams) (args : List (Named Expr))
    (blocks : List (NamedBlock Content)) (span : Span) (cs : List Content) :
    callees (.invokeComponent callee params args blocks span :: cs) = callee :: callees cs := rfl

/-- Whether a name is free. -/
def Reference.isFree : Reference → Bool
  | .free _ _ => true
  | _ => false

/-- The callee of a tag in a loose template, where `register` gives the name of a free tag. -/
inductive Calls (register : String → String) (F : Symbols) (t : PlacedTag) : Expr → Prop
  /-- A free callee has the registered name, and so has its upvar. -/
  | free {upvar : Nat} (hscope : t.inScope = false)
    (hupvar : F.upvars[upvar]? = some (register t.head)) :
    Calls register F t (.path
      ⟨register t.head, .free upvar (.loose { component := true } false), tagSpan t.tag t.span⟩
      (tagPath t.tag.name).2 (tagSpan t.tag t.span))
  | bound {reference : Reference} (hscope : t.inScope = true)
    (hbound : reference.isFree = false) :
    Calls register F t (.path ⟨t.head, reference, tagSpan t.tag t.span⟩
      (tagPath t.tag.name).2 (tagSpan t.tag t.span))

section

variable {o : Settings} {F : Symbols}

/-! ### Statements without children -/

/-- A tag in braces invokes no component by a start tag. -/
theorem ResolvesAppend.callees_eq_nil {env : Scopes} {tag : MustacheTag} {c : Content}
    (h : ResolvesAppend o F env tag c) : callees (c :: c.inside) = [] := by
  cases h with
  | keyword hkeyword hform =>
    cases hform <;> simp only [Content.inside, namedBlocksWithin] <;> rfl
  | bare hkeyword hparams hpairs hcallee =>
    rw [Content.inside]
    rfl
  | call hkeyword hcall =>
    rw [Content.inside]
    rfl

/-! ### Blocks -/

section

variable {env : Scopes} {tag : BlockTag} {program : Template.Block Statement}
  {inverse : Option (Template.Block Statement)} {block : Block Content}
  {other : Option (Block Content)} {c : Content}

/-- The branches of a block, as blocks with names. -/
theorem ResolvesOther.branchBlocks_within (h : ResolvesOther o F env inverse other) :
    namedBlocksWithin (branchBlocks program inverse block other)
      = blockWithin block ++ otherWithin other := by
  cases h with
  | none => simp only [branchBlocks, namedBlocksWithin, otherWithin]
  | some hblock => simp only [branchBlocks, namedBlocksWithin, otherWithin, List.append_nil]

/-- A block with a keyword is no component itself, and what is inside of it is inside of its
branches. -/
theorem ResolvesBlockForm.callees_eq {k : BlockKeyword}
    (h : ResolvesBlockForm o F env tag program inverse block other k c)
    (hother : ResolvesOther o F env inverse other) :
    callees (c :: c.inside) = callees (blockWithin block ++ otherWithin other) := by
  cases h with
  | branch htakes hparams hcondition => rw [callees_cons rfl, Content.inside]
  | each htakes hparams hvalue hkey => rw [callees_cons rfl, Content.inside]
  | withValue htakes hparams hvalue => rw [callees_cons rfl, Content.inside]
  | component hcall => rw [callees_cons rfl, Content.inside, hother.branchBlocks_within]
  | letValues htakes hinverse hparams
  | inElement htakes hinverse hparams hdestination hinsert
  | withDynamicVars hparams hinverse hpairs =>
    -- A form without another branch.
    subst hinverse
    cases hother
    rw [callees_cons rfl, Content.inside, otherWithin, List.append_nil]

end

/-! ### Tags of components -/

/-- The head of a tag is in scope if lexical scoping binds it. -/
theorem ResolvesTag.calls {env : Scopes} {tag : StartTag} {span : Span} {head : Variable}
    (hloose : o.strict = false)
    (h : ResolvesTag o F env (tagPath tag.name).1 (tagSpan tag span) head) :
    Calls o.registered F ⟨env.declared, tag, span⟩
      (.path head (tagPath tag.name).2 (tagSpan tag span)) := by
  have hdeclared := Scopes.find?_isSome env (tagPath tag.name).1
  cases h with
  | argument harg hslot => exact .bound (by simp [PlacedTag.inScope, PlacedTag.head, harg]) rfl
  | this harg hthis =>
    have hscope : PlacedTag.inScope ⟨env.declared, tag, span⟩ = true := by
      simp [PlacedTag.inScope, PlacedTag.head, hthis]
    exact .bound hscope rfl
  | bound harg hthis hfind =>
    have hscope : PlacedTag.inScope ⟨env.declared, tag, span⟩ = true := by
      rw [PlacedTag.inScope, PlacedTag.head, ← hdeclared, hfind, Option.isSome_some, Bool.or_true]
    exact .bound hscope rfl
  | provided harg hthis hfind hstrict hlocal hupvar => simp [hloose] at hstrict
  | free harg hthis hfind hloose hupvar =>
    have hscope : PlacedTag.inScope ⟨env.declared, tag, span⟩ = false := by
      rw [PlacedTag.inScope, PlacedTag.head, ← hdeclared, hfind, harg, Option.isSome_none,
        Bool.or_false, Bool.false_or]
      exact beq_false_of_ne hthis
    exact .free hscope hupvar

/-! ### Statements -/

theorem componentTags_between {s : Statement} (around : List String)
    (h : isBetweenBlocks s = true) : componentTags o (placed o around s) = [] := by
  cases s with
  | text _ | comment _ | mustacheComment _ => rw [placed]; rfl
  | mustache _ | partialCall _ | block _ _ _ | element _ _ _ => simp [isBetweenBlocks] at h

mutual

/-- Each tag in a statement has its callee. -/
theorem ResolvesStatement.calls {env : Scopes} {s : Statement} {c : Content}
    (hloose : o.strict = false) : ResolvesStatement o F env s c →
      (∀ x ∈ placed o env.declared s, ClosesAlone x.2) →
      List.Forall₂ (Calls o.registered F) (componentTags o (placed o env.declared s))
        (callees (c :: c.inside))
  | .text, _ | .comment, _ | .hiddenComment, _ => by
    rw [placed, Content.inside]
    exact .nil
  | .mustache htag, _ => by
    rw [placed, htag.callees_eq_nil]
    exact .nil
  | .blockForm _ hblock hother hform, hcloses => by
    rw [placed] at hcloses ⊢
    obtain ⟨-, hinside⟩ := List.forall_mem_cons.mp hcloses
    obtain ⟨hprogram, hinverse⟩ := List.forall_mem_append.mp hinside
    rw [hform.callees_eq hother, callees_append, ← List.singleton_append, componentTags_append,
      componentTags_append]
    exact List.rel_append .nil (List.rel_append (hblock.calls hloose hprogram)
      (hother.calls hloose hinverse))
  | .invokeBlock _ _ _ _ hblock hother, hcloses => by
    rw [placed] at hcloses ⊢
    obtain ⟨-, hinside⟩ := List.forall_mem_cons.mp hcloses
    obtain ⟨hprogram, hinverse⟩ := List.forall_mem_append.mp hinside
    rw [callees_cons rfl, Content.inside, hother.branchBlocks_within, callees_append,
      ← List.singleton_append, componentTags_append, componentTags_append]
    exact List.rel_append .nil (List.rel_append (hblock.calls hloose hprogram)
      (hother.calls hloose hinverse))
  | .element hname hplain _ _ hbody, hcloses => by
    rw [invokes_eq] at hplain
    rw [placed, childrenNames, hname, hplain, Bool.false_or, if_neg Bool.false_ne_true]
      at hcloses ⊢
    obtain ⟨-, hchildren⟩ := List.forall_mem_cons.mp hcloses
    rw [callees_cons rfl, Content.inside, componentTags_cons (by simp [componentTag?, hplain])]
    exact hbody.calls hloose hchildren
  | .component hname hinvokes hhead _ _ hblocks, hcloses => by
    rw [invokes_eq] at hinvokes
    rw [placed, childrenNames, hinvokes, Bool.or_true, if_pos rfl] at hcloses ⊢
    obtain ⟨hself, hchildren⟩ := List.forall_mem_cons.mp hcloses
    -- The tag comes before those in its children, as its callee does.
    rw [componentTags_component hname hinvokes, callees_component, Content.inside]
    exact .cons (hhead.calls hloose) (hblocks.calls hloose hself hchildren)

theorem ResolvesStatements.calls {env : Scopes} {ss : List Statement} {cs : List Content}
    (hloose : o.strict = false) : ResolvesStatements o F env ss cs →
      (∀ x ∈ placedWithin o env.declared ss, ClosesAlone x.2) →
      List.Forall₂ (Calls o.registered F) (componentTags o (placedWithin o env.declared ss))
        (callees (contentsWithin cs))
  | .nil, _ => by
    rw [placedWithin, contentsWithin]
    exact .nil
  | .cons hfirst hrest, hcloses => by
    rw [placedWithin] at hcloses ⊢
    obtain ⟨hs, hss⟩ := List.forall_mem_append.mp hcloses
    rw [contentsWithin, ← List.cons_append, componentTags_append, callees_append]
    exact List.rel_append (hfirst.calls hloose hs) (hrest.calls hloose hss)

theorem ResolvesBlock.calls {env : Scopes} {t : Template.Block Statement} {b : Block Content}
    (hloose : o.strict = false) : ResolvesBlock o F env t b →
      (∀ x ∈ blockPlaced o env.declared t, ClosesAlone x.2) →
      List.Forall₂ (Calls o.registered F) (componentTags o (blockPlaced o env.declared t))
        (callees (blockWithin b))
  | .mk hlength _ hbody, hcloses => by
    rw [blockPlaced, ← Scopes.declared_cons env hlength] at hcloses ⊢
    rw [blockWithin]
    exact hbody.calls hloose hcloses

theorem ResolvesOther.calls {env : Scopes} {t : Option (Template.Block Statement)}
    {b : Option (Block Content)} (hloose : o.strict = false) : ResolvesOther o F env t b →
      (∀ x ∈ otherPlaced o env.declared t, ClosesAlone x.2) →
      List.Forall₂ (Calls o.registered F) (componentTags o (otherPlaced o env.declared t))
        (callees (otherWithin b))
  | .none, _ => by
    rw [otherPlaced, otherWithin]
    exact .nil
  | .some hblock, hcloses => by
    rw [otherPlaced] at hcloses ⊢
    rw [otherWithin]
    exact hblock.calls hloose hcloses

theorem ResolvesChildren.calls {env : Scopes} {tag : StartTag} {children : List Statement}
    {span : Span} {blocks : List (NamedBlock Content)} (hloose : o.strict = false) :
    ResolvesChildren o F env tag children span blocks → (tag.selfClosing = true → children = []) →
      (∀ x ∈ placedWithin o (tag.blockParams ++ env.declared) children, ClosesAlone x.2) →
      List.Forall₂ (Calls o.registered F)
        (componentTags o (placedWithin o (tag.blockParams ++ env.declared) children))
        (callees (namedBlocksWithin blocks))
  | .named _ hparams hblocks, _, hcloses => by
    rw [hparams, List.nil_append] at hcloses ⊢
    exact hblocks.calls hloose hcloses
  | .selfClosing _ hclosing, hchildren, _ => by
    rw [hchildren hclosing, placedWithin, namedBlocksWithin]
    exact .nil
  | .default _ _ hblock, _, hcloses => by
    rw [namedBlocksWithin, namedBlocksWithin, List.append_nil]
    have hcalls := hblock.calls hloose
    rw [blockPlaced] at hcalls
    exact hcalls hcloses

theorem ResolvesNamedBlocks.calls {env : Scopes} {seen : List String} {ss : List Statement}
    {blocks : List (NamedBlock Content)} (hloose : o.strict = false) :
    ResolvesNamedBlocks o F env seen ss blocks →
      (∀ x ∈ placedWithin o env.declared ss, ClosesAlone x.2) →
      List.Forall₂ (Calls o.registered F) (componentTags o (placedWithin o env.declared ss))
        (callees (namedBlocksWithin blocks))
  | .nil, _ => by
    rw [placedWithin, namedBlocksWithin]
    exact .nil
  | .block htag _ _ _ _ _ hblock hrest, hcloses => by
    rw [placedWithin, placed, childrenNames, htag, Bool.true_or, if_pos rfl] at hcloses ⊢
    obtain ⟨hs, hss⟩ := List.forall_mem_append.mp hcloses
    obtain ⟨-, hchildren⟩ := List.forall_mem_cons.mp hs
    rw [componentTags_append, namedBlocksWithin, callees_append]
    refine List.rel_append ?_ (hrest.calls hloose hss)
    -- The tag of a named block invokes nothing itself.
    rw [componentTags_cons (by simp [componentTag?, htag])]
    have hcalls := hblock.calls hloose
    rw [blockPlaced] at hcalls
    exact hcalls hchildren
  | .between hbetween hrest, hcloses => by
    rw [placedWithin] at hcloses ⊢
    obtain ⟨-, hss⟩ := List.forall_mem_append.mp hcloses
    rw [componentTags_append, componentTags_between _ hbetween, List.nil_append]
    exact hrest.calls hloose hss

end

end

end TemplateCompiler.Resolved
