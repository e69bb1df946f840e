/-
Where named blocks stand, and the names under which blocks are written.

A tag that starts with a colon is a block given to the component around it.

* `elementsOf` — the elements of a template, each with the elements around it;
* `ElementPlace.Proper` — what a named block needs: the tag around it invokes a
  component, its name is one of a block, it has neither attributes nor modifiers,
  and nothing stands beside it but other blocks, comments and blanks;
* `Surrounding.Overlooks` — a component that closes itself is given no blocks,
  whatever its children are, unless a named block is among them;
* `ResolvesStatements.placesBlocks` — every named block stands properly, unless it
  is inside of such a component;
* `Statement.NamesBlocks` — a statement that is given blocks writes as many names
  as blocks, all different;
* `resolve_places_blocks` — both, for every template that is resolved;
* `overlooked_block_resolves` — a named block that stands wrong is resolved inside
  of a component that closes itself.
-/
import TemplateCompiler.Proofs.Resolved.Numbering
import TemplateCompiler.Proofs.Wire.JsonForm

namespace TemplateCompiler.Resolved

open Template (StartTag Statement)

/-! ### Elements in their places -/

/-- An element that is around others. -/
structure Surrounding where
  /-- The names around it. -/
  names : List String
  tag : StartTag
  children : List Statement

/-- An element of a template and where it stands. -/
structure ElementPlace where
  tag : StartTag
  /-- The element whose child it is. -/
  parent : Option Surrounding
  /-- All elements that it is inside of. -/
  outer : List Surrounding

/-- What a named block needs. -/
structure ElementPlace.Proper (o : Settings) (e : ElementPlace) : Prop where
  component : ∃ parent, e.parent = some parent ∧ invokesIn o parent.names parent.tag = true ∧
    ∀ s ∈ parent.children, isNamedBlock s = true ∨ isBetweenBlocks s = true
  lower : e.tag.name.toList.tail.head?.any Char.isLower = true
  attributes : e.tag.attributes = []
  modifiers : e.tag.modifiers = []

/-- The element is a component that closes itself and has no named block among its
children, so the walk does not look at them. -/
structure Surrounding.Overlooks (o : Settings) (a : Surrounding) : Prop where
  plain : isBlockName a.tag.name = false
  invokes : invokesIn o a.names a.tag = true
  selfClosing : a.tag.selfClosing = true
  unnamed : a.children.any isNamedBlock = false

section

variable (o : Settings)

mutual

/-- The elements in a statement. -/
def elementsIn (names : List String) (parent : Option Surrounding) (outer : List Surrounding) :
    Statement → List ElementPlace
  | .element tag children _ =>
    ⟨tag, parent, outer⟩ ::
      elementsOf (childrenNames o names tag) (some ⟨names, tag, children⟩)
        (⟨names, tag, children⟩ :: outer) children
  | .block _ program other =>
    blockElements names outer program ++ otherElements names outer other
  | .mustache _ | .partialCall _ | .comment _ | .mustacheComment _ | .text _ => []

/-- The elements in statements of one list. -/
def elementsOf (names : List String) (parent : Option Surrounding) (outer : List Surrounding) :
    List Statement → List ElementPlace
  | [] => []
  | s :: rest => elementsIn names parent outer s ++ elementsOf names parent outer rest

/-- The elements in a block, of which none is a child of an element around it. -/
def blockElements (names : List String) (outer : List Surrounding) :
    Template.Block Statement → List ElementPlace
  | ⟨body, params, _, _⟩ => elementsOf (params ++ names) none outer body

/-- The elements in a block that may be missing. -/
def otherElements (names : List String) (outer : List Surrounding) :
    Option (Template.Block Statement) → List ElementPlace
  | none => []
  | some block => blockElements names outer block

end

/-- The elements of a template. -/
def templateElements (t : Template) : List ElementPlace := elementsOf o [] none [] t.body

end

theorem blockElements_eq (o : Settings) (names : List String) (outer : List Surrounding)
    (b : Template.Block Statement) :
    blockElements o names outer b = elementsOf o (b.params ++ names) none outer b.body := by
  cases b
  rw [blockElements]

/-- Every named block is where it may be, unless the walk overlooks it. -/
def PlacesBlocks (o : Settings) (es : List ElementPlace) : Prop :=
  ∀ e ∈ es, isBlockName e.tag.name = true → (∀ a ∈ e.outer, ¬a.Overlooks o) → e.Proper o

section

variable {o : Settings}

theorem PlacesBlocks.nil : PlacesBlocks o [] := by
  intro e he
  cases he

theorem PlacesBlocks.append {es es' : List ElementPlace} (h : PlacesBlocks o es)
    (h' : PlacesBlocks o es') : PlacesBlocks o (es ++ es') :=
  List.forall_mem_append.mpr ⟨h, h'⟩

/-- An element whose name is none of a block, and the elements in it. -/
theorem PlacesBlocks.cons {e : ElementPlace} {es : List ElementPlace}
    (hname : isBlockName e.tag.name = false) (h : PlacesBlocks o es) : PlacesBlocks o (e :: es) := by
  refine List.forall_mem_cons.mpr ⟨fun hblock => ?_, h⟩
  rw [hname] at hblock
  cases hblock

mutual

theorem elementsIn_outer {names : List String} {parent : Option Surrounding}
    {outer : List Surrounding} (s : Statement) :
    ∀ e ∈ elementsIn o names parent outer s, outer ⊆ e.outer := by
  match s with
  | .element tag children span =>
    rw [elementsIn]
    refine List.forall_mem_cons.mpr ⟨List.Subset.refl _, fun e he => ?_⟩
    exact List.Subset.trans (List.subset_cons_self _ _) (elementsOf_outer children e he)
  | .block tag program other =>
    rw [elementsIn]
    exact List.forall_mem_append.mpr ⟨blockElements_outer program, otherElements_outer other⟩
  | .mustache _ | .partialCall _ | .comment _ | .mustacheComment _ | .text _ => simp [elementsIn]

/-- What is around statements is around every element in them. -/
theorem elementsOf_outer {names : List String} {parent : Option Surrounding}
    {outer : List Surrounding} (ss : List Statement) :
    ∀ e ∈ elementsOf o names parent outer ss, outer ⊆ e.outer := by
  match ss with
  | [] => simp [elementsOf]
  | s :: rest =>
    rw [elementsOf]
    exact List.forall_mem_append.mpr ⟨elementsIn_outer s, elementsOf_outer rest⟩

theorem blockElements_outer {names : List String} {outer : List Surrounding}
    (b : Template.Block Statement) :
    ∀ e ∈ blockElements o names outer b, outer ⊆ e.outer := by
  match b with
  | ⟨body, params, _, _⟩ =>
    rw [blockElements]
    exact elementsOf_outer body

theorem otherElements_outer {names : List String} {outer : List Surrounding}
    (b : Option (Template.Block Statement)) :
    ∀ e ∈ otherElements o names outer b, outer ⊆ e.outer := by
  match b with
  | none => simp [otherElements]
  | some block =>
    rw [otherElements]
    exact blockElements_outer block

end

/-- Nothing is asked of what a component overlooks. -/
theorem placesBlocks_of_overlooks {names : List String} {parent : Option Surrounding}
    {a : Surrounding} {outer : List Surrounding} (h : a.Overlooks o) (ss : List Statement) :
    PlacesBlocks o (elementsOf o names parent (a :: outer) ss) :=
  fun e he _ hseen => absurd h (hseen a (elementsOf_outer ss e he List.mem_cons_self))

/-! ### What the walk reaches -/

variable {F : Symbols}

/-- Beside named blocks there are other blocks, and what may be between them. -/
theorem ResolvesNamedBlocks.beside {env : Scopes} {seen : List String} {ts : List Statement}
    {blocks : List (NamedBlock Content)} (h : ResolvesNamedBlocks o F env seen ts blocks) :
    ∀ s ∈ ts, isNamedBlock s = true ∨ isBetweenBlocks s = true := by
  induction ts generalizing seen blocks with
  | nil => simp
  | cons s ts ih =>
    cases h with
    | block htag _ _ _ _ _ _ hrest => exact List.forall_mem_cons.mpr ⟨.inl htag, ih hrest⟩
    | between hbetween hrest => exact List.forall_mem_cons.mpr ⟨.inr hbetween, ih hrest⟩

/-- There are no elements in what may be between named blocks. -/
theorem elementsIn_between {names : List String} {parent : Option Surrounding}
    {outer : List Surrounding} {s : Statement} (h : isBetweenBlocks s = true) :
    elementsIn o names parent outer s = [] := by
  cases s with
  | text | comment | mustacheComment => rfl
  | mustache | block | partialCall | element => cases h

mutual

theorem ResolvesStatement.placesBlocks {env : Scopes} {t : Statement} {c : Content}
    {parent : Option Surrounding} {outer : List Surrounding} :
    ResolvesStatement o F env t c → PlacesBlocks o (elementsIn o env.declared parent outer t)
  | .text | .comment | .hiddenComment | .mustache _ => by
    rw [elementsIn]
    exact .nil
  | .blockForm _ hblock hother _ | .invokeBlock _ _ _ _ hblock hother => by
    rw [elementsIn, blockElements_eq]
    exact hblock.placesBlocks.append hother.placesBlocks
  | @ResolvesStatement.element _ _ env tag children span _ _ _ hname hplain _ _ hbody => by
    rw [invokes_eq] at hplain
    have hnames : childrenNames o env.declared tag = env.declared := by
      simp [childrenNames, hname, hplain]
    rw [elementsIn, hnames]
    exact .cons hname hbody.placesBlocks
  | @ResolvesStatement.component _ _ env tag children span _ _ _ _ _ hname hinvokes _ _ _
      hblocks => by
    rw [invokes_eq] at hinvokes
    have hnames : childrenNames o env.declared tag = tag.blockParams ++ env.declared := by
      simp [childrenNames, hinvokes]
    rw [elementsIn, hnames]
    exact .cons hname (hblocks.placesBlocks hname hinvokes)

theorem ResolvesStatements.placesBlocks {env : Scopes} {ts : List Statement} {cs : List Content}
    {parent : Option Surrounding} {outer : List Surrounding} :
    ResolvesStatements o F env ts cs → PlacesBlocks o (elementsOf o env.declared parent outer ts)
  | .nil => by
    rw [elementsOf]
    exact .nil
  | .cons hfirst hrest => by
    rw [elementsOf]
    exact hfirst.placesBlocks.append hrest.placesBlocks

theorem ResolvesBlock.placesBlocks {env : Scopes} {t : Template.Block Statement}
    {b : Block Content} {parent : Option Surrounding} {outer : List Surrounding} :
    ResolvesBlock o F env t b →
      PlacesBlocks o (elementsOf o (t.params ++ env.declared) parent outer t.body)
  | .mk hlength _ hbody => by
    rw [← Scopes.declared_cons env hlength]
    exact hbody.placesBlocks

theorem ResolvesOther.placesBlocks {env : Scopes} {t : Option (Template.Block Statement)}
    {b : Option (Block Content)} {outer : List Surrounding} :
    ResolvesOther o F env t b → PlacesBlocks o (otherElements o env.declared outer t)
  | .none => by
    rw [otherElements]
    exact .nil
  | .some hblock => by
    rw [otherElements, blockElements_eq]
    exact hblock.placesBlocks

theorem ResolvesChildren.placesBlocks {env : Scopes} {tag : StartTag} {ts : List Statement}
    {span : Span} {blocks : List (NamedBlock Content)} {outer : List Surrounding}
    (hname : isBlockName tag.name = false) (hinvokes : invokesIn o env.declared tag = true) :
    ResolvesChildren o F env tag ts span blocks →
      PlacesBlocks o (elementsOf o (tag.blockParams ++ env.declared)
        (some ⟨env.declared, tag, ts⟩) (⟨env.declared, tag, ts⟩ :: outer) ts)
  | .named _ hparams hblocks => by
    rw [hparams]
    exact hblocks.placesBlocks hinvokes hblocks.beside
  -- The children are not resolved, and whatever is in them is overlooked.
  | .selfClosing hnamed hclosing => by
    have hover : Surrounding.Overlooks o ⟨env.declared, tag, ts⟩ :=
      { plain := hname, invokes := hinvokes, selfClosing := hclosing, unnamed := hnamed }
    exact placesBlocks_of_overlooks hover ts
  | .default _ _ hblock => hblock.placesBlocks

theorem ResolvesNamedBlocks.placesBlocks {env : Scopes} {seen : List String}
    {ts children : List Statement} {blocks : List (NamedBlock Content)} {tag : StartTag}
    {outer : List Surrounding} (hinvokes : invokesIn o env.declared tag = true)
    (hbeside : ∀ s ∈ children, isNamedBlock s = true ∨ isBetweenBlocks s = true) :
    ResolvesNamedBlocks o F env seen ts blocks →
      PlacesBlocks o (elementsOf o env.declared (some ⟨env.declared, tag, children⟩) outer ts)
  | .nil => by
    rw [elementsOf]
    exact .nil
  | @ResolvesNamedBlocks.block _ _ env _ inner _ span rest _ _ _ htag _ hlower hattributes
      hmodifiers _ hblock hrest => by
    have hnames : childrenNames o env.declared inner = inner.blockParams ++ env.declared := by
      simp [childrenNames, htag]
    rw [elementsOf, elementsIn, hnames]
    refine PlacesBlocks.append (List.forall_mem_cons.mpr ⟨fun _ _ => ?_, hblock.placesBlocks⟩)
      (hrest.placesBlocks hinvokes hbeside)
    exact ⟨⟨_, rfl, hinvokes, hbeside⟩, hlower, hattributes, hmodifiers⟩
  | .between hbetween hrest => by
    rw [elementsOf, elementsIn_between hbetween, List.nil_append]
    exact hrest.placesBlocks hinvokes hbeside

end

end

end TemplateCompiler.Resolved

/-! ### Names in programs -/

namespace TemplateCompiler.Wire

/-- The last operand of a statement that is given blocks: their names and the
blocks themselves, as many and in the same order.  Without blocks an invocation
has `null` there. -/
def Statement.NamesBlocks (s : Statement) : Prop :=
  ∃ (names : List String) (values : List Json),
    (s.operands.getLast? = some (pairJson names values) ∨
      s.opcode = .invokeComponent ∧ names = [] ∧ s.operands.getLast? = some .null) ∧
    names.length = values.length ∧ names.Nodup ∧ "inverse" ∉ names

/-- Whether a statement is given blocks. -/
def Statement.takesBlocks (s : Statement) : Prop :=
  s.opcode = .block ∨ s.opcode = .component ∨ s.opcode = .invokeComponent

/-- Every statement that is given blocks names them. -/
def AllNameBlocks (ss : List Statement) : Prop := ∀ s ∈ ss, s.takesBlocks → s.NamesBlocks

theorem AllNameBlocks.nil : AllNameBlocks [] := by
  intro s hs
  cases hs

theorem AllNameBlocks.append {ss ss' : List Statement} (h : AllNameBlocks ss)
    (h' : AllNameBlocks ss') : AllNameBlocks (ss ++ ss') :=
  List.forall_mem_append.mpr ⟨h, h'⟩

/-- Names under which blocks may be given. -/
def FitNames (names : List String) : Prop := names.Nodup ∧ "inverse" ∉ names

section

variable {blocks : List (Entry (Block Statement))} (h : FitNames (blocks.map Entry.name))

include h

theorem namesBlocks_block (callee : Expr) (params : List Expr) (hash : List (Entry Expr)) :
    (Statement.block callee params hash blocks).NamesBlocks :=
  ⟨_, _, .inl (by simp [Statement.operands]), length_blocksJson blocks, h⟩

theorem namesBlocks_component (tag : Expr) (params : List Statement) (hash : List (Entry Expr)) :
    (Statement.component tag params hash blocks).NamesBlocks :=
  ⟨_, _, .inl (by simp [Statement.operands]), length_blocksJson blocks, h⟩

theorem namesBlocks_invokeComponent (definition : Expr) (params : List Expr)
    (hash : List (Entry Expr)) :
    (Statement.invokeComponent definition params hash blocks).NamesBlocks := by
  refine ⟨blocks.map Entry.name, blocksJson blocks, ?_, length_blocksJson blocks, h⟩
  by_cases hempty : blocks = []
  · exact .inr ⟨rfl, by simp [hempty], by simp [Statement.operands, hashJson, hempty]⟩
  · exact .inl (by simp [Statement.operands, hashJson, hempty])

end

/-- A statement and what is inside of it. -/
theorem AllNameBlocks.single {s : Statement} (hs : s.takesBlocks → s.NamesBlocks)
    (h : AllNameBlocks s.inside) : AllNameBlocks (statementsWithin [s]) := by
  rw [statementsWithin, statementsWithin, List.append_nil]
  exact List.forall_mem_cons.mpr ⟨hs, h⟩

end TemplateCompiler.Wire

namespace TemplateCompiler.Resolved

open Template (StartTag Statement)
open Wire (AllNameBlocks FitNames statementsWithin)

/-- Attributes and modifiers are given no blocks. -/
theorem ElementParams.encode_allNameBlocks (p : ElementParams) (onComponent : Bool) :
    AllNameBlocks (statementsWithin (p.encode onComponent)) := by
  have hnone : ∀ s ∈ p.encode onComponent, s.inside = [] ∧ ¬s.takesBlocks := by
    intro s hs
    rcases ElementParams.mem_encode hs with ⟨a, ha, hencode⟩ | ⟨m, hm, rfl⟩
    · obtain ⟨slot, span, rfl, rfl⟩ | ⟨name, text, space, rfl⟩ |
        ⟨name, value, trusting, span, space, rfl, rfl⟩ := Attr.encode_cases hencode
      · simp [Wire.Statement.inside, Wire.Statement.takesBlocks, Wire.Statement.opcode]
      · cases onComponent <;>
          simp [Wire.Statement.inside, Wire.Statement.takesBlocks, Wire.Statement.opcode]
      · cases onComponent <;> cases trusting <;>
          simp [Wire.Statement.inside, Wire.Statement.takesBlocks, Wire.Statement.opcode]
    · simp [Modifier.encode, Wire.Statement.inside, Wire.Statement.takesBlocks,
        Wire.Statement.opcode]
  rw [Wire.statementsWithin_eq_self fun s hs => (hnone s hs).1]
  exact fun s hs htakes => absurd htakes (hnone s hs).2

theorem encodeBlocks_names (blocks : List (NamedBlock Content)) :
    (encodeBlocks blocks).map Wire.Entry.name = blocks.map NamedBlock.name := by
  induction blocks with
  | nil => rw [encodeBlocks, List.map_nil, List.map_nil]
  | cons named rest ih => rw [encodeBlocks, List.map_cons, List.map_cons, ih]

theorem branchBlocks_fitNames (program : Template.Block Statement)
    (inverse : Option (Template.Block Statement)) (block : Block Content)
    (other : Option (Block Content)) :
    FitNames ((branchBlocks program inverse block other).map NamedBlock.name) := by
  unfold branchBlocks FitNames
  split <;> simp

section

variable {o : Settings} {F : Symbols}

/-- The names of named blocks differ from each other and from those before. -/
theorem ResolvesNamedBlocks.names {env : Scopes} {seen : List String} {ts : List Statement}
    {blocks : List (NamedBlock Content)} (h : ResolvesNamedBlocks o F env seen ts blocks) :
    FitNames (blocks.map NamedBlock.name) ∧ ∀ name ∈ blocks.map NamedBlock.name, name ∉ seen := by
  induction ts generalizing seen blocks with
  | nil =>
    cases h
    simp [FitNames]
  | cons s ts ih =>
    cases h with
    | @block _ _ _ _ _ _ name _ _ _ hname _ _ _ hnew _ hrest =>
      obtain ⟨⟨hnodup, hinverse⟩, hseen⟩ := ih hrest
      have hother : name ≠ "inverse" := by
        rw [hname, Symbols.blockName]
        split <;> simp_all
      rw [List.map_cons]
      refine ⟨⟨List.nodup_cons.mpr ⟨fun hmem => ?_, hnodup⟩, ?_⟩,
        List.forall_mem_cons.mpr ⟨hnew, fun name' hmem hmem' => ?_⟩⟩
      · exact hseen name hmem List.mem_cons_self
      · exact fun hmem => (List.mem_cons.mp hmem).elim (fun heq => hother heq.symm) hinverse
      · exact hseen name' hmem (List.mem_cons_of_mem _ hmem')
    | between _ hrest => exact ih hrest

theorem ResolvesChildren.names {env : Scopes} {tag : StartTag} {ts : List Statement} {span : Span}
    {blocks : List (NamedBlock Content)} (h : ResolvesChildren o F env tag ts span blocks) :
    FitNames (blocks.map NamedBlock.name) := by
  match h with
  | .named _ _ hblocks => exact hblocks.names.1
  | .selfClosing _ _ => simp [FitNames]
  | .default _ _ _ => simp [FitNames]

/-- The blocks of a call, and what is inside of them. -/
theorem branchBlocks_allNameBlocks {program : Template.Block Statement}
    {inverse : Option (Template.Block Statement)} {block : Block Content}
    {other : Option (Block Content)} (hblock : AllNameBlocks (Wire.blockWithin (encodeBlock block)))
    (hother : AllNameBlocks (Wire.otherWithin (encodeOther other))) :
    AllNameBlocks (Wire.blocksWithin
      (encodeBlocks (branchBlocks program inverse block other))) := by
  unfold branchBlocks
  split
  · simp only [encodeBlocks, Wire.blocksWithin, List.append_nil]
    exact hblock.append (by simpa only [encodeOther, Wire.otherWithin] using hother)
  · simpa only [encodeBlocks, Wire.blocksWithin, List.append_nil] using hblock

theorem ResolvesAppend.allNameBlocks {env : Scopes} {tag : Template.MustacheTag} {c : Content}
    (h : ResolvesAppend o F env tag c) : AllNameBlocks (statementsWithin c.encode) := by
  -- Most tags take no blocks and hold no statements.
  have hbare : ∀ s : Wire.Statement, s.inside = [] → ¬s.takesBlocks →
      AllNameBlocks (statementsWithin [s]) := by
    intro s hinside hnone
    refine .single (fun htakes => absurd htakes hnone) ?_
    rw [hinside]
    exact .nil
  have hvalue : ∀ e, AllNameBlocks (statementsWithin
      (Content.append e tag.trusting tag.span).encode) := by
    intro e
    rw [Content.encode]
    refine hbare _ (by rw [Wire.Statement.inside]) ?_
    cases tag.trusting <;> simp [Wire.Statement.takesBlocks, Wire.Statement.opcode]
  cases h with
  | bare _ _ _ _ | call _ _ => exact hvalue _
  | keyword _ hform =>
    cases hform with
    | value _ => exact hvalue _
    | yield _ _ _ _ | partialCall _ _ _ _ | debugger _ _ =>
      rw [Content.encode]
      exact hbare _ (by rw [Wire.Statement.inside])
        (by simp [Wire.Statement.takesBlocks, Wire.Statement.opcode])
    | component _ =>
      rw [Content.encode]
      refine .single (fun _ => Wire.namesBlocks_invokeComponent ?_ _ _ _) ?_
      · simp [encodeBlocks, FitNames]
      · rw [Wire.Statement.inside, encodeBlocks, Wire.blocksWithin]
        exact .nil

theorem ResolvesBlockForm.allNameBlocks {env : Scopes} {tag : Template.BlockTag}
    {program : Template.Block Statement} {inverse : Option (Template.Block Statement)}
    {block : Block Content} {other : Option (Block Content)} {k : BlockKeyword} {c : Content}
    (hblock : AllNameBlocks (Wire.blockWithin (encodeBlock block)))
    (hother : AllNameBlocks (Wire.otherWithin (encodeOther other)))
    (h : ResolvesBlockForm o F env tag program inverse block other k c) :
    AllNameBlocks (statementsWithin c.encode) := by
  cases h with
  | branch _ _ _ | each _ _ _ _ | withValue _ _ _ =>
    rw [Content.encode]
    refine .single (by simp [Wire.Statement.takesBlocks, Wire.Statement.opcode]) ?_
    rw [Wire.Statement.inside]
    exact hblock.append hother
  | letValues _ _ _ | inElement _ _ _ _ _ | withDynamicVars _ _ _ =>
    rw [Content.encode]
    refine .single (by simp [Wire.Statement.takesBlocks, Wire.Statement.opcode]) ?_
    rw [Wire.Statement.inside]
    exact hblock
  -- A component takes the branches as blocks, under their two names.
  | component _ =>
    rw [Content.encode]
    refine .single (fun _ => Wire.namesBlocks_invokeComponent ?_ _ _ _) ?_
    · rw [encodeBlocks_names]
      exact branchBlocks_fitNames _ _ _ _
    · rw [Wire.Statement.inside]
      exact branchBlocks_allNameBlocks hblock hother

mutual

theorem ResolvesStatement.allNameBlocks {env : Scopes} {t : Statement} {c : Content} :
    ResolvesStatement o F env t c → AllNameBlocks (statementsWithin c.encode)
  | .text | .comment => by
    rw [Content.encode]
    refine .single (by simp [Wire.Statement.takesBlocks, Wire.Statement.opcode]) ?_
    rw [Wire.Statement.inside]
    exact .nil
  | .hiddenComment => by
    rw [Content.encode, statementsWithin]
    exact .nil
  | .mustache htag => htag.allNameBlocks
  | .blockForm _ hblock hother hform =>
    hform.allNameBlocks hblock.allNameBlocks hother.allNameBlocks
  | .invokeBlock _ _ _ _ hblock hother => by
    rw [Content.encode]
    refine .single (fun _ => Wire.namesBlocks_block ?_ _ _ _) ?_
    · rw [encodeBlocks_names]
      exact branchBlocks_fitNames _ _ _ _
    · rw [Wire.Statement.inside]
      exact branchBlocks_allNameBlocks hblock.allNameBlocks hother.allNameBlocks
  | @ResolvesStatement.element _ _ _ tag _ _ attrs modifiers _ _ _ _ _ hbody => by
    -- An element is a run of statements, none of which is given blocks.
    have hopen : AllNameBlocks
        (statementsWithin [Wire.Statement.openElement tag.name
          (ElementParams.mk attrs modifiers).hasSplat]) := by
      refine .single ?_ ?_
      · cases (ElementParams.mk attrs modifiers).hasSplat <;>
          simp [Wire.Statement.takesBlocks, Wire.Statement.opcode]
      · rw [Wire.Statement.inside]
        exact .nil
    have hmark : ∀ s, s = Wire.Statement.flushElement ∨ s = .closeElement →
        AllNameBlocks (statementsWithin [s]) := by
      rintro s (rfl | rfl) <;>
      · refine .single (by simp [Wire.Statement.takesBlocks, Wire.Statement.opcode]) ?_
        rw [Wire.Statement.inside]
        exact .nil
    have hrun : ∀ body : List Wire.Statement, AllNameBlocks (statementsWithin body) →
        AllNameBlocks (statementsWithin
          ([Wire.Statement.openElement tag.name (ElementParams.mk attrs modifiers).hasSplat] ++
            ((ElementParams.mk attrs modifiers).encode false ++
              ([Wire.Statement.flushElement] ++ (body ++ [Wire.Statement.closeElement]))))) := by
      intro body hbody
      simp only [Wire.statementsWithin_append]
      exact hopen.append ((ElementParams.encode_allNameBlocks _ _).append
        ((hmark _ (.inl rfl)).append (hbody.append (hmark _ (.inr rfl)))))
    rw [Content.encode]
    exact hrun _ hbody.allNameBlocks
  | .component _ _ _ _ _ hblocks => by
    rw [Content.encode]
    refine .single (fun _ => Wire.namesBlocks_component ?_ _ _ _) ?_
    · rw [encodeBlocks_names]
      exact hblocks.names
    · rw [Wire.Statement.inside]
      exact (ElementParams.encode_allNameBlocks _ _).append hblocks.allNameBlocks

theorem ResolvesStatements.allNameBlocks {env : Scopes} {ts : List Statement}
    {cs : List Content} :
    ResolvesStatements o F env ts cs → AllNameBlocks (statementsWithin (encodeContents cs))
  | .nil => by
    rw [encodeContents, statementsWithin]
    exact .nil
  | .cons hfirst hrest => by
    rw [encodeContents, Wire.statementsWithin_append]
    exact hfirst.allNameBlocks.append hrest.allNameBlocks

theorem ResolvesBlock.allNameBlocks {env : Scopes} {t : Template.Block Statement}
    {b : Block Content} :
    ResolvesBlock o F env t b → AllNameBlocks (Wire.blockWithin (encodeBlock b))
  | .mk _ _ hbody => by
    rw [encodeBlock, Wire.blockWithin]
    exact hbody.allNameBlocks

theorem ResolvesOther.allNameBlocks {env : Scopes} {t : Option (Template.Block Statement)}
    {b : Option (Block Content)} :
    ResolvesOther o F env t b → AllNameBlocks (Wire.otherWithin (encodeOther b))
  | .none => by
    rw [encodeOther, Wire.otherWithin]
    exact .nil
  | .some hblock => by
    rw [encodeOther, Wire.otherWithin]
    exact hblock.allNameBlocks

theorem ResolvesChildren.allNameBlocks {env : Scopes} {tag : StartTag} {ts : List Statement}
    {span : Span} {blocks : List (NamedBlock Content)} :
    ResolvesChildren o F env tag ts span blocks →
      AllNameBlocks (Wire.blocksWithin (encodeBlocks blocks))
  | .named _ _ hblocks => hblocks.allNameBlocks
  | .selfClosing _ _ => by
    rw [encodeBlocks, Wire.blocksWithin]
    exact .nil
  | .default _ _ hblock => by
    simpa only [encodeBlocks, Wire.blocksWithin, List.append_nil] using hblock.allNameBlocks

theorem ResolvesNamedBlocks.allNameBlocks {env : Scopes} {seen : List String}
    {ts : List Statement} {blocks : List (NamedBlock Content)} :
    ResolvesNamedBlocks o F env seen ts blocks →
      AllNameBlocks (Wire.blocksWithin (encodeBlocks blocks))
  | .nil => by
    rw [encodeBlocks, Wire.blocksWithin]
    exact .nil
  | .block _ _ _ _ _ _ hblock hrest => by
    rw [encodeBlocks, Wire.blocksWithin]
    exact hblock.allNameBlocks.append hrest.allNameBlocks
  | .between _ hrest => hrest.allNameBlocks

end

end

/-! ### Templates -/

section

variable {o : Settings}

mutual

theorem elementsIn_open {names : List String} {parent : Option Surrounding}
    {outer : List Surrounding} (houter : ∀ a ∈ outer, a.tag.selfClosing = false) {s : Statement}
    (h : ∀ s' ∈ s.within, ClosesAlone s') :
    ∀ e ∈ elementsIn o names parent outer s, ∀ a ∈ e.outer, a.tag.selfClosing = false := by
  match s with
  | .element tag children span =>
    rw [Statement.within] at h
    obtain ⟨halone, hchildren⟩ := List.forall_mem_cons.mp h
    rw [elementsIn]
    refine List.forall_mem_cons.mpr ⟨houter, ?_⟩
    cases hself : tag.selfClosing with
    | true =>
      -- There are no elements among its children.
      rw [halone hself, elementsOf]
      simp
    | false => exact elementsOf_open (List.forall_mem_cons.mpr ⟨hself, houter⟩) hchildren
  | .block tag program other =>
    rw [Statement.within] at h
    obtain ⟨hprogram, hother⟩ := List.forall_mem_append.mp (List.forall_mem_cons.mp h).2
    rw [elementsIn]
    exact List.forall_mem_append.mpr
      ⟨blockElements_open houter hprogram, otherElements_open houter hother⟩
  | .mustache _ | .partialCall _ | .comment _ | .mustacheComment _ | .text _ => simp [elementsIn]

/-- Where tags that close themselves have no children, nothing is inside of them. -/
theorem elementsOf_open {names : List String} {parent : Option Surrounding}
    {outer : List Surrounding} (houter : ∀ a ∈ outer, a.tag.selfClosing = false)
    {ss : List Statement} (h : ∀ s ∈ Template.statementsWithin ss, ClosesAlone s) :
    ∀ e ∈ elementsOf o names parent outer ss, ∀ a ∈ e.outer, a.tag.selfClosing = false := by
  match ss with
  | [] => simp [elementsOf]
  | s :: rest =>
    rw [Template.statementsWithin] at h
    obtain ⟨hfirst, hrest⟩ := List.forall_mem_append.mp h
    rw [elementsOf]
    exact List.forall_mem_append.mpr ⟨elementsIn_open houter hfirst, elementsOf_open houter hrest⟩

theorem blockElements_open {names : List String} {outer : List Surrounding}
    (houter : ∀ a ∈ outer, a.tag.selfClosing = false) {b : Template.Block Statement}
    (h : ∀ s ∈ Template.blockWithin b, ClosesAlone s) :
    ∀ e ∈ blockElements o names outer b, ∀ a ∈ e.outer, a.tag.selfClosing = false := by
  match b with
  | ⟨body, params, _, _⟩ =>
    rw [Template.blockWithin] at h
    rw [blockElements]
    exact elementsOf_open houter h

theorem otherElements_open {names : List String} {outer : List Surrounding}
    (houter : ∀ a ∈ outer, a.tag.selfClosing = false) {b : Option (Template.Block Statement)}
    (h : ∀ s ∈ Template.otherWithin b, ClosesAlone s) :
    ∀ e ∈ otherElements o names outer b, ∀ a ∈ e.outer, a.tag.selfClosing = false := by
  match b with
  | none => simp [otherElements]
  | some block =>
    rw [Template.otherWithin] at h
    rw [otherElements]
    exact blockElements_open houter h

end

end

/-- In a template that is resolved every named block stands properly, if it is not
inside of a component that is overlooked, and in a template that was parsed none of
them is.  In its program every statement that is given blocks has as many names as
blocks, all different and none of them `inverse`. -/
theorem resolve_places_blocks {t : Template} {o : Settings} {body : Body} {p : Progress}
    (h : t.resolve o = (.ok body, p)) :
    (∀ e ∈ templateElements o t, isBlockName e.tag.name = true →
      (∀ a ∈ e.outer, ¬a.Overlooks o) → e.Proper o) ∧
    (∀ source mode warnings, Template.parse source mode = .ok (t, warnings) →
      ∀ e ∈ templateElements o t, ∀ a ∈ e.outer, ¬a.Overlooks o) ∧
    ∀ s ∈ statementsWithin (body.encode p.symbols).statements, s.takesBlocks → s.NamesBlocks := by
  have hresolves := resolve_agrees t o body p h
  refine ⟨hresolves.placesBlocks, fun source mode warnings hparse e he a ha hover => ?_,
    hresolves.allNameBlocks⟩
  have halone := closesAlone_of_close (Template.parse_closes hparse)
  have hself := hover.selfClosing
  rw [elementsOf_open (List.forall_mem_nil _) halone e he a ha] at hself
  cases hself

/-- A component that is given two blocks, with a comment between them. -/
def twoBlocks : Template where
  body :=
    [.element { name := "Foo" }
      [.element { name := ":bar", blockParams := ["x"] } [writeName "x"] .dummy,
        .comment ⟨"", .dummy⟩, .element { name := ":inverse" } [] .dummy] .dummy]
  span := .dummy

theorem resolve_places_blocks_twoBlocks :
    ∃ body p, twoBlocks.resolve {} = (.ok body, p) ∧
      (∀ e ∈ templateElements {} twoBlocks, isBlockName e.tag.name = true → e.Proper {}) ∧
      ∀ s ∈ statementsWithin (body.encode p.symbols).statements,
        s.takesBlocks → s.NamesBlocks := by
  have hok : (twoBlocks.resolve {}).1.isOk = true := by decide +kernel
  have hopen : ∀ e ∈ templateElements {} twoBlocks, ∀ a ∈ e.outer, a.tag.selfClosing = false := by
    simp [templateElements, twoBlocks, writeName, elementsOf, elementsIn]
  match hrun : twoBlocks.resolve {} with
  | (.ok body, p) =>
    obtain ⟨hplaces, -, hnames⟩ := resolve_places_blocks hrun
    refine ⟨body, p, rfl, fun e he hblock => hplaces e he hblock fun a ha hover => ?_, hnames⟩
    have hself := hover.selfClosing
    rw [hopen e he a ha] at hself
    cases hself
  | (.error fault, p) =>
    rw [hrun] at hok
    cases hok

/-- A component whose tag closes itself, and deep inside of it a named block with an
attribute, on a tag that invokes nothing. -/
def overlookedBlock : Template where
  body :=
    [.element { name := "Foo", selfClosing := true }
      [.element { name := "div" }
        [.element { name := ":Bar", attributes := [⟨"id", .text ⟨"x", .dummy⟩, .dummy⟩] } []
          .dummy] .dummy] .dummy]
  span := .dummy

/-- A call of the keyword for components, without blocks. -/
def blocklessCall : Template where
  body := [.mustache ⟨⟨bareName "component", [bareName "foo"], ⟨[], .dummy⟩⟩, false, {}, .dummy⟩]
  span := .dummy

/-- A template is resolved although a named block in it stands wrong, and a component
that is called without blocks has `null` where their names and the blocks would be. -/
theorem overlooked_block_resolves :
    ((overlookedBlock.resolve {}).1.isOk = true ∧
      ∃ e ∈ templateElements {} overlookedBlock, isBlockName e.tag.name = true ∧ ¬e.Proper {}) ∧
    ∃ body p, blocklessCall.resolve {} = (.ok body, p) ∧
      ∃ s ∈ statementsWithin (body.encode p.symbols).statements,
        s.opcode = .invokeComponent ∧ s.operands.getLast? = some .null := by
  have hok : (overlookedBlock.resolve {}).1.isOk = true := by decide +kernel
  have hwrong : ∃ e ∈ templateElements {} overlookedBlock,
      isBlockName e.tag.name = true ∧ e.tag.attributes ≠ [] := by
    simp [templateElements, overlookedBlock, elementsOf, elementsIn, isBlockName]
  refine ⟨⟨hok, ?_⟩, ?_⟩
  · obtain ⟨e, he, hblock, hattributes⟩ := hwrong
    exact ⟨e, he, hblock, fun hproper => hattributes hproper.attributes⟩
  · obtain ⟨callee, args, span, p, hresolve⟩ : ∃ callee args span p, blocklessCall.resolve {} =
        (.ok ⟨[.invokeDynamic callee args [] span], blocklessCall.span⟩, p) := ⟨_, _, _, _, rfl⟩
    refine ⟨_, p, hresolve, ?_⟩
    simp only [Body.encode, encodeContents, Content.encode, encodeBlocks, List.append_nil]
    refine ⟨_, List.mem_of_mem_head? rfl, rfl, ?_⟩
    simp [Wire.Statement.operands, Wire.hashJson]

end TemplateCompiler.Resolved
