/-
Elements among the statements of a program.

An element is written without brackets around it: its start, its attributes and
modifiers, a flush, its body and its end stand in one list with what comes before
and after it.  The list can still be read back as a tree.

* `Tree` — pieces in order, some of them elements with a body;
* `Nests` — the grammar of statement lists, each sentence with its tree;
* `renest` — reads the tree off a list, with a stack of started elements;
* `renest_eq_some` — what `renest` reads is what the grammar says, so that no list
  has two trees;
* `Resolved.encode_lists_nest` — every list of statements of an encoded template is a
  sentence, and its tree is the tree of the content it was written from.

The lists of a program are the one of the program and those of its blocks at any
depth.  The attributes of a component are operands of its one statement, not a list
of this kind.
-/
import TemplateCompiler.Proofs.Wire.Scoping

namespace TemplateCompiler

/-- A piece that may be an element, with a body of pieces. -/
inductive Tree (α β : Type) where
  | leaf (value : α)
  | element (head : β) (body : List (Tree α β))

mutual

/-- Replaces the leaves and the heads of a tree. -/
def Tree.map {α β γ δ : Type} (f : α → γ) (g : β → δ) : Tree α β → Tree γ δ
  | .leaf value => .leaf (f value)
  | .element head body => .element (g head) (mapTrees f g body)

/-- Replaces the leaves and the heads of trees. -/
def mapTrees {α β γ δ : Type} (f : α → γ) (g : β → δ) : List (Tree α β) → List (Tree γ δ)
  | [] => []
  | t :: rest => t.map f g :: mapTrees f g rest

end

theorem mapTrees_append {α β γ δ : Type} (f : α → γ) (g : β → δ) (ts us : List (Tree α β)) :
    mapTrees f g (ts ++ us) = mapTrees f g ts ++ mapTrees f g us := by
  induction ts with
  | nil => rw [mapTrees, List.nil_append, List.nil_append]
  | cons t rest ih => rw [List.cons_append, mapTrees, mapTrees, ih, List.cons_append]

end TemplateCompiler

namespace TemplateCompiler.Wire

/-! ### The grammar of statement lists -/

/-- Whether a statement sets attributes of the element that was started. -/
def Statement.isAttribute : Statement → Bool
  | .staticAttr _ _ _ _ | .dynamicAttr _ _ _ _ _ | .attrSplat _ => true
  | _ => false

/-- Whether a statement is a modifier. -/
def Statement.isModifier : Statement → Bool
  | .modifier _ _ _ => true
  | _ => false

/-- Whether a statement takes the attributes of the caller. -/
def Statement.isSplat : Statement → Bool
  | .attrSplat _ => true
  | _ => false

/-- Whether a statement is no part of an element. -/
def Statement.isOther : Statement → Bool
  | .openElement _ _ | .flushElement | .closeElement => false
  | s => !s.isAttribute && !s.isModifier

/-- The start of an element, up to the flush. -/
structure Head where
  tag : String
  splat : Bool
  /-- Its attributes and modifiers. -/
  params : List Statement

/-- A statement, or an element in brackets. -/
abbrev Node : Type := Tree Statement Head

/-- A list of statements is made of elements and of other statements; an element
is its start, attributes, modifiers, a flush, such a list and its end.  The start
says whether the attributes of the caller are among its own. -/
inductive Nests : List Statement → List Node → Prop where
  | nil : Nests [] []
  | other {s : Statement} {rest : List Statement} {ts : List Node} (hother : s.isOther = true)
      (hrest : Nests rest ts) : Nests (s :: rest) (.leaf s :: ts)
  | element {tag : String} {splat : Bool} {attrs modifiers body rest : List Statement}
      {ts us : List Node}
      (hattrs : ∀ s ∈ attrs, s.isAttribute = true)
      (hmodifiers : ∀ s ∈ modifiers, s.isModifier = true)
      (hsplat : splat = true ↔ ∃ slot, .attrSplat slot ∈ attrs)
      (hbody : Nests body ts) (hrest : Nests rest us) :
      Nests
        (.openElement tag splat :: (attrs ++ modifiers ++
          .flushElement :: (body ++ .closeElement :: rest)))
        (.element ⟨tag, splat, attrs ++ modifiers⟩ ts :: us)

theorem Nests.append {ss ss' : List Statement} {ts ts' : List Node} (h : Nests ss ts)
    (h' : Nests ss' ts') : Nests (ss ++ ss') (ts ++ ts') := by
  induction h with
  | nil => exact h'
  | other hother hrest ih => exact .other hother ih
  | element hattrs hmodifiers hsplat hbody hrest ihbody ihrest =>
    simpa only [List.cons_append, List.append_assoc] using
      Nests.element hattrs hmodifiers hsplat hbody ihrest

theorem Nests.single {s : Statement} (h : s.isOther = true) : Nests [s] [.leaf s] :=
  .other h .nil

/-! ### Reading the tree off a list -/

/-- Whether attributes come before modifiers, nothing else is set, and the start
says whether the attributes of the caller are taken. -/
def Head.isWellFormed (h : Head) : Bool :=
  (h.params.dropWhile Statement.isAttribute).all Statement.isModifier
    && h.splat == h.params.any Statement.isSplat

theorem Statement.isSplat_iff {s : Statement} : s.isSplat = true ↔ ∃ slot, s = .attrSplat slot := by
  cases s <;> simp [isSplat]

theorem Statement.not_isAttribute_of_isModifier {s : Statement} (h : s.isModifier = true) :
    s.isAttribute = false := by
  cases s <;> first | rfl | simp [isModifier] at h

/-- A splat among attributes and modifiers is one of the attributes. -/
theorem any_isSplat {attrs modifiers : List Statement}
    (hmodifiers : ∀ s ∈ modifiers, s.isModifier = true) :
    (attrs ++ modifiers).any Statement.isSplat = true ↔ ∃ slot, .attrSplat slot ∈ attrs := by
  rw [List.any_eq_true]
  constructor
  · rintro ⟨s, hs, hsplat⟩
    obtain ⟨slot, rfl⟩ := Statement.isSplat_iff.mp hsplat
    rcases List.mem_append.mp hs with hs | hs
    · exact ⟨slot, hs⟩
    · exact absurd (hmodifiers _ hs) (by simp [Statement.isModifier])
  · rintro ⟨slot, hs⟩
    exact ⟨_, List.mem_append_left _ hs, rfl⟩

theorem Head.isWellFormed_iff {h : Head} : h.isWellFormed = true ↔
    ∃ attrs modifiers, h.params = attrs ++ modifiers ∧ (∀ s ∈ attrs, s.isAttribute = true) ∧
      (∀ s ∈ modifiers, s.isModifier = true) ∧
      (h.splat = true ↔ ∃ slot, .attrSplat slot ∈ attrs) := by
  rw [isWellFormed, Bool.and_eq_true, List.all_eq_true, beq_iff_eq]
  constructor
  · rintro ⟨hmodifiers, hsplat⟩
    refine ⟨_, _, List.takeWhile_append_dropWhile.symm,
      List.all_eq_true.mp List.all_takeWhile, hmodifiers, ?_⟩
    rw [hsplat, ← any_isSplat hmodifiers, List.takeWhile_append_dropWhile]
  · rintro ⟨attrs, modifiers, hparams, hattrs, hmodifiers, hsplat⟩
    have hdrop : modifiers.dropWhile Statement.isAttribute = modifiers := by
      cases modifiers with
      | nil => rfl
      | cons m rest =>
        exact List.dropWhile_cons_of_neg (by
          simp [Statement.not_isAttribute_of_isModifier (hmodifiers m List.mem_cons_self)])
    rw [hparams, List.dropWhile_append_of_pos hattrs, hdrop]
    exact ⟨hmodifiers, Bool.eq_iff_iff.mpr (hsplat.trans (any_isSplat hmodifiers).symm)⟩

/-- A started element and what stands before it. -/
structure Frame where
  head : Head
  before : List Node

/-- How far a list has been read. -/
structure Renesting where
  /-- The elements whose end is still to come, the innermost first. -/
  frames : List Frame := []
  /-- The element whose flush is still to come. -/
  start : Option Head := none
  /-- What has been read of the innermost element, or of the list. -/
  body : List Node := []

/-- Reads a statement. -/
def Renesting.step (r : Renesting) (s : Statement) : Option Renesting :=
  match r.start, s with
  | some head, .flushElement =>
    if head.isWellFormed then some ⟨⟨head, r.body⟩ :: r.frames, none, []⟩ else none
  | some head, s => some { r with start := some { head with params := head.params ++ [s] } }
  | none, .openElement tag splat => some { r with start := some ⟨tag, splat, []⟩ }
  | none, .closeElement =>
    match r.frames with
    | [] => none
    | frame :: frames => some ⟨frames, none, frame.before ++ [.element frame.head r.body]⟩
  | none, s => if s.isOther then some { r with body := r.body ++ [.leaf s] } else none

/-- The tree of a list, if all that was started was ended. -/
def Renesting.tree? : Renesting → Option (List Node)
  | ⟨[], none, body⟩ => some body
  | _ => none

/-- Reads the tree off a list of statements. -/
def renest (ss : List Statement) : Option (List Node) :=
  (ss.foldlM Renesting.step {}).bind Renesting.tree?

/-! ### Every sentence is read -/

/-- Attributes and modifiers are kept until the flush. -/
theorem foldlM_step_params {params : List Statement} (h : ∀ s ∈ params, s ≠ .flushElement)
    (frames : List Frame) (head : Head) (body : List Node) :
    params.foldlM Renesting.step ⟨frames, some head, body⟩
      = some ⟨frames, some { head with params := head.params ++ params }, body⟩ := by
  induction params generalizing head with
  | nil => rw [List.foldlM_nil, List.append_nil]; rfl
  | cons s rest ih =>
    have hstep : Renesting.step ⟨frames, some head, body⟩ s
        = some ⟨frames, some { head with params := head.params ++ [s] }, body⟩ := by
      cases s <;> first | rfl | exact absurd rfl (h _ List.mem_cons_self)
    rw [List.foldlM_cons, hstep, Option.bind_eq_bind, Option.bind_some,
      ih (fun s hs => h s (List.mem_cons_of_mem _ hs)), List.append_assoc, List.singleton_append]

theorem Renesting.step_other {s : Statement} (h : s.isOther = true) (frames : List Frame)
    (body : List Node) :
    step ⟨frames, none, body⟩ s = some ⟨frames, none, body ++ [Tree.leaf s]⟩ := by
  cases s <;> first | rfl | cases h

/-- Reading a sentence adds its tree to what has been read. -/
theorem Nests.foldlM_step {ss : List Statement} {ts : List Node} (h : Nests ss ts)
    (frames : List Frame) (body : List Node) :
    ss.foldlM Renesting.step ⟨frames, none, body⟩ = some ⟨frames, none, body ++ ts⟩ := by
  induction h generalizing frames body with
  | nil => rw [List.foldlM_nil, List.append_nil]; rfl
  | other hother hrest ih =>
    rw [List.foldlM_cons, Renesting.step_other hother, Option.bind_eq_bind, Option.bind_some, ih,
      List.append_assoc, List.singleton_append]
  | @element tag splat attrs modifiers inner rest ts us hattrs hmodifiers hsplat hbody hrest
      ihbody ihrest =>
    -- Up to the flush there are only attributes and modifiers, which the head keeps.
    have hnoflush : ∀ s ∈ attrs ++ modifiers, s ≠ Statement.flushElement := by
      rintro s hs rfl
      rcases List.mem_append.mp hs with hs | hs
      · cases hattrs _ hs
      · cases hmodifiers _ hs
    have hstart : Renesting.step ⟨frames, none, body⟩ (.openElement tag splat)
        = some ⟨frames, some ⟨tag, splat, []⟩, body⟩ := rfl
    have hflush : Renesting.step ⟨frames, some ⟨tag, splat, attrs ++ modifiers⟩, body⟩ .flushElement
        = some ⟨⟨⟨tag, splat, attrs ++ modifiers⟩, body⟩ :: frames, none, []⟩ :=
      if_pos (Head.isWellFormed_iff.mpr ⟨attrs, modifiers, rfl, hattrs, hmodifiers, hsplat⟩)
    have hend : Renesting.step ⟨⟨⟨tag, splat, attrs ++ modifiers⟩, body⟩ :: frames, none, ts⟩
        .closeElement
        = some ⟨frames, none, body ++ [Tree.element ⟨tag, splat, attrs ++ modifiers⟩ ts]⟩ := rfl
    generalize attrs ++ modifiers = params at hnoflush hflush hend ⊢
    simp only [List.foldlM_cons, List.foldlM_append, Option.bind_eq_bind, Option.bind_some, hstart,
      foldlM_step_params hnoflush, hflush, ihbody, hend, ihrest, List.nil_append, List.append_assoc,
      List.singleton_append]

/-! ### Only sentences are read -/

/-- The statements that lead to these frames and this body. -/
def ReadsTo : List Frame → List Node → List Statement → Prop
  | [], body, ss => Nests ss body
  | frame :: frames, body, ss => ∃ before inner, ReadsTo frames frame.before before ∧
      frame.head.isWellFormed = true ∧ Nests inner body ∧
      ss = before ++ .openElement frame.head.tag frame.head.splat ::
        (frame.head.params ++ .flushElement :: inner)

/-- The statements that lead to a place in a list. -/
def Renesting.Reads (r : Renesting) (ss : List Statement) : Prop :=
  match r.start with
  | none => ReadsTo r.frames r.body ss
  | some head => ∃ before, ReadsTo r.frames r.body before ∧
      ss = before ++ .openElement head.tag head.splat :: head.params

/-- A sentence that follows adds its tree to the body. -/
theorem ReadsTo.append {frames : List Frame} {body ts : List Node} {ss ss' : List Statement}
    (h : ReadsTo frames body ss) (h' : Nests ss' ts) : ReadsTo frames (body ++ ts) (ss ++ ss') := by
  cases frames with
  | nil => exact Nests.append h h'
  | cons frame frames =>
    obtain ⟨before, inner, hbefore, hhead, hinner, rfl⟩ := h
    refine ⟨before, inner ++ ss', hbefore, hhead, hinner.append h', ?_⟩
    simp only [List.append_assoc, List.cons_append]

theorem Renesting.Reads.step {r r' : Renesting} {ss : List Statement} {s : Statement}
    (h : r.Reads ss) (hstep : r.step s = some r') : r'.Reads (ss ++ [s]) := by
  obtain ⟨frames, start, body⟩ := r
  unfold Renesting.step at hstep
  split at hstep
  case h_1 head heq =>
    obtain rfl : start = some head := heq
    obtain ⟨before, hbefore, rfl⟩ := h
    split at hstep
    · next hhead =>
      obtain rfl := Option.some.inj hstep
      exact ⟨before, [], hbefore, hhead, .nil, by simp⟩
    · cases hstep
  case h_2 head heq _ =>
    obtain rfl : start = some head := heq
    obtain ⟨before, hbefore, rfl⟩ := h
    obtain rfl := Option.some.inj hstep
    exact ⟨before, hbefore, by simp⟩
  case h_3 tag splat heq =>
    obtain rfl : start = none := heq
    obtain rfl := Option.some.inj hstep
    exact ⟨ss, h, rfl⟩
  case h_4 heq =>
    obtain rfl : start = none := heq
    cases frames with
    | nil => cases hstep
    | cons frame frames =>
      obtain rfl := Option.some.inj hstep
      obtain ⟨before, inner, hbefore, hhead, hinner, rfl⟩ := h
      obtain ⟨attrs, modifiers, hparams, hattrs, hmodifiers, hsplat⟩ :=
        Head.isWellFormed_iff.mp hhead
      -- The element is now whole, and so a sentence by itself.
      have helement : Nests (.openElement frame.head.tag frame.head.splat ::
          (attrs ++ modifiers ++ .flushElement :: (inner ++ [.closeElement])))
          [.element ⟨frame.head.tag, frame.head.splat, attrs ++ modifiers⟩ body] :=
        .element hattrs hmodifiers hsplat hinner .nil
      rw [← hparams] at helement
      have hreads := hbefore.append helement
      simpa only [Renesting.Reads, List.append_assoc, List.cons_append] using hreads
  case h_5 heq _ _ =>
    obtain rfl : start = none := heq
    split at hstep
    · next hother =>
      obtain rfl := Option.some.inj hstep
      exact ReadsTo.append h (.single hother)
    · cases hstep

theorem Renesting.Reads.foldlM {ss' : List Statement} {r r' : Renesting} {ss : List Statement}
    (h : r.Reads ss) (hrun : ss'.foldlM Renesting.step r = some r') : r'.Reads (ss ++ ss') := by
  induction ss' generalizing r ss with
  | nil =>
    obtain rfl := Option.some.inj hrun
    rwa [List.append_nil]
  | cons s rest ih =>
    rw [List.foldlM_cons] at hrun
    obtain ⟨r₁, hstep, hrest⟩ := Option.bind_eq_some_iff.mp hrun
    simpa only [List.append_assoc, List.singleton_append] using ih (h.step hstep) hrest

/-- What is read off a list is its tree by the grammar. -/
theorem renest_eq_some {ss : List Statement} {ts : List Node} :
    renest ss = some ts ↔ Nests ss ts := by
  constructor
  · intro h
    obtain ⟨r, hrun, htree⟩ := Option.bind_eq_some_iff.mp h
    have hstart : Renesting.Reads {} [] := Nests.nil
    have hreads := hstart.foldlM hrun
    match r with
    | ⟨[], none, body⟩ =>
      obtain rfl := Option.some.inj htree
      exact hreads
  · intro h
    rw [renest, h.foldlM_step, Option.bind_some, List.nil_append, Renesting.tree?]

/-! ### The lists of a program -/

mutual

/-- The statement lists of every block in a statement. -/
def Statement.lists : Statement → List (List Statement)
  | .comment _ | .openElement _ _ | .flushElement | .closeElement | .staticAttr _ _ _ _ => []
  | .append _ _ | .modifier _ _ _ | .dynamicAttr _ _ _ _ _ | .attrSplat _ | .yield _ _ => []
  | .partialCall _ _ | .debugger _ => []
  | .block _ _ _ blocks | .invokeComponent _ _ _ blocks => entryBlocksLists blocks
  | .component _ params _ blocks => statementsLists params ++ entryBlocksLists blocks
  | .branch _ block inverse | .each _ _ block inverse | .withValue _ block inverse =>
    blockLists block ++ otherLists inverse
  | .inElement block _ _ _ | .letValues _ block | .withDynamicVars _ block => blockLists block

/-- The statement lists of every block in statements. -/
def statementsLists : List Statement → List (List Statement)
  | [] => []
  | s :: rest => s.lists ++ statementsLists rest

/-- The statement list of a block, and those of every block in it. -/
def blockLists : Block Statement → List (List Statement)
  | ⟨statements, _⟩ => statements :: statementsLists statements

/-- The statement lists of blocks with names. -/
def entryBlocksLists : List (Entry (Block Statement)) → List (List Statement)
  | [] => []
  | entry :: rest => blockLists entry.value ++ entryBlocksLists rest

/-- The statement lists of a block that may be missing. -/
def otherLists : Option (Block Statement) → List (List Statement)
  | none => []
  | some block => blockLists block

end

/-- Every list of statements of a program, at any depth. -/
def Program.lists (p : Program) : List (List Statement) :=
  p.statements :: statementsLists p.statements

theorem statementsLists_append (a b : List Statement) :
    statementsLists (a ++ b) = statementsLists a ++ statementsLists b := by
  induction a with
  | nil => simp [statementsLists]
  | cons s rest ih => simp only [List.cons_append, statementsLists, ih, List.append_assoc]

theorem statementsLists_eq_nil {ss : List Statement} (h : ∀ s ∈ ss, s.lists = []) :
    statementsLists ss = [] := by
  induction ss with
  | nil => simp [statementsLists]
  | cons s rest ih =>
    rw [statementsLists, h s List.mem_cons_self, ih fun s hs => h s (List.mem_cons_of_mem _ hs),
      List.append_nil]

end TemplateCompiler.Wire

namespace TemplateCompiler.Resolved

open Wire (Nests renest)

/-! ### The tree of resolved content -/

mutual

/-- A piece of content as a tree; a hidden comment is left out. -/
def Content.trees : Content → List (Tree Content (String × ElementParams))
  | .hiddenComment _ _ => []
  | .element tag params body _ => [.element (tag, params) (contentsTrees body)]
  | c => [.leaf c]

/-- Content as trees. -/
def contentsTrees : List Content → List (Tree Content (String × ElementParams))
  | [] => []
  | c :: rest => c.trees ++ contentsTrees rest

end

mutual

/-- The content of every block in a piece of content. -/
def Content.lists : Content → List (List Content)
  | .text _ _ | .comment _ _ | .hiddenComment _ _ | .append _ _ _ | .yield _ _ _ => []
  | .debugger _ _ | .partialCall _ _ _ => []
  | .invokeBlock _ _ blocks _ | .invokeDynamic _ _ blocks _ | .invokeComponent _ _ _ blocks _ =>
    namedBlocksLists blocks
  | .element _ _ body _ => contentsLists body
  | .branch _ block inverse _ | .each _ _ block inverse _ | .withValue _ block inverse _ =>
    blockLists block ++ otherLists inverse
  | .letValues _ block _ | .inElement _ _ _ block _ | .withDynamicVars _ block _ => blockLists block

/-- The content of every block in content. -/
def contentsLists : List Content → List (List Content)
  | [] => []
  | c :: rest => c.lists ++ contentsLists rest

/-- The content of a block, and of every block in it. -/
def blockLists : Block Content → List (List Content)
  | ⟨_, body, _⟩ => body :: contentsLists body

/-- The content of blocks with names. -/
def namedBlocksLists : List (NamedBlock Content) → List (List Content)
  | [] => []
  | named :: rest => blockLists named.block ++ namedBlocksLists rest

/-- The content of a block that may be missing. -/
def otherLists : Option (Block Content) → List (List Content)
  | none => []
  | some block => blockLists block

end

/-- The content of a template, and of every block in it. -/
def Body.lists (b : Body) : List (List Content) := b.body :: contentsLists b.body

/-! ### The lists of an encoded template -/

/-- The attributes and modifiers of an element hold no blocks. -/
theorem ElementParams.encode_lists (p : ElementParams) (onComponent : Bool) :
    Wire.statementsLists (p.encode onComponent) = [] := by
  refine Wire.statementsLists_eq_nil fun s hs => ?_
  rcases ElementParams.mem_encode hs with ⟨a, -, hencode⟩ | ⟨m, -, rfl⟩
  · obtain ⟨slot, span, rfl, rfl⟩ | ⟨name, text, space, rfl⟩ |
      ⟨name, value, trusting, span, space, rfl, rfl⟩ := Attr.encode_cases hencode
    · simp only [Wire.Statement.lists]
    · simp only [Wire.Statement.lists]
    · simp only [Wire.Statement.lists]
  · simp only [Modifier.encode, Wire.Statement.lists]

mutual

/-- The lists inside of an encoded piece of content are those of its blocks. -/
theorem Content.encode_lists (c : Content) :
    Wire.statementsLists c.encode = c.lists.map encodeContents := by
  match c with
  | .text _ _ | .comment _ _ | .hiddenComment _ _ | .append _ _ _ | .yield _ _ _ | .debugger _ _
  | .partialCall _ _ _ =>
    simp only [Content.encode, Wire.statementsLists, Wire.Statement.lists, Content.lists,
      List.append_nil, List.map_nil]
  | .invokeBlock _ _ blocks _ | .invokeDynamic _ _ blocks _ =>
    simp only [Content.encode, Wire.statementsLists, Wire.Statement.lists, Content.lists,
      List.append_nil, encodeBlocks_lists blocks]
  | .invokeComponent _ params _ blocks _ =>
    simp only [Content.encode, Wire.statementsLists, Wire.Statement.lists, Content.lists,
      List.append_nil, List.nil_append, params.encode_lists, encodeBlocks_lists blocks]
  | .element _ params body _ =>
    simp only [Content.encode, Wire.statementsLists, Wire.statementsLists_append,
      Wire.Statement.lists, Content.lists, List.append_nil, List.nil_append, params.encode_lists,
      encodeContents_lists body]
  | .branch _ block inverse _ | .each _ _ block inverse _ | .withValue _ block inverse _ =>
    simp only [Content.encode, Wire.statementsLists, Wire.Statement.lists, Content.lists,
      List.append_nil, List.map_append, encodeBlock_lists block, encodeOther_lists inverse]
  | .letValues _ block _ | .inElement _ _ _ block _ | .withDynamicVars _ block _ =>
    simp only [Content.encode, Wire.statementsLists, Wire.Statement.lists, Content.lists,
      List.append_nil, encodeBlock_lists block]

theorem encodeContents_lists (cs : List Content) :
    Wire.statementsLists (encodeContents cs) = (contentsLists cs).map encodeContents := by
  match cs with
  | [] => simp only [encodeContents, Wire.statementsLists, contentsLists, List.map_nil]
  | c :: rest =>
    rw [encodeContents, Wire.statementsLists_append, contentsLists, c.encode_lists,
      encodeContents_lists rest, List.map_append]

theorem encodeBlock_lists (b : Block Content) :
    Wire.blockLists (encodeBlock b) = (blockLists b).map encodeContents := by
  match b with
  | ⟨params, body, span⟩ =>
    rw [encodeBlock, Wire.blockLists, blockLists, encodeContents_lists body, List.map_cons]

theorem encodeBlocks_lists (blocks : List (NamedBlock Content)) :
    Wire.entryBlocksLists (encodeBlocks blocks) = (namedBlocksLists blocks).map encodeContents := by
  match blocks with
  | [] => simp only [encodeBlocks, Wire.entryBlocksLists, namedBlocksLists, List.map_nil]
  | ⟨name, block, span⟩ :: rest =>
    simp only [encodeBlocks, Wire.entryBlocksLists, namedBlocksLists, encodeBlock_lists block,
      encodeBlocks_lists rest, List.map_append]

theorem encodeOther_lists (b : Option (Block Content)) :
    Wire.otherLists (encodeOther b) = (otherLists b).map encodeContents := by
  match b with
  | none => simp only [encodeOther, Wire.otherLists, otherLists, List.map_nil]
  | some block => simp only [encodeOther, Wire.otherLists, otherLists, encodeBlock_lists block]

end

/-- The lists of an encoded template are its lists of content, encoded. -/
theorem Body.encode_lists (b : Body) (symbols : Symbols) :
    (b.encode symbols).lists = b.lists.map encodeContents := by
  rw [Wire.Program.lists, Body.lists, List.map_cons, Body.encode, encodeContents_lists]

/-! ### Encoded content is a sentence -/

/-- The statement that a piece of content other than an element is written as. -/
def Content.statement (c : Content) : Wire.Statement := c.encode.headD .flushElement

/-- What is written up to the flush of an element. -/
def headOf (element : String × ElementParams) : Wire.Head where
  tag := element.1
  splat := element.2.hasSplat
  params := element.2.encode false

/-- The tree of content, with the statement of each piece and the start of each
element in their places. -/
def wireTrees (cs : List Content) : List Wire.Node :=
  mapTrees Content.statement headOf (contentsTrees cs)

theorem Attr.encode_isAttribute {onComponent : Bool} {a : Attr} {s : Wire.Statement}
    (h : a.encode onComponent = some s) : s.isAttribute = true := by
  obtain ⟨slot, span, rfl, rfl⟩ | ⟨name, text, space, rfl⟩ |
    ⟨name, value, trusting, span, space, rfl, rfl⟩ := Attr.encode_cases h
  · rfl
  · rfl
  · rfl

/-- Only the attributes of the caller are written as such. -/
theorem Attr.encode_attrSplat {onComponent : Bool} {a : Attr} {slot : Nat} :
    a.encode onComponent = some (.attrSplat slot) ↔ ∃ span, a = .splat slot span := by
  constructor
  · intro h
    obtain ⟨slot', span, rfl, hs⟩ | ⟨name, text, space, hs⟩ |
      ⟨name, value, trusting, span, space, rfl, hs⟩ := Attr.encode_cases h
    · obtain rfl := Wire.Statement.attrSplat.inj hs
      exact ⟨span, rfl⟩
    · cases hs
    · cases hs
  · rintro ⟨span, rfl⟩
    rfl

/-- An element around a sentence is a sentence. -/
theorem encodeElement_nests {tag : String} {params : ElementParams}
    {ss : List Wire.Statement} {ts : List Wire.Node} (h : Nests ss ts) :
    Nests (.openElement tag params.hasSplat ::
        (params.encode false ++ .flushElement :: (ss ++ [.closeElement])))
      [.element (headOf (tag, params)) ts] := by
  obtain ⟨attrs, hencode, hattrs, hall⟩ := params.encode_eq false
  have hmodifiers : ∀ s ∈ params.modifiers.map Modifier.encode, s.isModifier = true := by
    intro s hs
    obtain ⟨m, -, rfl⟩ := List.mem_map.mp hs
    rfl
  -- A splat in the head is one of the attributes, and is encoded as it is.
  have hsplat : params.hasSplat = true ↔ ∃ slot, .attrSplat slot ∈ attrs := by
    constructor
    · intro hsplat
      obtain ⟨a, ha, hisSplat⟩ := List.any_eq_true.mp hsplat
      cases a with
      | attr => cases hisSplat
      | splat slot span =>
        rw [hall hsplat]
        exact ⟨slot, List.mem_filterMap.mpr ⟨_, ha, rfl⟩⟩
    · rintro ⟨slot, hmem⟩
      obtain ⟨a, ha, hs⟩ := hattrs _ hmem
      obtain ⟨span, rfl⟩ := Attr.encode_attrSplat.mp hs
      exact List.any_eq_true.mpr ⟨_, ha, rfl⟩
  rw [headOf, hencode]
  refine .element (fun s hs => ?_) hmodifiers hsplat h .nil
  obtain ⟨a, -, hs⟩ := hattrs s hs
  exact Attr.encode_isAttribute hs

mutual

theorem Content.encode_nests (c : Content) :
    Nests c.encode (mapTrees Content.statement headOf c.trees) := by
  match c with
  | .hiddenComment _ _ =>
    rw [Content.encode, Content.trees, mapTrees]
    exact .nil
  | .element tag params body span =>
    rw [Content.encode, Content.trees, mapTrees, mapTrees, Tree.map]
    exact encodeElement_nests (encodeContents_nests body)
  | .text _ _ | .comment _ _ | .append _ _ _ | .invokeBlock _ _ _ _ | .invokeDynamic _ _ _ _
  | .invokeComponent _ _ _ _ _ | .branch _ _ _ _ | .each _ _ _ _ _ | .withValue _ _ _ _
  | .letValues _ _ _ | .inElement _ _ _ _ _ | .withDynamicVars _ _ _ | .yield _ _ _
  | .debugger _ _ | .partialCall _ _ _ =>
    simp only [Content.trees, mapTrees, Tree.map, Content.statement, Content.encode,
      List.headD_cons]
    exact .single rfl

theorem encodeContents_nests (cs : List Content) :
    Nests (encodeContents cs) (mapTrees Content.statement headOf (contentsTrees cs)) := by
  match cs with
  | [] =>
    rw [encodeContents, contentsTrees, mapTrees]
    exact .nil
  | c :: rest =>
    rw [encodeContents, contentsTrees, mapTrees_append]
    exact c.encode_nests.append (encodeContents_nests rest)

end

/-- Every list of statements of an encoded template is a sentence, and reading its
tree recovers the content it was written from: the same elements around the same
pieces in the same order, and no hidden comments. -/
theorem encode_lists_nest (b : Body) (symbols : Symbols) :
    List.Forall₂ (fun ss cs => Nests ss (wireTrees cs) ∧ renest ss = some (wireTrees cs))
      (b.encode symbols).lists b.lists := by
  rw [b.encode_lists, List.forall₂_map_left_iff, List.forall₂_same]
  intro cs _
  have hnests := encodeContents_nests cs
  exact ⟨hnests, Wire.renest_eq_some.mpr hnests⟩

end TemplateCompiler.Resolved
