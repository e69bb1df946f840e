/-
The slots that can be read by name.

A `debugger` or a partial may read any slot in its reach by name, so it lists
them: the slots of the program that were given up to its place, and the slots of
the parameters of the blocks around it.

* `Expr.slots`, `contentsSlots` — the slots of the program that stand in a value
  and in content;
* `contentsCaptures` — the pieces of content that read by name, each with the
  slots of the program before it and the parameters of the blocks around it;
* `Reach` — what is in reach of the walk at a place;
* `Walks` — what a step of the walk adds to that, and that whatever reads by name
  in it lists what was in its reach;
* `resolve_captures` — the same for whole templates.

Design notes: lists of slots are compared by their members only, since a slot may
be used many times but is given once.  What is in reach inside of a block is lost
when the walk leaves it, apart from the slots of the program; so a step says what
it lists for any reach that it may start from.
-/
import TemplateCompiler.Proofs.Resolved.Modes

namespace TemplateCompiler.Symbols

/-! ### Symbols -/

/-- The slots that belong to the program as a whole. -/
def given (s : Symbols) : List Nat := s.programSlots.map Prod.snd

theorem mem_given_programSlot (s : Symbols) (name : String) (slot : Nat) :
    slot ∈ (s.programSlot name).2.given ↔ slot ∈ s.given ∨ slot = (s.programSlot name).1 := by
  rw [programSlot]
  split
  · next found hfound =>
    -- The slot was given before.
    obtain ⟨l₁, l₂, heq, -⟩ := List.lookup_eq_some_iff.mp hfound
    have hmem : found ∈ s.given := List.mem_map.mpr ⟨(name, found), by rw [heq]; simp, rfl⟩
    constructor
    · exact .inl
    · rintro (hslot | rfl)
      · exact hslot
      · exact hmem
  · simp [given, pushName]

theorem sees_iff (s : Symbols) (slot : Nat) :
    s.sees slot = true ↔
      slot ∈ s.given ∨ ∃ frame ∈ s.frames, slot ∈ frame.locals.map Prod.snd := by
  simp [sees, given]

theorem programSlot_hasEval (s : Symbols) (name : String) :
    (s.programSlot name).2.hasEval = s.hasEval := by
  rw [programSlot]
  split <;> rfl

theorem free_given (s : Symbols) (name : String) :
    (s.free name).2.given = s.given ∧ (s.free name).2.hasEval = s.hasEval := by
  rw [free]
  split <;> exact ⟨rfl, rfl⟩

theorem useLocal_given (s : Symbols) (name : String) :
    (s.useLocal name).2.given = s.given ∧ (s.useLocal name).2.hasEval = s.hasEval :=
  free_given _ name

/-- Names that are declared add their slots to the innermost block, and nothing
to the program. -/
theorem declareAll_locals (params : List String) {s t : Symbols} {frame : Frame}
    {rest : List Frame} {slots : List Nat} (hb : s.blocks = frame :: rest)
    (h : s.declareAll params = (slots, t)) :
    t.hasEval = s.hasEval ∧ ∃ inner : Frame, t.blocks = inner :: rest ∧
      ∀ slot, slot ∈ inner.locals.map Prod.snd ↔
        slot ∈ frame.locals.map Prod.snd ∨ slot ∈ slots := by
  induction params generalizing s frame slots with
  | nil =>
    simp only [declareAll, Prod.mk.injEq] at h
    obtain ⟨rfl, rfl⟩ := h
    exact ⟨rfl, frame, hb, by simp⟩
  | cons name params ih =>
    rcases hd : s.declare name with ⟨slot, s₁⟩
    rcases hds : s₁.declareAll params with ⟨more, s₂⟩
    simp only [declareAll, hd, hds, Prod.mk.injEq] at h
    obtain ⟨rfl, rfl⟩ := h
    rcases declare_cases hb hd with ⟨hfound, rfl⟩ | ⟨-, rfl, rfl⟩
    -- The name is declared already, and its slot is one that the block has.
    · obtain ⟨l₁, l₂, heq, -⟩ := List.lookup_eq_some_iff.mp hfound
      have hmem : slot ∈ frame.locals.map Prod.snd :=
        List.mem_map.mpr ⟨(name, slot), by rw [heq]; simp, rfl⟩
      obtain ⟨heval, inner, hinner, hslots⟩ := ih hb hds
      refine ⟨heval, inner, hinner, fun slot' => ?_⟩
      rw [hslots slot', List.mem_cons]
      constructor
      · rintro (hold | hnew)
        · exact .inl hold
        · exact .inr (.inr hnew)
      · rintro (hold | rfl | hnew)
        · exact .inl hold
        · exact .inl hmem
        · exact .inr hnew
    · obtain ⟨heval, inner, hinner, hslots⟩ := ih rfl hds
      refine ⟨heval, inner, hinner, fun slot' => ?_⟩
      rw [hslots slot']
      simp only [List.map_append, List.map_cons, List.map_nil, List.mem_append, List.mem_cons,
        List.not_mem_nil, or_false, or_assoc]

/-- Opening a block puts the slots of its parameters in reach, and gives none to
the program. -/
theorem openBlock_locals {s t : Symbols} {params : List String} {slots : List Nat}
    (h : s.openBlock params = (slots, t)) :
    t.given = s.given ∧ t.hasEval = s.hasEval ∧ ∃ inner : Frame, t.blocks = inner :: s.blocks ∧
      ∀ slot, slot ∈ inner.locals.map Prod.snd ↔ slot ∈ slots := by
  have hdeclared := declareAll_declared params rfl (by simp) h
  obtain ⟨heval, inner, hinner, hslots⟩ := declareAll_locals params rfl h
  refine ⟨by rw [given, hdeclared.programSlots, given], heval, inner, hinner, fun slot => ?_⟩
  rw [hslots slot]
  simp

end TemplateCompiler.Symbols

namespace TemplateCompiler.Resolved

open Template (Pair Hash Call MustacheTag BlockTag StartTag ConcatPart AttrValue Statement)

/-! ### Slots of the program in resolved content -/

/-- The slot of an argument. -/
def Reference.slots : Reference → List Nat
  | .argument slot => [slot]
  | .this | .blockParam _ | .free _ _ => []

mutual

/-- The slots of arguments and named blocks in a value. -/
def Expr.slots : Expr → List Nat
  | .literal _ _ => []
  | .path head _ _ => head.reference.slots
  | .call callee args _ => callee.slots ++ exprsSlots args.positional ++ namedSlots args.named
  | .interpolate parts _ => exprsSlots parts
  | .hasBlock slot _ | .hasBlockParams slot _ => [slot]
  | .curry definition _ args _ =>
    definition.slots ++ exprsSlots args.positional ++ namedSlots args.named
  | .not value => value.slots
  | .ifInline condition truthy falsy _ => condition.slots ++ truthy.slots ++ optionSlots falsy
  | .getDynamicVar name => name.slots
  | .log args => exprsSlots args.positional ++ namedSlots args.named

/-- The slots in values. -/
def exprsSlots : List Expr → List Nat
  | [] => []
  | e :: rest => e.slots ++ exprsSlots rest

/-- The slots in values with names. -/
def namedSlots : List (Named Expr) → List Nat
  | [] => []
  | named :: rest => named.value.slots ++ namedSlots rest

/-- The slots in a value that may be missing. -/
def optionSlots : Option Expr → List Nat
  | none => []
  | some e => e.slots

end

/-- The slots in arguments. -/
def Args.slots (args : Args Expr) : List Nat := exprsSlots args.positional ++ namedSlots args.named

/-- The slots in an attribute; `...attributes` is a slot itself. -/
def Attr.slots : Attr → List Nat
  | .attr _ value _ _ => value.slots
  | .splat slot _ => [slot]

/-- The slots in a modifier. -/
def Modifier.slots (m : Modifier) : List Nat := m.callee.slots ++ m.args.slots

/-- The slots in the attributes and modifiers of an element. -/
def ElementParams.slots (p : ElementParams) : List Nat :=
  p.attrs.flatMap Attr.slots ++ p.modifiers.flatMap Modifier.slots

/-- The slots that stand in a piece of content itself. -/
def Content.ownSlots : Content → List Nat
  | .text _ _ | .comment _ _ | .hiddenComment _ _ | .debugger _ _ => []
  | .append value _ _ | .partialCall value _ _ => value.slots
  | .yield target positional _ => target :: exprsSlots positional
  | .invokeBlock callee args _ _ | .invokeDynamic callee args _ _ => callee.slots ++ args.slots
  | .invokeComponent callee params args _ _ => callee.slots ++ params.slots ++ namedSlots args
  | .element _ params _ _ => params.slots
  | .branch value _ _ _ | .withValue value _ _ _ => value.slots
  | .each value key _ _ _ => value.slots ++ optionSlots key
  | .letValues positional _ _ => exprsSlots positional
  | .inElement _ destination insertBefore _ _ => destination.slots ++ optionSlots insertBefore
  | .withDynamicVars named _ _ => namedSlots named

/-- The slots that stand in content, each piece by itself. -/
def slotsOf (cs : List Content) : List Nat := cs.flatMap Content.ownSlots

theorem slotsOf_append (a b : List Content) : slotsOf (a ++ b) = slotsOf a ++ slotsOf b :=
  List.flatMap_append

theorem slotsOf_cons (c : Content) (cs : List Content) :
    slotsOf (c :: cs) = c.ownSlots ++ slotsOf cs :=
  List.flatMap_cons

/-! ### Content that reads by name -/

/-- What a piece of content lists if it reads by name. -/
def Content.eval? : Content → Option (List Nat)
  | .debugger eval _ | .partialCall _ eval _ => some eval
  | _ => none

/-- A piece of content that reads by name. -/
structure Capture where
  /-- The slots that it lists. -/
  eval : List Nat
  /-- The slots of the program up to its place, its own argument included. -/
  before : List Nat
  /-- The slots of the parameters of the blocks around it, the innermost first. -/
  around : List (List Nat)
deriving DecidableEq, Repr

/-- A piece of content lists what is in its reach, in ascending order. -/
structure Capture.Exact (k : Capture) : Prop where
  ascending : k.eval.Pairwise (· < ·)
  members : ∀ slot, slot ∈ k.eval ↔ slot ∈ k.before ∨ ∃ params ∈ k.around, slot ∈ params

mutual

/-- The pieces of a piece of content that read by name. -/
def Content.captures (before : List Nat) (around : List (List Nat)) : Content → List Capture
  | .debugger eval _ => [⟨eval, before, around⟩]
  | .partialCall target eval _ => [⟨eval, before ++ target.slots, around⟩]
  | .text _ _ | .comment _ _ | .hiddenComment _ _ | .append _ _ _ | .yield _ _ _ => []
  | .invokeBlock callee args blocks _ | .invokeDynamic callee args blocks _ =>
    namedBlocksCaptures (before ++ (callee.slots ++ args.slots)) around blocks
  | .invokeComponent callee params args blocks _ =>
    namedBlocksCaptures (before ++ (callee.slots ++ params.slots ++ namedSlots args)) around blocks
  | .element _ params body _ => contentsCaptures (before ++ params.slots) around body
  | .branch value block inverse _ | .withValue value block inverse _ =>
    blockCaptures (before ++ value.slots) around block ++
      otherCaptures (before ++ value.slots ++ slotsOf (blockWithin block)) around inverse
  | .each value key block inverse _ =>
    blockCaptures (before ++ (value.slots ++ optionSlots key)) around block ++
      otherCaptures (before ++ (value.slots ++ optionSlots key) ++ slotsOf (blockWithin block))
        around inverse
  | .letValues positional block _ => blockCaptures (before ++ exprsSlots positional) around block
  | .inElement _ destination insertBefore block _ =>
    blockCaptures (before ++ (destination.slots ++ optionSlots insertBefore)) around block
  | .withDynamicVars named block _ => blockCaptures (before ++ namedSlots named) around block

/-- The pieces of content that read by name. -/
def contentsCaptures (before : List Nat) (around : List (List Nat)) :
    List Content → List Capture
  | [] => []
  | c :: rest =>
    c.captures before around ++
      contentsCaptures (before ++ slotsOf (c :: c.inside)) around rest

/-- The pieces of a block that read by name; the block is around all of them. -/
def blockCaptures (before : List Nat) (around : List (List Nat)) : Block Content → List Capture
  | ⟨params, body, _⟩ => contentsCaptures before (params :: around) body

/-- The pieces of blocks with names that read by name. -/
def namedBlocksCaptures (before : List Nat) (around : List (List Nat)) :
    List (NamedBlock Content) → List Capture
  | [] => []
  | ⟨_, block, _⟩ :: rest =>
    blockCaptures before around block ++
      namedBlocksCaptures (before ++ slotsOf (blockWithin block)) around rest

/-- The pieces of a block that may be missing that read by name. -/
def otherCaptures (before : List Nat) (around : List (List Nat)) :
    Option (Block Content) → List Capture
  | none => []
  | some block => blockCaptures before around block

end

/-- The pieces of a template that read by name. -/
def Body.captures (b : Body) : List Capture := contentsCaptures [] [] b.body

mutual

theorem Content.captures_eval (before : List Nat) (around : List (List Nat)) (c : Content) :
    (c.captures before around).map Capture.eval = (c :: c.inside).filterMap Content.eval? := by
  match c with
  | .debugger _ _ | .partialCall _ _ _ => simp [Content.captures, Content.inside, Content.eval?]
  | .text _ _ | .comment _ _ | .hiddenComment _ _ | .append _ _ _ | .yield _ _ _ =>
    simp [Content.captures, Content.inside, Content.eval?]
  | .invokeBlock _ _ blocks _ | .invokeDynamic _ _ blocks _ | .invokeComponent _ _ _ blocks _ =>
    rw [Content.captures, Content.inside, List.filterMap_cons_none rfl]
    exact namedBlocksCaptures_eval _ _ blocks
  | .element _ _ body _ =>
    rw [Content.captures, Content.inside, List.filterMap_cons_none rfl]
    exact contentsCaptures_eval _ _ body
  | .branch _ block inverse _ | .withValue _ block inverse _ | .each _ _ block inverse _ =>
    rw [Content.captures, Content.inside, List.filterMap_cons_none rfl, List.map_append,
      List.filterMap_append, blockCaptures_eval _ _ block, otherCaptures_eval _ _ inverse]
  | .letValues _ block _ | .inElement _ _ _ block _ | .withDynamicVars _ block _ =>
    rw [Content.captures, Content.inside, List.filterMap_cons_none rfl]
    exact blockCaptures_eval _ _ block

/-- Every piece of content that reads by name is there, in the order of the
content. -/
theorem contentsCaptures_eval (before : List Nat) (around : List (List Nat)) (cs : List Content) :
    (contentsCaptures before around cs).map Capture.eval
      = (contentsWithin cs).filterMap Content.eval? := by
  match cs with
  | [] => simp [contentsCaptures, contentsWithin]
  | c :: rest =>
    rw [contentsCaptures, contentsWithin, List.map_append, ← List.cons_append,
      List.filterMap_append, Content.captures_eval _ _ c, contentsCaptures_eval _ _ rest]

theorem blockCaptures_eval (before : List Nat) (around : List (List Nat)) (b : Block Content) :
    (blockCaptures before around b).map Capture.eval
      = (blockWithin b).filterMap Content.eval? := by
  match b with
  | ⟨params, body, _⟩ =>
    rw [blockCaptures, blockWithin]
    exact contentsCaptures_eval _ _ body

theorem namedBlocksCaptures_eval (before : List Nat) (around : List (List Nat))
    (blocks : List (NamedBlock Content)) :
    (namedBlocksCaptures before around blocks).map Capture.eval
      = (namedBlocksWithin blocks).filterMap Content.eval? := by
  match blocks with
  | [] => simp [namedBlocksCaptures, namedBlocksWithin]
  | ⟨_, block, _⟩ :: rest =>
    rw [namedBlocksCaptures, namedBlocksWithin, List.map_append, List.filterMap_append,
      blockCaptures_eval _ _ block, namedBlocksCaptures_eval _ _ rest]

theorem otherCaptures_eval (before : List Nat) (around : List (List Nat))
    (b : Option (Block Content)) :
    (otherCaptures before around b).map Capture.eval
      = (otherWithin b).filterMap Content.eval? := by
  match b with
  | none => simp [otherCaptures, otherWithin]
  | some block =>
    rw [otherCaptures, otherWithin]
    exact blockCaptures_eval _ _ block

end

/-! ### Reach -/

/-- What is in reach of the walk: slots of the program, and the parameters of the
blocks around its place. -/
structure Reach (before : List Nat) (around : List (List Nat)) (p : Progress) : Prop where
  sound : p.symbols.Sound
  given : ∀ slot, slot ∈ p.symbols.given ↔ slot ∈ before
  locals : ∀ slot, (∃ frame ∈ p.symbols.frames, slot ∈ frame.locals.map Prod.snd) ↔
    ∃ params ∈ around, slot ∈ params
  bounds : ∀ params ∈ around, ∀ slot ∈ params, 1 ≤ slot ∧ slot ≤ p.symbols.names.length

/-- What is visible is what is in reach, in ascending order. -/
theorem Reach.exact {before : List Nat} {around : List (List Nat)} {p : Progress}
    (h : Reach before around p) : (Capture.mk p.symbols.visible before around).Exact := by
  refine ⟨?_, fun slot => ?_⟩
  · exact List.Pairwise.filter _ List.pairwise_lt_range'
  · show slot ∈ p.symbols.visible ↔ _
    rw [Symbols.visible, List.mem_filter, Symbols.sees_iff, h.given, h.locals,
      List.mem_range'_1]
    constructor
    · exact And.right
    · intro hslot
      refine ⟨?_, hslot⟩
      have hbounds : 1 ≤ slot ∧ slot ≤ p.symbols.names.length := by
        rcases hslot with hslot | ⟨params, hparams, hslot⟩
        · obtain ⟨entry, hentry, rfl⟩ := List.mem_map.mp ((h.given slot).mpr hslot)
          exact (h.sound entry hentry).pos_le
        · exact h.bounds params hparams slot hslot
      omega

/-- What a step of the walk adds: slots of the program, and whether something
reads by name.  Whatever does so lists what is in its reach, wherever the step
is taken. -/
structure Walks (slots : List Nat) (evals : Bool)
    (captures : List Nat → List (List Nat) → List Capture) (p q : Progress) : Prop where
  advances : p.symbols.Sound → p.symbols.Advances q.symbols
  given : ∀ slot, slot ∈ q.symbols.given ↔ slot ∈ p.symbols.given ∨ slot ∈ slots
  hasEval : q.symbols.hasEval = (p.symbols.hasEval || evals)
  exact : ∀ before around, Reach before around p → ∀ k ∈ captures before around, k.Exact

/-- A step that adds slots and in which nothing reads by name. -/
abbrev Adds (slots : List Nat) (p q : Progress) : Prop := Walks slots false (fun _ _ => []) p q

section

variable {p q r : Progress} {slots slots₁ slots₂ : List Nat} {evals evals₁ evals₂ : Bool}
  {captures captures₁ captures₂ : List Nat → List (List Nat) → List Capture}

theorem Adds.refl (p : Progress) : Adds [] p p :=
  ⟨fun _ => Symbols.Advances.refl _, by simp, by simp, by simp⟩

/-- After a step the same blocks are around the walk. -/
theorem Walks.reach (h : Walks slots evals captures p q) {before : List Nat}
    {around : List (List Nat)} (hreach : Reach before around p) :
    Reach (before ++ slots) around q := by
  have hadvances := h.advances hreach.sound
  refine ⟨hadvances.sound hreach.sound, fun slot => ?_, fun slot => ?_,
    fun params hparams slot hslot => ?_⟩
  · rw [h.given, hreach.given, List.mem_append]
  · rw [Symbols.frames, hadvances.blocks, hadvances.root]
    exact hreach.locals slot
  · have hbounds := hreach.bounds params hparams slot hslot
    have hlength := hadvances.length_le
    omega

/-- Two steps, one after the other: the second has the slots of the first in its
reach. -/
theorem Walks.seq (h₁ : Walks slots₁ evals₁ captures₁ p q)
    (h₂ : Walks slots₂ evals₂ captures₂ q r) :
    Walks (slots₁ ++ slots₂) (evals₁ || evals₂)
      (fun before around => captures₁ before around ++ captures₂ (before ++ slots₁) around)
      p r where
  advances hsound := by
    have hadvances := h₁.advances hsound
    exact hadvances.trans (h₂.advances (hadvances.sound hsound))
  given slot := by rw [h₂.given, h₁.given, List.mem_append, or_assoc]
  hasEval := by rw [h₂.hasEval, h₁.hasEval, Bool.or_assoc]
  exact before around hreach := List.forall_mem_append.mpr
    ⟨h₁.exact before around hreach, h₂.exact _ around (h₁.reach hreach)⟩

/-- Slots may be listed in any order. -/
theorem Adds.congr (h : Adds slots₁ p q) (hslots : ∀ slot, slot ∈ slots₁ ↔ slot ∈ slots₂) :
    Adds slots₂ p q :=
  ⟨h.advances, fun slot => by rw [h.given, hslots], h.hasEval, h.exact⟩

end

/-! ### Names -/

section

variable {o : Settings} {p q : Progress}

theorem programSlot_adds {name : String} {slot : Nat}
    (h : (onSymbols (·.programSlot name)).run p = .ok slot q) : Adds [slot] p q := by
  obtain ⟨rfl, rfl⟩ := run_onSymbols_ok.mp h
  refine ⟨fun hsound => (Symbols.programSlot_advances hsound name).1, fun slot => ?_, ?_, by simp⟩
  · rw [Symbols.mem_given_programSlot, List.mem_singleton]
  · simp [Symbols.programSlot_hasEval]

theorem free_adds {name : String} {upvar : Nat}
    (h : (onSymbols (·.free name)).run p = .ok upvar q) : Adds [] p q := by
  obtain ⟨-, rfl⟩ := run_onSymbols_ok.mp h
  obtain ⟨hgiven, heval⟩ := Symbols.free_given p.symbols name
  exact ⟨fun _ => (Symbols.free_advances _ name).1, by simp [hgiven], by simp [heval], by simp⟩

theorem useLocal_adds {name : String} {upvar : Nat}
    (h : (onSymbols (·.useLocal name)).run p = .ok upvar q) : Adds [] p q := by
  obtain ⟨-, rfl⟩ := run_onSymbols_ok.mp h
  obtain ⟨hgiven, heval⟩ := Symbols.useLocal_given p.symbols name
  exact ⟨fun _ => (Symbols.useLocal_advances _ name).1, by simp [hgiven], by simp [heval], by simp⟩

/-- A bare name is a block parameter or a free name, so it adds no slot. -/
theorem resolveName_adds {site : Site} {simple : Bool} {written name : String} {span : Span}
    {v : Variable} (h : (resolveName o site simple written name span).run p = .ok v q) :
    Adds v.reference.slots p q := by
  simp only [resolveName, run_bind_ok, run_getSymbols_ok] at h
  obtain ⟨_, _, ⟨rfl, rfl⟩, h⟩ := h
  split at h
  · obtain ⟨rfl, rfl⟩ := run_pure_ok.mp h
    exact .refl _
  · simp only [run_ite_ok, run_bind_ok, run_throw_ok, false_and, exists_false, and_false,
      or_false, run_pure_ok] at h
    rcases h with ⟨-, -, upvar, r, hupvar, rfl, rfl⟩ | ⟨-, h⟩
    · exact useLocal_adds hupvar
    · split at h
      · simp only [run_bind_ok, run_pure_ok] at h
        obtain ⟨upvar, r, hupvar, rfl, rfl⟩ := h
        exact free_adds hupvar
      · exact (run_throw_ok.mp h).elim

theorem path_adds {site : Site} {path : Template.Path} {e : Expr}
    (h : (Resolved.path o site path).run p = .ok e q) : Adds e.slots p q := by
  rw [Resolved.path] at h
  cases hhead : path.head with
  | this =>
    simp only [hhead, run_bind_ok, run_pure_ok] at h
    obtain ⟨_, _, ⟨rfl, rfl⟩, rfl, rfl⟩ := h
    exact .refl _
  | «at» name =>
    simp only [hhead, run_bind_ok, run_pure_ok] at h
    obtain ⟨slot, _, hslot, _, _, ⟨rfl, rfl⟩, rfl, rfl⟩ := h
    exact programSlot_adds hslot
  | var name =>
    simp only [hhead, run_bind_ok, run_pure_ok] at h
    obtain ⟨v, _, hv, rfl, rfl⟩ := h
    exact resolveName_adds hv

theorem keywordName?_same {callee : Template.Expr} {name : Option String}
    (h : (keywordName? o callee).run p = .ok name q) : p = q := by
  simp only [keywordName?, run_bind_ok, run_getSymbols_ok] at h
  obtain ⟨_, _, ⟨rfl, rfl⟩, h⟩ := h
  split at h <;> exact (run_pure_ok.mp h).2

theorem callKeyword?_same {callee : Template.Expr} {k : Option CallKeyword}
    (h : (callKeyword? o callee).run p = .ok k q) : p = q := by
  simp only [callKeyword?, run_bind_ok, run_pure_ok] at h
  obtain ⟨name, _, hname, -, rfl⟩ := h
  exact keywordName?_same hname

theorem askedBlock_adds {label : String} {params : List Template.Expr} {slot : Nat}
    (h : (askedBlock label params).run p = .ok slot q) : Adds [slot] p q := by
  unfold askedBlock at h
  split at h
  · exact programSlot_adds h
  · exact programSlot_adds h
  · exact (run_throw_ok.mp h).elim

end

/-! ### Expressions -/

section

variable {o : Settings}

theorem conditionOf_slots (negated : Bool) (e : Expr) :
    (conditionOf negated e).slots = e.slots := by
  cases negated with
  | true => rw [conditionOf, if_pos rfl, Expr.slots]
  | false => rfl

mutual

/-- An expression adds the slots that stand in its value. -/
theorem expr_adds (site : Site) (e : Template.Expr) {p q : Progress} {value : Expr}
    (h : (expr o site e).run p = .ok value q) : Adds value.slots p q := by
  match e with
  | .literal literal span =>
    rw [expr] at h
    obtain ⟨rfl, rfl⟩ := run_pure_ok.mp h
    rw [Expr.slots]
    exact .refl _
  | .path path =>
    rw [expr] at h
    exact path_adds h
  | .sub call span =>
    rw [expr] at h
    obtain ⟨k, r, hk, h⟩ := run_bind_ok.mp h
    obtain rfl := callKeyword?_same hk
    cases k with
    | some k => exact keywordCall_adds k _ span call h
    | none => exact callOf_adds .sub span call h

theorem arguments_adds (params : List Template.Expr) {p q : Progress} {values : List Expr}
    (h : (arguments o params).run p = .ok values q) : Adds (exprsSlots values) p q := by
  match params with
  | [] =>
    rw [arguments] at h
    obtain ⟨rfl, rfl⟩ := run_pure_ok.mp h
    rw [exprsSlots]
    exact .refl _
  | param :: rest =>
    rw [arguments] at h
    simp only [run_bind_ok, run_pure_ok] at h
    obtain ⟨value, r, hvalue, values, _, hvalues, rfl, rfl⟩ := h
    rw [exprsSlots]
    exact (expr_adds .argument param hvalue).seq (arguments_adds rest hvalues)

theorem namedArguments_adds (pairs : List (Pair Template.Expr)) {p q : Progress}
    {named : List (Named Expr)} (h : (namedArguments o pairs).run p = .ok named q) :
    Adds (namedSlots named) p q := by
  match pairs with
  | [] =>
    rw [namedArguments] at h
    obtain ⟨rfl, rfl⟩ := run_pure_ok.mp h
    rw [namedSlots]
    exact .refl _
  | ⟨key, param, span⟩ :: rest =>
    rw [namedArguments] at h
    simp only [run_bind_ok, run_pure_ok] at h
    obtain ⟨value, r, hvalue, values, _, hvalues, rfl, rfl⟩ := h
    rw [namedSlots]
    exact (expr_adds .argument param hvalue).seq (namedArguments_adds rest hvalues)

theorem callOf_adds (site : Site) (span : Span) (call : Call Template.Expr) {p q : Progress}
    {value : Expr} (h : (callOf o site span call).run p = .ok value q) :
    Adds value.slots p q := by
  match call with
  | ⟨callee, params, ⟨pairs, hashSpan⟩⟩ =>
    rw [callOf] at h
    simp only [run_bind_ok, run_pure_ok] at h
    obtain ⟨callee', _, hcallee, positional, _, hparams, named, _, hpairs, rfl, rfl⟩ := h
    rw [Expr.slots]
    exact ((expr_adds site callee hcallee).seq (arguments_adds params hparams)).seq
      (namedArguments_adds pairs hpairs)

theorem definitionOf_adds (label : String) (span : Span) (params : List Template.Expr)
    {p q : Progress} {value : Expr × List Expr}
    (h : (definitionOf o label span params).run p = .ok value q) :
    Adds (value.1.slots ++ exprsSlots value.2) p q := by
  match params with
  | [] =>
    rw [definitionOf] at h
    exact (run_throw_ok.mp h).elim
  | definition :: rest =>
    rw [definitionOf] at h
    simp only [run_bind_ok, run_ite_ok, run_throw_ok, run_pure_ok, false_and, exists_false,
      and_false, false_or] at h
    obtain ⟨-, value, _, hvalue, positional, _, hparams, rfl, rfl⟩ := h
    exact (expr_adds .argument definition hvalue).seq (arguments_adds rest hparams)

theorem inlineBranch_adds (negated : Bool) (label : String) (span : Span)
    (hash : Hash Template.Expr) (params : List Template.Expr) {p q : Progress} {value : Expr}
    (h : (inlineBranch o negated label span hash params).run p = .ok value q) :
    Adds value.slots p q := by
  match params with
  | [condition, truthy] =>
    unfold inlineBranch at h
    simp only [run_bind_ok, run_pure_ok] at h
    obtain ⟨_, _, hnamed, condition', _, hcondition, truthy', _, htruthy, rfl, rfl⟩ := h
    obtain ⟨rfl, -⟩ := checkNamed_ok hnamed
    rw [Expr.slots, conditionOf_slots, optionSlots, List.append_nil]
    exact (expr_adds .argument condition hcondition).seq (expr_adds .argument truthy htruthy)
  | [condition, truthy, falsy] =>
    unfold inlineBranch at h
    simp only [run_bind_ok, run_pure_ok] at h
    obtain ⟨_, _, hnamed, condition', _, hcondition, truthy', _, htruthy, falsy', _, hfalsy,
      rfl, rfl⟩ := h
    obtain ⟨rfl, -⟩ := checkNamed_ok hnamed
    rw [Expr.slots, conditionOf_slots, optionSlots]
    exact ((expr_adds .argument condition hcondition).seq
      (expr_adds .argument truthy htruthy)).seq (expr_adds .argument falsy hfalsy)
  | [] | [_] | _ :: _ :: _ :: _ :: _ =>
    unfold inlineBranch at h
    exact (run_throw_ok.mp h).elim

theorem dynamicVar_adds (label : String) (span : Span) (hash : Hash Template.Expr)
    (params : List Template.Expr) {p q : Progress} {value : Expr}
    (h : (dynamicVar o label span hash params).run p = .ok value q) : Adds value.slots p q := by
  match params with
  | [name] =>
    unfold dynamicVar at h
    simp only [run_bind_ok, run_pure_ok] at h
    obtain ⟨_, _, hnamed, name', _, hname, rfl, rfl⟩ := h
    obtain ⟨rfl, -⟩ := checkNamed_ok hnamed
    rw [Expr.slots]
    exact expr_adds .argument name hname
  | [] | _ :: _ :: _ =>
    unfold dynamicVar at h
    exact (run_throw_ok.mp h).elim

theorem keywordCall_adds (k : CallKeyword) (label : String) (span : Span)
    (call : Call Template.Expr) {p q : Progress} {value : Expr}
    (h : (keywordCall o k label span call).run p = .ok value q) : Adds value.slots p q := by
  match call with
  | ⟨callee, params, ⟨pairs, hashSpan⟩⟩ =>
    unfold keywordCall at h
    cases k with
    | branch negated => exact inlineBranch_adds negated label span _ params h
    | hasBlock =>
      simp only [run_bind_ok, run_ite_ok, run_throw_ok, run_pure_ok, false_and, exists_false,
        and_false, false_or] at h
      obtain ⟨-, _, _, hnamed, slot, _, hslot, rfl, rfl⟩ := h
      obtain ⟨rfl, -⟩ := checkNamed_ok hnamed
      rw [Expr.slots]
      exact askedBlock_adds hslot
    | hasBlockParams =>
      simp only [run_bind_ok, run_ite_ok, run_throw_ok, run_pure_ok, false_and, exists_false,
        and_false, false_or] at h
      obtain ⟨-, _, _, hnamed, slot, _, hslot, rfl, rfl⟩ := h
      obtain ⟨rfl, -⟩ := checkNamed_ok hnamed
      rw [Expr.slots]
      exact askedBlock_adds hslot
    | curry kind =>
      simp only [run_bind_ok, run_pure_ok] at h
      obtain ⟨value, _, hvalue, named, _, hpairs, rfl, rfl⟩ := h
      rw [Expr.slots]
      exact (definitionOf_adds label span params hvalue).seq (namedArguments_adds pairs hpairs)
    | log =>
      simp only [run_bind_ok, run_pure_ok] at h
      obtain ⟨_, _, hnamed, positional, _, hparams, rfl, rfl⟩ := h
      obtain ⟨rfl, -⟩ := checkNamed_ok hnamed
      rw [Expr.slots, namedSlots, List.append_nil]
      exact arguments_adds params hparams
    | getDynamicVar => exact dynamicVar_adds label span _ params h

end

theorem dynamicCall_adds {label : String} {span : Span} {call : Call Template.Expr}
    {p q : Progress} {value : Expr × Args Expr}
    (h : (dynamicCall o label span call).run p = .ok value q) :
    Adds (value.1.slots ++ value.2.slots) p q := by
  obtain ⟨callee, params, hash⟩ := call
  simp only [dynamicCall, run_bind_ok, run_pure_ok] at h
  obtain ⟨value, _, hvalue, named, _, hpairs, rfl, rfl⟩ := h
  rw [Args.slots, ← List.append_assoc]
  exact (definitionOf_adds label span params hvalue).seq (namedArguments_adds hash.pairs hpairs)

theorem optionalNamed_adds {key : String} {hash : Hash Template.Expr} {p q : Progress}
    {value : Option Expr} (h : (optionalNamed o key hash).run p = .ok value q) :
    Adds (optionSlots value) p q := by
  rw [optionalNamed] at h
  split at h
  · obtain ⟨rfl, rfl⟩ := run_pure_ok.mp h
    rw [optionSlots]
    exact .refl _
  · next pair _ =>
    simp only [run_bind_ok, run_pure_ok] at h
    obtain ⟨value, _, hvalue, rfl, rfl⟩ := h
    rw [optionSlots]
    exact expr_adds .argument pair.value hvalue

/-! ### Attributes and modifiers -/

/-- A step made for each member of a list. -/
theorem mapM_adds {α β : Type} {f : α → Walk β} {slots : β → List Nat}
    (hf : ∀ {a : α} {b : β} {p q : Progress}, (f a).run p = .ok b q → Adds (slots b) p q)
    (l : List α) {p q : Progress} {bs : List β} (h : (l.mapM f).run p = .ok bs q) :
    Adds (bs.flatMap slots) p q := by
  induction l generalizing p bs with
  | nil =>
    rw [List.mapM_nil] at h
    obtain ⟨rfl, rfl⟩ := run_pure_ok.mp h
    exact .refl _
  | cons a l ih =>
    simp only [List.mapM_cons, run_bind_ok, run_pure_ok] at h
    obtain ⟨b, r, hb, bs, _, hbs, rfl, rfl⟩ := h
    rw [List.flatMap_cons]
    exact (hf hb).seq (ih hbs)

theorem attrMustache_adds {tag : MustacheTag} {p q : Progress} {value : Expr}
    (h : (attrMustache o tag).run p = .ok value q) : Adds value.slots p q := by
  obtain ⟨k, r, hk, h⟩ := run_bind_ok.mp h
  obtain rfl := callKeyword?_same hk
  cases k with
  | some k => exact keywordCall_adds k _ tag.span tag.call h
  | none =>
    simp only [run_ite_ok] at h
    rcases h with ⟨-, h⟩ | ⟨-, h⟩
    · exact expr_adds _ tag.call.callee h
    · exact callOf_adds _ tag.span tag.call h

theorem exprsSlots_eq (es : List Expr) : exprsSlots es = es.flatMap Expr.slots := by
  induction es with
  | nil => rw [exprsSlots, List.flatMap_nil]
  | cons e rest ih => rw [exprsSlots, List.flatMap_cons, ih]

theorem concatPart_adds {part : ConcatPart} {p q : Progress} {value : Expr}
    (h : (concatPart o part).run p = .ok value q) : Adds value.slots p q := by
  cases part with
  | text node =>
    obtain ⟨rfl, rfl⟩ := run_pure_ok.mp h
    rw [textLiteral, Expr.slots]
    exact .refl _
  | mustache tag => exact attrMustache_adds h

theorem attrValue_adds {attr : AttrValue} {p q : Progress} {value : Expr}
    (h : (attrValue o attr).run p = .ok value q) : Adds value.slots p q := by
  cases attr with
  | text node =>
    obtain ⟨rfl, rfl⟩ := run_pure_ok.mp h
    rw [textLiteral, Expr.slots]
    exact .refl _
  | mustache tag => exact attrMustache_adds h
  | concat parts span =>
    simp only [attrValue, run_bind_ok, run_pure_ok] at h
    obtain ⟨es, _, hparts, rfl, rfl⟩ := h
    rw [Expr.slots, exprsSlots_eq]
    exact mapM_adds concatPart_adds parts hparts

theorem elementAttr_adds {attr : Template.Attr} {p q : Progress} {a : Attr}
    (h : (elementAttr o attr).run p = .ok a q) : Adds a.slots p q := by
  simp only [elementAttr, run_ite_ok, run_bind_ok, run_pure_ok] at h
  rcases h with ⟨-, slot, _, hslot, rfl, rfl⟩ | ⟨-, value, _, hvalue, rfl, rfl⟩
  · exact programSlot_adds hslot
  · exact attrValue_adds hvalue

theorem modifierOf_adds {m : Template.Modifier} {p q : Progress} {m' : Modifier}
    (h : (modifierOf o m).run p = .ok m' q) : Adds m'.slots p q := by
  simp only [modifierOf, run_bind_ok, run_pure_ok] at h
  obtain ⟨callee, _, hcallee, positional, _, hparams, named, _, hpairs, rfl, rfl⟩ := h
  exact (expr_adds .modifier m.call.callee hcallee).seq
    ((arguments_adds m.call.params hparams).seq (namedArguments_adds m.call.hash.pairs hpairs))

/-- Arguments stand among the attributes of a tag, and apart from them in the
resolved component. -/
theorem componentAttrs_adds (attributes : List Template.Attr) {p q : Progress}
    {value : List Attr × List (Named Expr)}
    (h : (componentAttrs o attributes).run p = .ok value q) :
    Adds (value.1.flatMap Attr.slots ++ namedSlots value.2) p q := by
  induction attributes generalizing p value with
  | nil =>
    obtain ⟨rfl, rfl⟩ := run_pure_ok.mp h
    rw [namedSlots]
    exact .refl _
  | cons attr rest ih =>
    simp only [componentAttrs, run_ite_ok, run_bind_ok, run_pure_ok] at h
    rcases h with ⟨-, e, _, he, more, _, hmore, rfl, rfl⟩ | ⟨-, a, _, ha, more, _, hmore, rfl, rfl⟩
    · refine Adds.congr ((attrValue_adds he).seq (ih hmore)) fun slot => ?_
      simp only [namedSlots, List.mem_append]
      tauto
    · rw [List.flatMap_cons, List.append_assoc]
      exact (elementAttr_adds ha).seq (ih hmore)

/-! ### Tags among content -/

/-- Whether something reads by name. -/
def evalsIn (cs : List Content) : Bool := cs.any fun c => c.eval?.isSome

theorem evalsIn_append (a b : List Content) : evalsIn (a ++ b) = (evalsIn a || evalsIn b) :=
  List.any_append

/-- The step that resolves a piece of content. -/
abbrev ContentWalks (c : Content) (p q : Progress) : Prop :=
  Walks (slotsOf (c :: c.inside)) (evalsIn (c :: c.inside))
    (fun before around => c.captures before around) p q

/-- The step that resolves content in order. -/
abbrev ContentsWalk (cs : List Content) (p q : Progress) : Prop :=
  Walks (slotsOf (contentsWithin cs)) (evalsIn (contentsWithin cs))
    (fun before around => contentsCaptures before around cs) p q

/-- The step that resolves a block. -/
abbrev BlockWalks (b : Block Content) (p q : Progress) : Prop :=
  Walks (slotsOf (blockWithin b)) (evalsIn (blockWithin b))
    (fun before around => blockCaptures before around b) p q

/-- The step that resolves a block that may be missing. -/
abbrev OtherWalks (b : Option (Block Content)) (p q : Progress) : Prop :=
  Walks (slotsOf (otherWithin b)) (evalsIn (otherWithin b))
    (fun before around => otherCaptures before around b) p q

/-- The step that resolves blocks with names. -/
abbrev NamedBlocksWalk (blocks : List (NamedBlock Content)) (p q : Progress) : Prop :=
  Walks (slotsOf (namedBlocksWithin blocks)) (evalsIn (namedBlocksWithin blocks))
    (fun before around => namedBlocksCaptures before around blocks) p q

/-- A piece of content whose own values come before what is inside of it. -/
theorem ContentWalks.of_seq {c : Content} {slots : List Nat} {evals : Bool}
    {captures : List Nat → List (List Nat) → List Capture} {p q r : Progress}
    (hown : Adds c.ownSlots p q) (h : Walks slots evals captures q r) (heval : c.eval? = none)
    (hslots : slotsOf c.inside = slots) (hevals : evalsIn c.inside = evals)
    (hcaptures : ∀ before around,
      c.captures before around = captures (before ++ c.ownSlots) around) :
    ContentWalks c p r := by
  subst hslots hevals
  have hseq := hown.seq h
  refine ⟨hseq.advances, fun slot => ?_, ?_, fun before around hreach => ?_⟩
  · rw [slotsOf_cons]
    exact hseq.given slot
  · rw [hseq.hasEval, evalsIn, evalsIn, List.any_cons, heval]
    rfl
  · rw [hcaptures]
    exact hseq.exact before around hreach

/-- A piece of content with nothing inside. -/
theorem ContentWalks.leaf {c : Content} {p q : Progress} (hown : Adds c.ownSlots p q)
    (heval : c.eval? = none) (hinside : c.inside = [])
    (hcaptures : ∀ before around, c.captures before around = []) : ContentWalks c p q :=
  .of_seq hown (Adds.refl q) heval (by rw [hinside]; rfl) (by rw [hinside]; rfl) hcaptures

/-- What reads by name lists what is visible. -/
theorem markEval_walks {p q : Progress}
    (h : (onSymbols fun s => ((), s.markEval)).run p = .ok () q) :
    Walks [] true (fun before around => [⟨q.symbols.visible, before, around⟩]) p q := by
  obtain ⟨-, rfl⟩ := run_onSymbols_ok.mp h
  refine ⟨fun _ => Symbols.markEval_advances _, fun slot => ?_, ?_, fun before around hreach => ?_⟩
  · rw [or_iff_left List.not_mem_nil]
    exact Iff.rfl
  · rw [Bool.or_true]
    rfl
  · exact List.forall_mem_singleton.mpr hreach.exact

theorem appendForm_walks {k : AppendKeyword} {tag : MustacheTag} {p q : Progress} {c : Content}
    (h : (appendForm o k tag).run p = .ok c q) : ContentWalks c p q := by
  cases appendForm_runs h with
  | yield htakes hto hslot hparams =>
    exact .leaf ((programSlot_adds hslot).seq (arguments_adds tag.call.params hparams)) rfl
      (by rw [Content.inside]) (fun _ _ => by rw [Content.captures])
  -- Here the names in scope are asked for, so the block captures all of them.
  | partialCall hloose htakes hparams htarget heval =>
    have hseq := (expr_adds .argument _ htarget).seq (markEval_walks heval)
    refine ⟨hseq.advances, fun slot => ?_, ?_, fun before around hreach => ?_⟩
    · rw [slotsOf_cons, Content.inside]
      exact hseq.given slot
    · rw [hseq.hasEval, Content.inside]
      rfl
    · rw [Content.captures]
      exact hseq.exact before around hreach
  | debugger htakes hparams heval =>
    have hwalks := markEval_walks heval
    refine ⟨hwalks.advances, fun slot => ?_, ?_, fun before around hreach => ?_⟩
    · rw [Content.inside]
      exact hwalks.given slot
    · rw [hwalks.hasEval, Content.inside]
      rfl
    · rw [Content.captures]
      exact hwalks.exact before around hreach
  | component hvalue =>
    exact .leaf (dynamicCall_adds hvalue) rfl (by rw [Content.inside, namedBlocksWithin])
      (fun _ _ => by rw [Content.captures, namedBlocksCaptures])
  | value hvalue =>
    exact .leaf (keywordCall_adds _ _ tag.span tag.call hvalue) rfl (by rw [Content.inside])
      (fun _ _ => by rw [Content.captures])

theorem appendTag_walks {tag : MustacheTag} {p q : Progress} {c : Content}
    (h : (appendTag o tag).run p = .ok c q) : ContentWalks c p q := by
  obtain ⟨name, _, hname, h⟩ := run_bind_ok.mp h
  obtain rfl := keywordName?_same hname
  split at h
  · exact appendForm_walks h
  · simp only [run_ite_ok, run_bind_ok, run_pure_ok] at h
    have hleaf : ∀ (value : Expr) (q : Progress), Adds value.slots p q →
        ContentWalks (.append value tag.trusting tag.span) p q := by
      intro value q hadds
      exact .leaf hadds rfl (by rw [Content.inside]) (fun _ _ => by rw [Content.captures])
    rcases h with ⟨-, value, _, hvalue, rfl, rfl⟩ | ⟨-, value, _, hvalue, rfl, rfl⟩
    · exact hleaf value _ (expr_adds _ tag.call.callee hvalue)
    · exact hleaf value _ (callOf_adds _ tag.span tag.call hvalue)

/-! ### Blocks -/

/-- A branch resolves its block so that whatever reads by name lists what is in
its reach. -/
def Branch.Captures (branch : Branch) : Prop :=
  ∀ {p q : Progress} {b : Block Content}, branch.resolve.run p = .ok b q → BlockWalks b p q

theorem otherBlock_walks {inverse : Option Branch} {p q : Progress}
    {other : Option (Block Content)} (hinverse : ∀ branch ∈ inverse, branch.Captures)
    (h : (otherBlock inverse).run p = .ok other q) : OtherWalks other p q := by
  cases inverse with
  | none =>
    obtain ⟨rfl, rfl⟩ := run_pure_ok.mp h
    simp only [OtherWalks, otherWithin, otherCaptures]
    exact Adds.refl p
  | some branch =>
    simp only [otherBlock, run_bind_ok, run_pure_ok] at h
    obtain ⟨b, _, hb, rfl, rfl⟩ := h
    simp only [OtherWalks, otherWithin, otherCaptures]
    exact hinverse branch rfl hb

/-- Two branches, one after the other. -/
theorem branches_walk {block : Block Content} {other : Option (Block Content)} {p q r : Progress}
    (hblock : BlockWalks block p q) (hother : OtherWalks other q r) :
    Walks (slotsOf (blockWithin block ++ otherWithin other))
      (evalsIn (blockWithin block ++ otherWithin other))
      (fun before around => blockCaptures before around block ++
        otherCaptures (before ++ slotsOf (blockWithin block)) around other) p r := by
  rw [slotsOf_append, evalsIn_append]
  exact hblock.seq hother

theorem namedBranches_walk {program : Branch} {inverse : Option Branch} {p q : Progress}
    {blocks : List (NamedBlock Content)} (hprogram : program.Captures)
    (hinverse : ∀ branch ∈ inverse, branch.Captures)
    (h : (namedBranches program inverse).run p = .ok blocks q) : NamedBlocksWalk blocks p q := by
  simp only [namedBranches, run_bind_ok] at h
  obtain ⟨block, r, hblock, h⟩ := h
  have h₁ := hprogram hblock
  cases inverse with
  | none =>
    obtain ⟨rfl, rfl⟩ := run_pure_ok.mp h
    simp only [NamedBlocksWalk, namedBlocksWithin, namedBlocksCaptures, List.append_nil]
    exact h₁
  | some branch =>
    simp only [run_bind_ok, run_pure_ok] at h
    obtain ⟨other, _, hother, rfl, rfl⟩ := h
    simp only [NamedBlocksWalk, namedBlocksWithin, namedBlocksCaptures, List.append_nil,
      slotsOf_append, evalsIn_append]
    exact h₁.seq (hinverse branch rfl hother)

theorem nextCursor_adds {guid : String} {p q : Progress} (h : nextCursor.run p = .ok guid q) :
    Adds [] p q := by
  obtain ⟨-, rfl⟩ := run_modifyGet_ok.mp h
  exact ⟨fun _ => Symbols.Advances.refl _, by simp, by simp, by simp⟩

/-- A block with a keyword: its values are resolved before its branches. -/
theorem blockForm_walks {k : BlockKeyword} {tag : BlockTag} {program : Branch}
    {inverse : Option Branch} {p q : Progress} {c : Content} (hprogram : program.Captures)
    (hinverse : ∀ branch ∈ inverse, branch.Captures)
    (h : (blockForm o k tag program inverse).run p = .ok c q) : ContentWalks c p q := by
  -- What the values of the block read comes first, then what its branches capture.
  cases blockForm_runs h with
  | @branch negated condition condition' _ _ _ _ _ htakes hparams hcondition hblock hother =>
    have hown := expr_adds .argument condition hcondition
    rw [← conditionOf_slots negated] at hown
    exact .of_seq hown (branches_walk (hprogram hblock) (otherBlock_walks hinverse hother)) rfl
      (by rw [Content.inside]) (by rw [Content.inside]) (fun _ _ => by rw [Content.captures]; rfl)
  | each htakes hparams hvalue hkey hblock hother =>
    have hown := (expr_adds .argument _ hvalue).seq (optionalNamed_adds hkey)
    exact .of_seq hown (branches_walk (hprogram hblock) (otherBlock_walks hinverse hother)) rfl
      (by rw [Content.inside]) (by rw [Content.inside]) (fun _ _ => by rw [Content.captures]; rfl)
  | withValue htakes hparams hvalue hblock hother =>
    have hown := expr_adds .argument _ hvalue
    exact .of_seq hown (branches_walk (hprogram hblock) (otherBlock_walks hinverse hother)) rfl
      (by rw [Content.inside]) (by rw [Content.inside]) (fun _ _ => by rw [Content.captures]; rfl)
  | letValues htakes hnone hparams hblock =>
    exact .of_seq (arguments_adds tag.call.params hparams) (hprogram hblock) rfl
      (by rw [Content.inside]) (by rw [Content.inside]) (fun _ _ => by rw [Content.captures]; rfl)
  | inElement htakes hnone hparams hguid hdestination hinsert hblock =>
    have hown := (nextCursor_adds hguid).seq
      ((expr_adds .argument _ hdestination).seq (optionalNamed_adds hinsert))
    exact .of_seq hown (hprogram hblock) rfl
      (by rw [Content.inside]) (by rw [Content.inside]) (fun _ _ => by rw [Content.captures]; rfl)
  | component hvalue hblocks =>
    exact .of_seq (dynamicCall_adds hvalue) (namedBranches_walk hprogram hinverse hblocks) rfl
      (by rw [Content.inside]) (by rw [Content.inside]) (fun _ _ => by rw [Content.captures]; rfl)
  | withDynamicVars hparams hnone hpairs hblock =>
    exact .of_seq (namedArguments_adds tag.call.hash.pairs hpairs) (hprogram hblock) rfl
      (by rw [Content.inside]) (by rw [Content.inside]) (fun _ _ => by rw [Content.captures]; rfl)

theorem blockTag_walks {tag : BlockTag} {program : Branch} {inverse : Option Branch}
    {p q : Progress} {c : Content} (hprogram : program.Captures)
    (hinverse : ∀ branch ∈ inverse, branch.Captures)
    (h : (blockTag o tag program inverse).run p = .ok c q) : ContentWalks c p q := by
  obtain ⟨name, _, hname, h⟩ := run_bind_ok.mp h
  obtain rfl := keywordName?_same hname
  split at h
  · exact blockForm_walks hprogram hinverse h
  · simp only [run_bind_ok, run_pure_ok] at h
    obtain ⟨callee, _, hcallee, positional, _, hparams, named, _, hpairs, blocks, _, hblocks, rfl,
      rfl⟩ := h
    have hown := (expr_adds .block tag.call.callee hcallee).seq
      ((arguments_adds tag.call.params hparams).seq
        (namedArguments_adds tag.call.hash.pairs hpairs))
    exact .of_seq hown (namedBranches_walk hprogram hinverse hblocks) rfl
      (by rw [Content.inside]) (by rw [Content.inside]) (fun _ _ => by rw [Content.captures]; rfl)

/-! ### Elements -/

theorem isComponent_same {tag : StartTag} {span : Span} {b : Bool} {p q : Progress}
    (h : (isComponent o tag span).run p = .ok b q) : p = q := by
  simp only [isComponent, run_bind_ok, run_getSymbols_ok, run_ite_ok, run_throw_ok, run_pure_ok,
    false_and, exists_false, and_false, false_or] at h
  obtain ⟨_, _, ⟨rfl, rfl⟩, h⟩ := h
  rcases h with ⟨-, -, rfl⟩ | ⟨-, -, -, -, rfl⟩ <;> rfl

theorem componentName_adds {tag name : String} {p q : Progress}
    (h : (componentName o tag).run p = .ok name q) : Adds [] p q := by
  obtain ⟨hsymbols, -⟩ := componentName_same h
  have hadvances : p.symbols.Advances q.symbols := hsymbols ▸ Symbols.Advances.refl _
  exact ⟨fun _ => hadvances, by simp [hsymbols], by simp [hsymbols], by simp⟩

theorem componentCallee_adds {tag : StartTag} {span : Span} {e : Expr} {p q : Progress}
    (h : (componentCallee o tag span).run p = .ok e q) : Adds e.slots p q := by
  obtain ⟨v, rfl, hruns⟩ := componentCallee_runs h
  rw [Expr.slots]
  cases hruns with
  | argument harg hslot => exact programSlot_adds hslot
  | this harg hthis => exact .refl _
  | bare harg hthis hbound hv => exact resolveName_adds hv
  | free harg hthis hfree hname hupvar => exact (componentName_adds hname).seq (free_adds hupvar)

theorem component_walks {tag : StartTag} {span : Span} {blocks : Walk (List (NamedBlock Content))}
    {p q : Progress} {c : Content}
    (hblocks : ∀ {p q : Progress} {bs : List (NamedBlock Content)}, blocks.run p = .ok bs q →
      NamedBlocksWalk bs p q)
    (h : (component o tag span blocks).run p = .ok c q) : ContentWalks c p q := by
  simp only [component, run_bind_ok, run_pure_ok] at h
  obtain ⟨callee, _, hcallee, value, _, hattrs, modifiers, _, hmodifiers, bs, _, hbs, rfl, rfl⟩ := h
  have hseq := ((componentCallee_adds hcallee).seq (componentAttrs_adds tag.attributes hattrs)).seq
    (mapM_adds modifierOf_adds tag.modifiers hmodifiers)
  have hslots : ∀ slot, slot ∈ callee.slots ++ (value.1.flatMap Attr.slots ++ namedSlots value.2) ++
      modifiers.flatMap Modifier.slots ↔
      slot ∈ (Content.invokeComponent callee ⟨value.1, modifiers⟩ value.2 bs span).ownSlots := by
    intro slot
    simp only [Content.ownSlots, ElementParams.slots, List.mem_append]
    tauto
  exact .of_seq (Adds.congr hseq hslots) (hblocks hbs) rfl (by rw [Content.inside])
    (by rw [Content.inside])
    (fun _ _ => by rw [Content.captures]; rfl)

theorem plainElement_walks {tag : StartTag} {span : Span} {body : Walk (List Content)}
    {p q : Progress} {c : Content}
    (hbody : ∀ {p q : Progress} {cs : List Content}, body.run p = .ok cs q → ContentsWalk cs p q)
    (h : (plainElement o tag span body).run p = .ok c q) : ContentWalks c p q := by
  obtain ⟨attrs, modifiers, cs, _, _, hattrs, hmodifiers, hcs, rfl⟩ := plainElement_runs h
  have hown := (mapM_adds elementAttr_adds tag.attributes hattrs).seq
    (mapM_adds modifierOf_adds tag.modifiers hmodifiers)
  exact .of_seq hown (hbody hcs) rfl (by rw [Content.inside]) (by rw [Content.inside])
    (fun _ _ => by rw [Content.captures]; rfl)

/-! ### Statements -/

/-- Inside of a block its parameters are in reach too. -/
theorem Reach.openBlock {before : List Nat} {around : List (List Nat)} {params : List String}
    {slots : List Nat} {p : Progress} {s : Symbols} (h : Reach before around p)
    (hopen : p.symbols.openBlock params = (slots, s)) :
    Reach before (slots :: around) { p with symbols := s } := by
  have hopened := Symbols.openBlock_opened hopen
  obtain ⟨hgiven, -, inner, hinner, hslots⟩ := Symbols.openBlock_locals hopen
  refine ⟨hopened.sound h.sound, fun slot => ?_, fun slot => ?_, ?_⟩
  · rw [show ({ p with symbols := s } : Progress).symbols.given = p.symbols.given from hgiven]
    exact h.given slot
  · have houter := h.locals slot
    simp only [Symbols.frames, hinner, hopened.root, List.cons_append, List.exists_mem_cons_iff,
      hslots] at houter ⊢
    rw [houter]
  · refine List.forall_mem_cons.mpr ⟨fun slot hslot => ?_, fun params hparams slot hslot => ?_⟩
    · obtain ⟨i, hi, rfl⟩ := List.mem_iff_getElem.mp hslot
      have hi' : i < params.length := hopened.length ▸ hi
      have hentry : (params[i], slots[i]) ∈ params.zip slots :=
        List.mem_iff_getElem.mpr ⟨i, by rw [List.length_zip]; omega, by simp⟩
      exact (hopened.holds _ hentry).pos_le
    · have hbounds := h.bounds params hparams slot hslot
      have hlength := hopened.length_le
      exact ⟨hbounds.1, Nat.le_trans hbounds.2 hlength⟩

/-- A block: its parameters are in reach while its body is resolved, and after it
only the slots of the program are left. -/
theorem inBlock_walks {params : List String} {children : List Statement} {span : Span}
    {p q : Progress} {b : Block Content}
    (hbody : ∀ {p q : Progress} {cs : List Content}, (statements o children).run p = .ok cs q →
      ContentsWalk cs p q)
    (h : (inBlock params fun slots => return ⟨slots, ← statements o children, span⟩).run p
      = .ok b q) : BlockWalks b p q := by
  obtain ⟨slots, s, cs, r, hopen, hcs, rfl, rfl⟩ := inBlock_runs h
  have hopened := Symbols.openBlock_opened hopen
  obtain ⟨hgiven, heval, -⟩ := Symbols.openBlock_locals hopen
  have hwalks := hbody hcs
  refine ⟨fun hsound => ?_, fun slot => ?_, ?_, fun before around hreach => ?_⟩
  · exact Symbols.Advances.of_opened hopened (hwalks.advances (hopened.sound hsound))
  · rw [← hgiven, blockWithin]
    exact hwalks.given slot
  · rw [← heval, blockWithin]
    exact hwalks.hasEval
  · rw [blockCaptures]
    exact hwalks.exact before _ (hreach.openBlock hopen)

mutual

theorem statement_walks (s : Statement) {p q : Progress} {c : Content}
    (h : (statement o s).run p = .ok c q) : ContentWalks c p q := by
  match s with
  | .text node =>
    rw [statement] at h
    obtain ⟨rfl, rfl⟩ := run_pure_ok.mp h
    exact .leaf (.refl _) rfl (by rw [Content.inside]) (fun _ _ => by rw [Content.captures])
  | .comment comment =>
    rw [statement] at h
    obtain ⟨rfl, rfl⟩ := run_pure_ok.mp h
    exact .leaf (.refl _) rfl (by rw [Content.inside]) (fun _ _ => by rw [Content.captures])
  | .mustacheComment comment =>
    rw [statement] at h
    obtain ⟨rfl, rfl⟩ := run_pure_ok.mp h
    exact .leaf (.refl _) rfl (by rw [Content.inside]) (fun _ _ => by rw [Content.captures])
  | .partialCall tag =>
    rw [statement] at h
    exact (run_throw_ok.mp h).elim
  | .mustache tag =>
    rw [statement] at h
    exact appendTag_walks h
  | .block tag program none =>
    rw [statement] at h
    exact blockTag_walks (fun h => block_walks program h) (by simp) h
  | .block tag program (some inverse) =>
    rw [statement] at h
    refine blockTag_walks (fun h => block_walks program h) (fun branch hbranch => ?_) h
    cases hbranch
    exact fun h => block_walks inverse h
  | .element tag children span =>
    obtain ⟨-, invoked, r, hinvoked, hruns⟩ := element_runs h
    obtain rfl := isComponent_same hinvoked
    -- A component walks its blocks; all other elements walk their children in place.
    rcases hruns with ⟨-, blocks, hblocks, hrun⟩ | ⟨-, hrun⟩
    · refine component_walks (fun {p q bs} hbs => ?_) hrun
      cases hblocks hbs with
      | named hnamed hparams h => exact namedBlocks_walk tag.name [] children h
      | alone hnamed hclosing =>
        simp only [NamedBlocksWalk, namedBlocksWithin, namedBlocksCaptures]
        exact Adds.refl _
      | default hnamed hclosing hblock =>
        have hwalks := inBlock_walks (fun h => statements_walk children h) hblock
        simp only [NamedBlocksWalk, namedBlocksWithin, namedBlocksCaptures, List.append_nil]
        exact hwalks
    · exact plainElement_walks (fun h => statements_walk children h) hrun

theorem statements_walk (ss : List Statement) {p q : Progress} {cs : List Content}
    (h : (statements o ss).run p = .ok cs q) : ContentsWalk cs p q := by
  match ss with
  | [] =>
    rw [statements] at h
    obtain ⟨rfl, rfl⟩ := run_pure_ok.mp h
    simp only [ContentsWalk, contentsWithin, contentsCaptures]
    exact Adds.refl _
  | s :: rest =>
    rw [statements] at h
    simp only [run_bind_ok, run_pure_ok] at h
    obtain ⟨c, _, hc, cs, _, hcs, rfl, rfl⟩ := h
    have hseq := (statement_walks s hc).seq (statements_walk rest hcs)
    simp only [ContentsWalk, contentsWithin, contentsCaptures, ← List.cons_append]
    rw [slotsOf_append, evalsIn_append]
    exact hseq

theorem block_walks (t : Template.Block Statement) {p q : Progress} {b : Block Content}
    (h : (block o t).run p = .ok b q) : BlockWalks b p q := by
  match t with
  | ⟨body, params, chained, span⟩ =>
    rw [block] at h
    exact inBlock_walks (fun h => statements_walk body h) h

theorem namedBlocks_walk (component : String) (seen : List String) (ss : List Statement)
    {p q : Progress} {bs : List (NamedBlock Content)}
    (h : (namedBlocks o component seen ss).run p = .ok bs q) : NamedBlocksWalk bs p q := by
  match ss with
  | [] =>
    unfold namedBlocks at h
    obtain ⟨rfl, rfl⟩ := run_pure_ok.mp h
    simp only [NamedBlocksWalk, namedBlocksWithin, namedBlocksCaptures]
    exact Adds.refl _
  | .element tag children span :: rest =>
    unfold namedBlocks at h
    simp only [run_ite_ok, run_bind_ok, run_throw_ok, run_pure_ok, and_false, or_false] at h
    obtain ⟨-, name, _, hname, b, _, hb, bs, _, hbs, rfl, rfl⟩ := h
    obtain ⟨rfl, -⟩ := namedBlockName_ok hname
    have hblock := inBlock_walks (fun h => statements_walk children h) hb
    have hseq := hblock.seq (namedBlocks_walk component (name :: seen) rest hbs)
    simp only [NamedBlocksWalk, namedBlocksWithin, namedBlocksCaptures]
    rw [slotsOf_append, evalsIn_append]
    exact hseq
  | .text _ :: rest | .comment _ :: rest | .mustacheComment _ :: rest | .partialCall _ :: rest
  | .mustache _ :: rest | .block _ _ _ :: rest =>
    unfold namedBlocks at h
    simp only [run_ite_ok, run_throw_ok, and_false, or_false] at h
    exact namedBlocks_walk component seen rest h.2

end

end

/-! ### Templates -/

/-- At the start nothing is in reach. -/
theorem start_reach (o : Settings) : Reach [] [] (start o) :=
  ⟨fun _ hmem => absurd hmem List.not_mem_nil, by simp [start, Symbols.given],
    by simp [start, Symbols.frames], by simp⟩

/-- A template may read by name exactly when a `debugger` or a partial is in it.
Each of these lists, in ascending order, the slots of the program that stand in
the template up to its place, and the parameters of the blocks around it. -/
theorem resolve_captures {t : Template} {o : Settings} {body : Body} {p : Progress}
    (h : t.resolve o = (.ok body, p)) :
    (p.symbols.hasEval = true ↔ ∃ c ∈ contentsWithin body.body, c.eval?.isSome = true) ∧
    body.captures.map Capture.eval = (contentsWithin body.body).filterMap Content.eval? ∧
    ∀ k ∈ body.captures, k.eval.Pairwise (· < ·) ∧
      ∀ slot, slot ∈ k.eval ↔ slot ∈ k.before ∨ ∃ params ∈ k.around, slot ∈ params := by
  have hwalks : ContentsWalk body.body (start o) p := by
    rw [Template.resolve] at h
    split at h
    · next contents q hrun =>
      obtain ⟨rfl, rfl⟩ : (⟨contents, t.span⟩ : Body) = body ∧ q = p := by simpa using h
      exact statements_walk t.body hrun
    · simp at h
  refine ⟨?_, contentsCaptures_eval [] [] body.body, fun k hk => ?_⟩
  · rw [hwalks.hasEval, show (start o).symbols.hasEval = false from rfl, Bool.false_or, evalsIn,
      List.any_eq_true]
  · obtain ⟨hascending, hmembers⟩ := hwalks.exact [] [] (start_reach o) k hk
    exact ⟨hascending, hmembers⟩

/-- An argument, and after it a block in which the debugger is called. -/
def debugged : Template where
  body :=
    [.mustache ⟨⟨.path ⟨.at "a", [], "@a", .dummy⟩, [], ⟨[], .dummy⟩⟩, false, {}, .dummy⟩,
      .block ⟨⟨bareName "let", [bareName "x"], ⟨[], .dummy⟩⟩, {}, {}, {}, .dummy⟩
        { body := [writeName "debugger"], params := ["y"], span := .dummy } none,
      .mustache ⟨⟨.path ⟨.at "b", [], "@b", .dummy⟩, [], ⟨[], .dummy⟩⟩, false, {}, .dummy⟩]
  span := .dummy

theorem resolve_captures_debugged :
    ∃ body p, debugged.resolve {} = (.ok body, p) ∧ p.symbols.names = ["@a", "y", "@b"] ∧
      body.captures = [⟨[1, 2], [1], [[2]]⟩] ∧
      ∀ slot, slot ∈ [1, 2] ↔ slot ∈ [1] ∨ ∃ params ∈ [[2]], slot ∈ params := by
  have hnames : (debugged.resolve {}).2.symbols.names = ["@a", "y", "@b"] := by decide +kernel
  have hcaptures : (debugged.resolve {}).1.toOption.map Body.captures
      = some [⟨[1, 2], [1], [[2]]⟩] := by decide +kernel
  match hrun : debugged.resolve {} with
  | (.ok body, p) =>
    rw [hrun] at hnames hcaptures
    have hbody : body.captures = [⟨[1, 2], [1], [[2]]⟩] := Option.some.inj hcaptures
    obtain ⟨-, -, hexact⟩ := resolve_captures hrun
    exact ⟨body, p, rfl, hnames, hbody, (hexact ⟨[1, 2], [1], [[2]]⟩ (by rw [hbody]; simp)).2⟩
  | (.error fault, p) =>
    rw [hrun] at hcaptures
    cases hcaptures

end TemplateCompiler.Resolved
