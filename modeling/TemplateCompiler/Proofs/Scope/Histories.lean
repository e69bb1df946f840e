/-
All that symbols ever gave out.

Slots and upvars are asked for in any order, while scopes are entered and left.  This
file follows what was given out from the first operation on:

* `Operation`, `History` — the operations on symbols, and what they gave out so far;
* `Owner` — what a slot is given for: a name in one scope, or a name of the program;
* `History.Kept` — every number still means what it was given for, and owners of
  different slots differ;
* `History.after_kept` — an operation keeps that;
* `Balanced` — operations that close the blocks that they open, and no others;
* `history_keeps` — what holds after any operations on new symbols.

Design notes: a history counts scopes in the order in which they are opened, and looks
at the operations alone to do so.  A scope that was left is not looked into again, so
its owners are told apart by the slots themselves: a new slot is above all that were
given out before.
-/
import TemplateCompiler.Proofs.Scope.Symbols

namespace TemplateCompiler.Symbols

/-! ### Histories -/

/-- An operation on symbols. -/
inductive Operation where
  | openBlock (params : List String)
  | closeBlock
  | declare (name : String)
  | argument (name : String)
  | namedBlock (name : String)
  | free (name : String)
  | useLocal (name : String)
deriving DecidableEq, Repr

/-- What a slot is given for. -/
inductive Owner where
  /-- A name that a scope declares. -/
  | scope (number : Nat) (name : String)
  /-- A name of the program as a whole. -/
  | program (name : String)
deriving DecidableEq, Repr

/-- The name that a slot holds for its owner. -/
def Owner.name : Owner → String
  | .scope _ name | .program name => name

/-- The owner of the slot of a named block; `inverse` is another word for `else`. -/
def Owner.ofBlock (name : String) : Owner :=
  .program ("&" ++ if name = "inverse" then "else" else name)

/-- A number that was given out, with what it was given for. -/
inductive Grant where
  | slot (owner : Owner) (slot : Nat)
  | upvar (name : String) (upvar : Nat)
deriving DecidableEq, Repr

/-- Symbols, and what they gave out since they were new. -/
structure History where
  symbols : Symbols
  /-- The number of blocks that were ever opened. -/
  opened : Nat := 0
  /-- The numbers of the open blocks, innermost first.  The first block to be opened
  is number 1; number 0 is the scope of the template itself. -/
  scopes : List Nat := []
  given : List Grant := []
deriving DecidableEq, Repr

namespace History

/-- The number of the innermost scope. -/
def scope (h : History) : Nat := h.scopes.headD 0

/-- Records an answer. -/
def give (h : History) (grant : Nat → Grant) (answer : Nat × Symbols) : History :=
  { h with symbols := answer.2, given := h.given ++ [grant answer.1] }

/-- The history with one more operation. -/
def after (h : History) : Operation → History
  | .openBlock params =>
    let answer := h.symbols.openBlock params
    { symbols := answer.2
      opened := h.opened + 1
      scopes := (h.opened + 1) :: h.scopes
      given := h.given
        ++ List.zipWith (fun name => .slot (.scope (h.opened + 1) name)) params answer.1 }
  | .closeBlock => { h with symbols := h.symbols.closeBlock, scopes := h.scopes.tail }
  | .declare name => h.give (.slot (.scope h.scope name)) (h.symbols.declare name)
  | .argument name => h.give (.slot (.program name)) (h.symbols.argument name)
  | .namedBlock name => h.give (.slot (.ofBlock name)) (h.symbols.namedBlock name)
  | .free name => h.give (.upvar name) (h.symbols.free name)
  | .useLocal name => h.give (.upvar name) (h.symbols.useLocal name)

/-- The history with more operations, one after the other. -/
def afterAll (h : History) (ops : List Operation) : History := ops.foldl after h

/-- The history of new symbols. -/
def start (templateLocals : List String) : History := { symbols := { templateLocals } }

/-! ### Opening a block, one parameter at a time -/

/-- The history in a new block that has declared nothing yet. -/
def enter (h : History) : History :=
  { h with
    symbols := { h.symbols with
      blocks := { id := h.symbols.frameCount } :: h.symbols.blocks
      frameCount := h.symbols.frameCount + 1 }
    opened := h.opened + 1
    scopes := (h.opened + 1) :: h.scopes }

/-- Names that are declared one after the other. -/
theorem afterAll_declare (h : History) (names : List String) :
    h.afterAll (names.map .declare) = { h with
      symbols := (h.symbols.declareAll names).2
      given := h.given ++ List.zipWith (fun name => .slot (.scope h.scope name)) names
        (h.symbols.declareAll names).1 } := by
  induction names generalizing h with
  | nil => simp [afterAll, declareAll]
  | cons name names ih =>
    have hfirst : h.afterAll ((name :: names).map .declare)
        = (h.after (.declare name)).afterAll (names.map .declare) := rfl
    rw [hfirst, ih]
    simp [after, give, scope, declareAll]

/-- To open a block is to enter it and to declare its parameters. -/
theorem after_openBlock (h : History) (params : List String) :
    h.after (.openBlock params) = h.enter.afterAll (params.map .declare) := by
  rw [afterAll_declare]
  rfl

/-! ### Growth -/

/-- Whatever gives out a number only adds names at the end. -/
theorem after_grows (h : History) (op : Operation) : h.symbols.Grows (h.after op).symbols := by
  have hprogram : ∀ name, h.symbols.Grows (h.symbols.programSlot name).2 := by
    intro name
    rw [programSlot]
    split
    · exact Grows.refl _
    · exact ⟨List.prefix_append _ _, List.prefix_rfl⟩
  cases op with
  | openBlock params =>
    have hopened : Opened h.symbols params (h.symbols.openBlock params).1
        (h.symbols.openBlock params).2 := openBlock_opened rfl
    exact hopened.toGrows
  | closeBlock => exact ⟨List.prefix_rfl, List.prefix_rfl⟩
  | declare name =>
    simp only [after, give, declare]
    split
    · exact Grows.refl _
    · rw [onCurrent]
      split <;> exact ⟨List.prefix_append _ _, List.prefix_rfl⟩
  | argument name => exact hprogram name
  | namedBlock name => exact hprogram _
  | free name => exact (free_advances h.symbols name).1.toGrows
  | useLocal name => exact (useLocal_advances h.symbols name).1.toGrows

theorem afterAll_grows (h : History) (ops : List Operation) :
    h.symbols.Grows (h.afterAll ops).symbols := by
  induction ops generalizing h with
  | nil => exact Grows.refl _
  | cons op ops ih => exact (h.after_grows op).trans (ih _)

/-! ### What is kept -/

/-- Slots hold the names of their owners, and owners share a slot only if they are
the same. -/
structure Numbered (s : Symbols) (given : List Grant) : Prop where
  holds : ∀ {owner slot}, .slot owner slot ∈ given → s.Holds slot owner.name
  distinct : ∀ {owner owner' slot slot'}, .slot owner slot ∈ given →
    .slot owner' slot' ∈ given → (slot = slot' ↔ owner = owner')

/-- A table knows the slots that were given out for the owners of its names. -/
def Tells (table : List (String × Nat)) (owner : String → Owner) (given : List Grant) : Prop :=
  ∀ name slot, table.lookup name = some slot ↔ .slot (owner name) slot ∈ given

/-- What holds of a history: the open scopes have their numbers, their tables and that
of the program know what was given out, and every number still means what it was given
for. -/
structure Kept (h : History) : Prop where
  count : h.symbols.frameCount = h.opened + 1
  numbers : h.symbols.frames.map Frame.id = h.scopes ++ [0]
  nodup : (h.scopes ++ [0]).Nodup
  le_opened : ∀ number ∈ h.scopes, number ≤ h.opened
  owner_le : ∀ {number name slot}, .slot (.scope number name) slot ∈ h.given → number ≤ h.opened
  declared : ∀ frame ∈ h.symbols.frames, Tells frame.locals (.scope frame.id) h.given
  program : Tells h.symbols.programSlots .program h.given
  numbered : Numbered h.symbols h.given
  upvars_nodup : h.symbols.upvars.Nodup
  upvar : ∀ {name upvar}, .upvar name upvar ∈ h.given → h.symbols.upvars[upvar]? = some name

theorem start_kept (templateLocals : List String) : (start templateLocals).Kept where
  count := rfl
  numbers := rfl
  nodup := by simp [start]
  le_opened _ hmem := nomatch hmem
  owner_le hmem := nomatch hmem
  declared frame hframe := by
    obtain rfl : frame = { id := 0 } := List.mem_singleton.mp hframe
    intro name slot
    simp [start]
  program name slot := by simp [start]
  numbered :=
    { holds := fun hmem => (nomatch hmem)
      distinct := fun hmem => (nomatch hmem) }
  upvars_nodup := List.nodup_nil
  upvar hmem := nomatch hmem

/-! ### Giving out a number -/

variable {h : History}

/-- A table that tells of one more name. -/
theorem lookup_append_new {table : List (String × Nat)} {name : String} (slot : Nat)
    (hnone : table.lookup name = none) (other : String) (slot' : Nat) :
    (table ++ [(name, slot)]).lookup other = some slot' ↔
      table.lookup other = some slot' ∨ (other = name ∧ slot' = slot) := by
  rw [List.lookup_append, List.lookup_cons]
  by_cases hother : other = name
  · subst hother
    simp [hnone, eq_comm]
  · simp [hother, beq_false_of_ne hother]

theorem Tells.add {table : List (String × Nat)} {owner : String → Owner} {given : List Grant}
    {name : String} {slot : Nat} (ht : Tells table owner given) (hnone : table.lookup name = none)
    (howner : ∀ other, owner other = owner name → other = name) :
    Tells (table ++ [(name, slot)]) owner (given ++ [.slot (owner name) slot]) := by
  intro other slot'
  rw [lookup_append_new slot hnone, ht other slot', List.mem_append, List.mem_singleton,
    Grant.slot.injEq]
  exact or_congr_right (and_congr_left fun _ => ⟨fun h => h ▸ rfl, howner other⟩)

/-- What is given out for others does not concern a table. -/
theorem Tells.other {table : List (String × Nat)} {owner : String → Owner} {given : List Grant}
    {grant : Grant} (ht : Tells table owner given)
    (hgrant : ∀ name slot, grant ≠ .slot (owner name) slot) :
    Tells table owner (given ++ [grant]) := by
  intro name slot
  rw [ht name slot, List.mem_append, List.mem_singleton]
  exact ⟨.inl, fun hmem => hmem.resolve_right (Ne.symm (hgrant name slot))⟩

/-- A new slot is above all others, so a new owner may have it. -/
theorem Numbered.add {s t : Symbols} {given : List Grant} {owner : Owner}
    (hn : Numbered s given) (howner : ∀ slot, .slot owner slot ∉ given)
    (ht : t.names = s.names ++ [owner.name]) :
    Numbered t (given ++ [.slot owner (s.names.length + 1)]) := by
  have hgrow : ∀ {owner slot}, .slot owner slot ∈ given → t.Holds slot owner.name := by
    intro other slot hmem
    obtain ⟨n, hslot, hname⟩ := hn.holds hmem
    exact ⟨n, hslot, getElem?_mono (ht ▸ List.prefix_append _ _) hname⟩
  -- All slots given before are lower, and none of them is of this owner.
  have hold : ∀ {other slot}, .slot other slot ∈ given →
      slot ≠ s.names.length + 1 ∧ other ≠ owner := by
    intro other slot hmem
    have hle := (hn.holds hmem).pos_le.2
    exact ⟨by omega, fun heq => howner slot (heq ▸ hmem)⟩
  constructor
  · intro other slot hmem
    rcases List.mem_append.mp hmem with hmem | hmem
    · exact hgrow hmem
    · cases List.mem_singleton.mp hmem
      exact ⟨s.names.length, rfl, by simp [ht]⟩
  · intro first second slot slot' hfirst hsecond
    rcases List.mem_append.mp hfirst with hfirst | hfirst <;>
      rcases List.mem_append.mp hsecond with hsecond | hsecond
    · exact hn.distinct hfirst hsecond
    · cases List.mem_singleton.mp hsecond
      exact iff_of_false (hold hfirst).1 (hold hfirst).2
    · cases List.mem_singleton.mp hfirst
      exact iff_of_false (hold hsecond).1.symm (hold hsecond).2.symm
    · cases List.mem_singleton.mp hfirst
      cases List.mem_singleton.mp hsecond
      exact iff_of_true rfl rfl

/-- Nothing changes when a number is given out again. -/
theorem Kept.again (hk : h.Kept) {grant : Grant} (hgrant : grant ∈ h.given) :
    Kept { h with given := h.given ++ [grant] } := by
  have hmem : ∀ other, other ∈ h.given ++ [grant] ↔ other ∈ h.given := by
    intro other
    rw [List.mem_append, List.mem_singleton, or_iff_left_iff_imp]
    rintro rfl
    exact hgrant
  exact {
    count := hk.count
    numbers := hk.numbers
    nodup := hk.nodup
    le_opened := hk.le_opened
    owner_le := fun hslot => hk.owner_le ((hmem _).mp hslot)
    declared := fun frame hframe name slot =>
      (hk.declared frame hframe name slot).trans (hmem _).symm
    program := fun name slot => (hk.program name slot).trans (hmem _).symm
    numbered :=
      { holds := fun hslot => hk.numbered.holds ((hmem _).mp hslot)
        distinct := fun hslot hslot' =>
          hk.numbered.distinct ((hmem _).mp hslot) ((hmem _).mp hslot') }
    upvars_nodup := hk.upvars_nodup
    upvar := fun hupvar => hk.upvar ((hmem _).mp hupvar) }

/-- A new slot keeps all, when the tables tell of it and of what they told before. -/
theorem Kept.new {owner : Owner} {t : Symbols} (hk : h.Kept)
    (howner : ∀ slot, .slot owner slot ∉ h.given)
    (hle : ∀ {number name}, owner = .scope number name → number ≤ h.opened)
    (hnames : t.names = h.symbols.names ++ [owner.name])
    (hcount : t.frameCount = h.symbols.frameCount) (hupvars : t.upvars = h.symbols.upvars)
    (hnumbers : t.frames.map Frame.id = h.symbols.frames.map Frame.id)
    (hdeclared : ∀ frame ∈ t.frames, Tells frame.locals (.scope frame.id)
      (h.given ++ [.slot owner (h.symbols.names.length + 1)]))
    (hprogram : Tells t.programSlots .program
      (h.given ++ [.slot owner (h.symbols.names.length + 1)])) :
    Kept { h with
      symbols := t, given := h.given ++ [.slot owner (h.symbols.names.length + 1)] } where
  count := hcount.trans hk.count
  numbers := hnumbers.trans hk.numbers
  nodup := hk.nodup
  le_opened := hk.le_opened
  owner_le hmem := by
    rcases List.mem_append.mp hmem with hmem | hmem
    · exact hk.owner_le hmem
    · cases List.mem_singleton.mp hmem
      exact hle rfl
  declared := hdeclared
  program := hprogram
  -- The only new grant is the slot, so all that is about upvars is as before.
  numbered := hk.numbered.add howner hnames
  upvars_nodup := hupvars ▸ hk.upvars_nodup
  upvar hmem := by
    rcases List.mem_append.mp hmem with hmem | hmem
    · exact hupvars ▸ hk.upvar hmem
    · cases List.mem_singleton.mp hmem

/-! ### One operation -/

/-- The innermost scope, and those around it. -/
theorem frames_eq (s : Symbols) : s.frames = s.current :: s.frames.tail := by
  cases hblocks : s.blocks <;> simp [frames, current, hblocks]

theorem frames_onCurrent (s : Symbols) (f : Frame → Frame) :
    (s.onCurrent f).frames = f s.current :: s.frames.tail := by
  cases hblocks : s.blocks <;> simp [frames, current, onCurrent, hblocks]

/-- A name that its scope has not declared takes the next slot. -/
theorem declare_new {s : Symbols} {name : String}
    (hnone : s.current.locals.lookup name = none) :
    ∃ t, s.declare name = (s.names.length + 1, t) ∧ t.names = s.names ++ [name] ∧
      t.frames = { s.current with
        locals := s.current.locals ++ [(name, s.names.length + 1)] } :: s.frames.tail ∧
      t.frameCount = s.frameCount ∧ t.programSlots = s.programSlots ∧ t.upvars = s.upvars := by
  have hframes := frames_onCurrent (s.pushName name).2 fun frame =>
    { frame with locals := frame.locals ++ [(name, s.names.length + 1)] }
  refine ⟨_, by rw [declare, hnone]; rfl, ?_, hframes, ?_, ?_, ?_⟩
  all_goals
    rw [onCurrent]
    split <;> rfl

theorem Kept.current_id (hk : h.Kept) : h.symbols.current.id = h.scope := by
  have hnumbers := hk.numbers
  rw [frames_eq, List.map_cons] at hnumbers
  rw [scope]
  cases hscopes : h.scopes with
  | nil =>
    rw [hscopes] at hnumbers
    exact (List.cons.inj hnumbers).1
  | cons n rest =>
    rw [hscopes] at hnumbers
    exact (List.cons.inj hnumbers).1

theorem Kept.scope_le (hk : h.Kept) : h.scope ≤ h.opened := by
  rw [scope]
  cases hscopes : h.scopes with
  | nil => exact Nat.zero_le _
  | cons n rest => exact hk.le_opened n (by simp [hscopes])

/-- A name keeps the slot that its scope gave it, or gets a new one. -/
theorem Kept.declare (hk : h.Kept) (name : String) : (h.after (.declare name)).Kept := by
  have hframes := frames_eq h.symbols
  have htells := hk.declared h.symbols.current (hframes ▸ List.mem_cons_self)
  rw [after, give, ← hk.current_id]
  cases hfound : h.symbols.current.locals.lookup name with
  | some slot =>
    rw [Symbols.declare, hfound]
    exact hk.again ((htells name slot).mp hfound)
  | none =>
    obtain ⟨t, hdeclare, hnames, htframes, hcount, hprogram, hupvars⟩ := declare_new hfound
    have howner : ∀ slot, .slot (.scope h.symbols.current.id name) slot ∉ h.given := by
      intro slot hmem
      rw [(htells name slot).mpr hmem] at hfound
      cases hfound
    -- The scopes around the innermost one have other numbers.
    have houter : ∀ frame ∈ h.symbols.frames.tail, frame.id ≠ h.symbols.current.id := by
      intro frame hframe heq
      have hnodup := hk.numbers ▸ hk.nodup
      rw [hframes, List.map_cons] at hnodup
      exact (List.nodup_cons.mp hnodup).1 (heq ▸ List.mem_map_of_mem hframe)
    rw [hdeclare]
    refine hk.new howner (fun howner => ?_) hnames hcount hupvars ?_ ?_ ?_
    · cases howner
      exact hk.current_id ▸ hk.scope_le
    · rw [htframes, hframes, List.map_cons, List.map_cons, List.tail_cons]
    · intro frame hframe
      rw [htframes] at hframe
      rcases List.mem_cons.mp hframe with rfl | hframe
      · exact htells.add hfound fun other hother => (Owner.scope.inj hother).2
      · refine (hk.declared frame (List.mem_of_mem_tail hframe)).other fun other slot heq => ?_
        exact houter frame hframe (Owner.scope.inj (Grant.slot.inj heq).1).1.symm
    · rw [hprogram]
      exact hk.program.other fun other slot heq => by cases heq

/-- A name of the program keeps its slot, or gets a new one. -/
theorem Kept.programSlot (hk : h.Kept) (name : String) :
    (h.give (.slot (.program name)) (h.symbols.programSlot name)).Kept := by
  rw [give, Symbols.programSlot]
  cases hfound : h.symbols.programSlots.lookup name with
  | some slot => exact hk.again ((hk.program name slot).mp hfound)
  | none =>
    have howner : ∀ slot, .slot (.program name) slot ∉ h.given := by
      intro slot hmem
      rw [(hk.program name slot).mpr hmem] at hfound
      cases hfound
    refine hk.new howner (fun howner => by cases howner) rfl rfl rfl rfl ?_ ?_
    · intro frame hframe
      exact (hk.declared frame hframe).other fun other slot heq => by cases heq
    · exact hk.program.add hfound fun other hother => Owner.program.inj hother

/-- A free name changes the free names alone. -/
theorem free_eq (s : Symbols) (name : String) :
    (s.free name).2 = { s with upvars := (s.free name).2.upvars } := by
  rw [Symbols.free]
  split <;> rfl

theorem free_nodup {s : Symbols} (hs : s.upvars.Nodup) (name : String) :
    (s.free name).2.upvars.Nodup := by
  rw [Symbols.free]
  split
  · exact hs
  · next hnone =>
    rw [List.idxOf?_eq_none_iff] at hnone
    refine List.nodup_append.mpr ⟨hs, by simp, fun a ha b hb hab => hnone ?_⟩
    rwa [← List.mem_singleton.mp hb, ← hab]

/-- A free name keeps its upvar, or gets the next one. -/
theorem Kept.free (hk : h.Kept) (name : String) (usedLocals : List String) :
    (h.give (.upvar name) (Symbols.free { h.symbols with usedLocals } name)).Kept := by
  have hother : ∀ {table : List (String × Nat)} {owner : String → Owner} (upvar : Nat),
      Tells table owner h.given → Tells table owner (h.given ++ [Grant.upvar name upvar]) :=
    fun upvar htells => htells.other fun _ _ heq => by cases heq
  -- No slot is given, so the grants of slots are the old ones.
  have hslot : ∀ {owner slot} (upvar : Nat), .slot owner slot ∈ h.given ++ [.upvar name upvar] →
      .slot owner slot ∈ h.given := by
    intro owner slot upvar hmem
    rcases List.mem_append.mp hmem with hmem | hmem
    · exact hmem
    · cases List.mem_singleton.mp hmem
  obtain ⟨hgrows, hname⟩ := free_advances { h.symbols with usedLocals } name
  have heq := free_eq { h.symbols with usedLocals } name
  have hnodup := free_nodup (s := { h.symbols with usedLocals }) hk.upvars_nodup name
  have hupvars := hgrows.upvars
  rw [give]
  -- Only what a lookup of a free name is known to do is used from here on.
  generalize Symbols.free { h.symbols with usedLocals } name = answer at *
  obtain ⟨upvar, t⟩ := answer
  simp only at heq hname hnodup hupvars ⊢
  generalize t.upvars = upvars at *
  subst heq
  exact {
    count := hk.count
    numbers := hk.numbers
    nodup := hk.nodup
    le_opened := hk.le_opened
    owner_le := fun hmem => hk.owner_le (hslot upvar hmem)
    declared := fun frame hframe => hother upvar (hk.declared frame hframe)
    program := hother upvar hk.program
    numbered :=
      { holds := fun hmem => hk.numbered.holds (hslot upvar hmem)
        distinct := fun hmem hmem' =>
          hk.numbered.distinct (hslot upvar hmem) (hslot upvar hmem') }
    upvars_nodup := hnodup
    upvar := fun hmem => by
      rcases List.mem_append.mp hmem with hmem | hmem
      · exact getElem?_mono hupvars (hk.upvar hmem)
      · cases List.mem_singleton.mp hmem
        exact hname }

theorem Kept.blocks_numbers (hk : h.Kept) :
    h.symbols.blocks.map Frame.id = h.scopes ∧ h.symbols.root.id = 0 := by
  have hnumbers := hk.numbers
  rw [frames, List.map_append] at hnumbers
  obtain ⟨hblocks, hroot⟩ := List.append_inj' hnumbers rfl
  exact ⟨hblocks, (List.cons.inj hroot).1⟩

/-- A block that was left is not looked into any more. -/
theorem Kept.closeBlock (hk : h.Kept) : (h.after .closeBlock).Kept := by
  obtain ⟨hblocks, hroot⟩ := hk.blocks_numbers
  have hframes : ∀ frame ∈ h.symbols.closeBlock.frames, frame ∈ h.symbols.frames := by
    intro frame hframe
    rcases List.mem_append.mp hframe with hframe | hframe
    · exact List.mem_append_left _ (List.mem_of_mem_tail hframe)
    · exact List.mem_append_right _ hframe
  exact {
    count := hk.count
    numbers := by
      show (h.symbols.blocks.tail ++ [h.symbols.root]).map Frame.id = h.scopes.tail ++ [0]
      rw [List.map_append, List.map_tail, hblocks, List.map_singleton, hroot]
    nodup := hk.nodup.sublist ((List.tail_sublist _).append_right _)
    le_opened := fun number hmem => hk.le_opened number (List.mem_of_mem_tail hmem)
    owner_le := hk.owner_le
    declared := fun frame hframe => hk.declared frame (hframes frame hframe)
    program := hk.program
    numbered := { holds := hk.numbered.holds, distinct := hk.numbered.distinct }
    upvars_nodup := hk.upvars_nodup
    upvar := hk.upvar }

/-- A block that is entered has declared nothing yet. -/
theorem Kept.enter (hk : h.Kept) : h.enter.Kept := by
  -- The scope gets a number that no owner has yet.
  have hnew : ∀ {name slot}, .slot (.scope (h.opened + 1) name) slot ∉ h.given := by
    intro name slot hmem
    have := hk.owner_le hmem
    omega
  exact {
    count := by simp [History.enter, hk.count]
    numbers := by
      simp only [History.enter, hk.count]
      exact congrArg ((h.opened + 1) :: ·) hk.numbers
    nodup := by
      refine List.nodup_cons.mpr ⟨fun hmem => ?_, hk.nodup⟩
      rcases List.mem_append.mp hmem with hmem | hmem
      · have := hk.le_opened _ hmem
        omega
      · cases List.mem_singleton.mp hmem
    le_opened := by
      intro number hmem
      rcases List.mem_cons.mp hmem with rfl | hmem
      · exact Nat.le_refl _
      · exact Nat.le_succ_of_le (hk.le_opened number hmem)
    owner_le := fun hmem => Nat.le_succ_of_le (hk.owner_le hmem)
    declared := by
      intro frame hframe
      rcases List.mem_cons.mp hframe with rfl | hframe
      · intro name slot
        rw [hk.count]
        exact iff_of_false (by simp) hnew
      · exact hk.declared frame hframe
    program := hk.program
    numbered := { holds := hk.numbered.holds, distinct := hk.numbered.distinct }
    upvars_nodup := hk.upvars_nodup
    upvar := hk.upvar }

theorem Kept.declares (hk : h.Kept) (names : List String) :
    (h.afterAll (names.map .declare)).Kept := by
  induction names generalizing h with
  | nil => exact hk
  | cons name names ih => exact ih (hk.declare name)

/-- An operation keeps all. -/
theorem after_kept (hk : h.Kept) (op : Operation) : (h.after op).Kept := by
  cases op with
  | openBlock params =>
    rw [after_openBlock]
    exact hk.enter.declares params
  | closeBlock => exact hk.closeBlock
  | declare name => exact hk.declare name
  | argument name => exact hk.programSlot name
  | namedBlock name =>
    have howner : Owner.ofBlock name = .program ("&" ++ blockName name) := by
      simp [Owner.ofBlock, blockName]
    rw [after, howner]
    exact hk.programSlot _
  | free name => exact hk.free name h.symbols.usedLocals
  | useLocal name => exact hk.free name _

theorem afterAll_kept (hk : h.Kept) (ops : List Operation) : (h.afterAll ops).Kept := by
  induction ops generalizing h with
  | nil => exact hk
  | cons op ops ih => exact ih (after_kept hk op)

end History

/-! ### Blocks that are closed again -/

/-- Operations that close the blocks that they open, and no others. -/
inductive Balanced : List Operation → Prop
  | nil : Balanced []
  | give {op : Operation} {ops : List Operation} (hopen : ∀ params, op ≠ .openBlock params)
    (hclose : op ≠ .closeBlock) (hops : Balanced ops) : Balanced (op :: ops)
  | block (params : List String) {inner ops : List Operation} (hinner : Balanced inner)
    (hops : Balanced ops) : Balanced (.openBlock params :: (inner ++ .closeBlock :: ops))

/-- Inside a block, what happens stays in the block: the scopes around it are as they were. -/
def SameAround (s t : Symbols) : Prop :=
  s.blocks ≠ [] → t.blocks ≠ [] ∧ t.blocks.tail = s.blocks.tail ∧ t.root = s.root

theorem SameAround.trans {s t u : Symbols} (h : SameAround s t) (h' : SameAround t u) :
    SameAround s u := by
  intro hs
  obtain ⟨ht, htail, hroot⟩ := h hs
  obtain ⟨hu, htail', hroot'⟩ := h' ht
  exact ⟨hu, htail'.trans htail, hroot'.trans hroot⟩

theorem declare_sameAround (s : Symbols) (name : String) : SameAround s (s.declare name).2 := by
  intro hs
  obtain ⟨frame, rest, hblocks⟩ := List.exists_cons_of_ne_nil hs
  rw [hblocks]
  rcases declare_cases hblocks (Prod.eta (s.declare name)).symm with ⟨-, heq⟩ | ⟨-, -, heq⟩
  · rw [heq, hblocks]
    exact ⟨List.cons_ne_nil _ _, rfl, rfl⟩
  · rw [heq]
    exact ⟨List.cons_ne_nil _ _, rfl, rfl⟩

/-- An operation that opens and closes no block stays in the innermost one. -/
theorem after_sameAround (h : History) {op : Operation} (hopen : ∀ params, op ≠ .openBlock params)
    (hclose : op ≠ .closeBlock) : SameAround h.symbols (h.after op).symbols := by
  have hprogram : ∀ name, SameAround h.symbols (h.symbols.programSlot name).2 := by
    intro name hs
    rw [programSlot]
    split <;> exact ⟨hs, rfl, rfl⟩
  cases op with
  | openBlock params => exact absurd rfl (hopen params)
  | closeBlock => exact absurd rfl hclose
  | declare name => exact declare_sameAround h.symbols name
  | argument name => exact hprogram name
  | namedBlock name => exact hprogram _
  | free name =>
    intro hs
    rw [History.after, History.give, History.free_eq]
    exact ⟨hs, rfl, rfl⟩
  | useLocal name =>
    intro hs
    rw [History.after, History.give, useLocal, History.free_eq]
    exact ⟨hs, rfl, rfl⟩

theorem afterAll_declare_sameAround (h : History) (names : List String) :
    SameAround h.symbols (h.afterAll (names.map .declare)).symbols := by
  induction names generalizing h with
  | nil => exact fun hs => ⟨hs, rfl, rfl⟩
  | cons name names ih =>
    exact (declare_sameAround h.symbols name).trans (ih (h.after (.declare name)))

/-- A block that is closed again leaves the scopes around it as they were. -/
theorem afterAll_block (h : History) (params : List String) {inner : List Operation}
    (hinner : ∀ h : History, SameAround h.symbols (h.afterAll inner).symbols) :
    (h.afterAll (.openBlock params :: (inner ++ [.closeBlock]))).symbols.blocks = h.symbols.blocks ∧
      (h.afterAll (.openBlock params :: (inner ++ [.closeBlock]))).symbols.root
        = h.symbols.root := by
  have hrun : h.afterAll (.openBlock params :: (inner ++ [.closeBlock]))
      = ((h.enter.afterAll (params.map .declare)).afterAll inner).after .closeBlock := by
    rw [← History.after_openBlock]
    simp [History.afterAll]
  obtain ⟨-, htail, hroot⟩ :=
    (afterAll_declare_sameAround h.enter params).trans (hinner _) (List.cons_ne_nil _ _)
  rw [hrun]
  exact ⟨htail, hroot⟩

/-- Balanced operations stay in the innermost block. -/
theorem Balanced.sameAround {ops : List Operation} (hops : Balanced ops) (h : History) :
    SameAround h.symbols (h.afterAll ops).symbols := by
  induction hops generalizing h with
  | nil => exact fun hs => ⟨hs, rfl, rfl⟩
  | give hopen hclose hops ih => exact (after_sameAround h hopen hclose).trans (ih _)
  | @block params inner ops hinner hops ihinner ih =>
    have hrun : h.afterAll (.openBlock params :: (inner ++ .closeBlock :: ops))
        = (h.afterAll (.openBlock params :: (inner ++ [.closeBlock]))).afterAll ops := by
      simp [History.afterAll]
    obtain ⟨hblocks, hroot⟩ := afterAll_block h params ihinner
    rw [hrun]
    refine SameAround.trans (fun hs => ?_) (ih _)
    rw [hblocks, hroot]
    exact ⟨hs, rfl, rfl⟩

/-! ### All operations -/

/-- After any operations on new symbols: names and free names were only added at the
end, slots hold the names that they were given for and upvars are the places of theirs,
two slots are one when their owners are, and what a block declares is forgotten when it
is closed.  A block gets a slot for each parameter, and what a lookup finds was given out
by a scope that is open. -/
theorem history_keeps (templateLocals : List String) (ops later : List Operation) :
    let h := (History.start templateLocals).afterAll ops
    let h' := h.afterAll later
    h.symbols.names <+: h'.symbols.names ∧ h.symbols.upvars <+: h'.symbols.upvars ∧
      (∀ owner slot, .slot owner slot ∈ h'.given → h'.symbols.Holds slot owner.name) ∧
      (∀ owner owner' slot slot', .slot owner slot ∈ h'.given → .slot owner' slot' ∈ h'.given →
        (slot = slot' ↔ owner = owner')) ∧
      h'.symbols.upvars.Nodup ∧
      (∀ name upvar, .upvar name upvar ∈ h'.given → h'.symbols.upvars[upvar]? = some name) ∧
      (∀ params, (h'.symbols.openBlock params).1.length = params.length) ∧
      (∀ name slot, h'.symbols.lookup? name = some slot →
        ∃ number ∈ h'.scopes ++ [0], .slot (.scope number name) slot ∈ h'.given) ∧
      ∀ params inner, Balanced inner → ∀ name,
        (h'.afterAll (.openBlock params :: (inner ++ [.closeBlock]))).symbols.lookup? name
          = h'.symbols.lookup? name := by
  intro h h'
  have hgrows : h.symbols.Grows h'.symbols := h.afterAll_grows later
  have hk : h'.Kept :=
    History.afterAll_kept (History.afterAll_kept (History.start_kept templateLocals) ops) later
  refine ⟨hgrows.names, hgrows.upvars, fun _ _ => hk.numbered.holds,
    fun _ _ _ _ => hk.numbered.distinct, hk.upvars_nodup, fun _ _ => hk.upvar,
    fun _ => (openBlock_opened rfl).length, ?_, ?_⟩
  -- What a lookup finds, a frame tells, and the frames are those of the open scopes.
  · intro name slot hfound
    obtain ⟨frame, hframe, hslot⟩ := List.exists_of_findSome?_eq_some hfound
    refine ⟨frame.id, ?_, (hk.declared frame hframe name slot).mp hslot⟩
    rw [← hk.numbers]
    exact List.mem_map_of_mem hframe
  · intro params inner hinner name
    obtain ⟨hblocks, hroot⟩ := afterAll_block h' params hinner.sameAround
    rw [lookup?, frames, hblocks, hroot]
    rfl

/-- A name is shadowed and seen again, and a block is asked for by both of its words. -/
theorem history_keeps_shadowing :
    let h := (History.start []).afterAll [.openBlock ["n"], .namedBlock "inverse"]
    let h' := h.afterAll [.openBlock ["n", "m"], .namedBlock "else", .free "x"]
    (.slot (.scope 2 "n") 3 ∈ h'.given ∧ h'.symbols.Holds 3 "n") ∧
      (.slot (.scope 1 "n") 1 ∈ h'.given ∧ ¬(1 = 3)) ∧
      (.upvar "x" 0 ∈ h'.given ∧ h'.symbols.upvars[0]? = some "x") ∧
      (h'.symbols.lookup? "n" = some 3 ∧
        ∃ number ∈ h'.scopes ++ [0], .slot (.scope number "n") 3 ∈ h'.given) ∧
      Balanced [.declare "k"] ∧
      (h'.afterAll [.openBlock ["n"], .declare "k", .closeBlock]).symbols.lookup? "k"
        = h'.symbols.lookup? "k" := by
  intro h h'
  obtain ⟨-, -, hholds, hdistinct, -, hupvar, -, hlookup, hclosed⟩ := history_keeps []
    [.openBlock ["n"], .namedBlock "inverse"]
    [.openBlock ["n", "m"], .namedBlock "else", .free "x"]
  have hinner : .slot (.scope 2 "n") 3 ∈ h'.given := by decide
  have houter : .slot (.scope 1 "n") 1 ∈ h'.given := by decide
  have hfree : .upvar "x" 0 ∈ h'.given := by decide
  have hfound : h'.symbols.lookup? "n" = some 3 := by decide
  have hbalanced : Balanced [.declare "k"] := .give (by simp) (by simp) .nil
  refine ⟨⟨hinner, hholds _ _ hinner⟩, ⟨houter, ?_⟩, ⟨hfree, hupvar _ _ hfree⟩,
    ⟨hfound, hlookup _ _ hfound⟩, hbalanced, hclosed _ _ hbalanced _⟩
  exact mt (hdistinct _ _ _ _ houter hinner).mp (by decide)

end TemplateCompiler.Symbols
