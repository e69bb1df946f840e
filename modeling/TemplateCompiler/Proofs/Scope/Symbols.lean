/-
What the operations on symbols keep.

Slots and upvars are only ever added, so a number means the same at the end of a
walk as at the moment it was given:

* `Symbols.Holds` — a slot holds a name;
* `Symbols.Grows` — names and free names are only added at the end;
* `Symbols.Advances` — growth that leaves the open scopes as they are;
* `Symbols.FollowsMode` — what a strict and a loose template do with the names
  that surrounding code provides;
* `Symbols.Opened` — what `openBlock` does to the scopes and the slots;
* `Symbols.Advances.of_opened` — opening a block, advancing in it and closing it
  is an advance.
-/
import TemplateCompiler.Scope.Symbols

namespace TemplateCompiler.Symbols

/-! ### Growth -/

/-- A slot holds a name.  Slot 0 is `this` and holds none. -/
def Holds (s : Symbols) (slot : Nat) (name : String) : Prop :=
  ∃ n, slot = n + 1 ∧ s.names[n]? = some name

/-- Names and free names are only added at the end. -/
structure Grows (s t : Symbols) : Prop where
  names : s.names <+: t.names
  upvars : s.upvars <+: t.upvars

theorem Grows.refl (s : Symbols) : s.Grows s :=
  ⟨List.prefix_rfl, List.prefix_rfl⟩

theorem Grows.trans {s t u : Symbols} (h : s.Grows t) (h' : t.Grows u) : s.Grows u :=
  ⟨h.names.trans h'.names, h.upvars.trans h'.upvars⟩

theorem Grows.length_le {s t : Symbols} (h : s.Grows t) : s.names.length ≤ t.names.length :=
  h.names.length_le

/-- What stands at a place stays there when a list is continued. -/
theorem getElem?_mono {α : Type} {l l' : List α} (h : l <+: l') {n : Nat} {a : α}
    (hn : l[n]? = some a) : l'[n]? = some a := by
  obtain ⟨hlt, rfl⟩ := List.getElem?_eq_some_iff.mp hn
  exact List.prefix_iff_getElem?.mp h n hlt

theorem Holds.grow {s t : Symbols} {slot : Nat} {name : String} (h : s.Holds slot name)
    (hg : s.Grows t) : t.Holds slot name := by
  obtain ⟨n, rfl, hn⟩ := h
  exact ⟨n, rfl, getElem?_mono hg.names hn⟩

theorem upvar_grow {s t : Symbols} (hg : s.Grows t) {upvar : Nat} {name : String}
    (h : s.upvars[upvar]? = some name) : t.upvars[upvar]? = some name :=
  getElem?_mono hg.upvars h

theorem Holds.pos_le {s : Symbols} {slot : Nat} {name : String} (h : s.Holds slot name) :
    1 ≤ slot ∧ slot ≤ s.names.length := by
  obtain ⟨n, rfl, hn⟩ := h
  have hlt : n < s.names.length := (List.getElem?_eq_some_iff.mp hn).choose
  omega

/-! ### Advances -/

/-- The slots of arguments and named blocks hold their names. -/
def Sound (s : Symbols) : Prop := ∀ entry ∈ s.programSlots, s.Holds entry.2 entry.1

/-- Growth that leaves the open scopes as they are. -/
structure Advances (s t : Symbols) : Prop extends s.Grows t where
  blocks : t.blocks = s.blocks
  root : t.root = s.root
  templateLocals : t.templateLocals = s.templateLocals
  sound : s.Sound → t.Sound

theorem Advances.refl (s : Symbols) : s.Advances s :=
  ⟨Grows.refl s, rfl, rfl, rfl, id⟩

theorem Advances.trans {s t u : Symbols} (h : s.Advances t) (h' : t.Advances u) :
    s.Advances u where
  toGrows := h.toGrows.trans h'.toGrows
  blocks := h'.blocks.trans h.blocks
  root := h'.root.trans h.root
  templateLocals := h'.templateLocals.trans h.templateLocals
  sound := h'.sound ∘ h.sound

/-- An advance does not change what names are bound to. -/
theorem Advances.lookup? {s t : Symbols} (h : s.Advances t) (name : String) :
    t.lookup? name = s.lookup? name := by
  unfold Symbols.lookup? frames
  rw [h.blocks, h.root]

theorem pushName_holds (s : Symbols) (name : String) :
    (s.pushName name).2.Holds (s.pushName name).1 name :=
  ⟨s.names.length, rfl, by simp [pushName]⟩

theorem pushName_grows (s : Symbols) (name : String) : s.Grows (s.pushName name).2 :=
  ⟨List.prefix_append _ _, List.prefix_rfl⟩

/-- A program slot holds the name that it was asked for. -/
theorem programSlot_advances {s : Symbols} (hs : s.Sound) (name : String) :
    s.Advances (s.programSlot name).2 ∧
      (s.programSlot name).2.Holds (s.programSlot name).1 name := by
  rw [programSlot]
  split
  · rename_i slot hfound
    obtain ⟨l₁, l₂, heq, -⟩ := List.lookup_eq_some_iff.mp hfound
    exact ⟨Advances.refl s, hs (name, slot) (by rw [heq]; simp)⟩
  · have hgrows := pushName_grows s name
    have hholds := pushName_holds s name
    refine ⟨⟨⟨hgrows.names, hgrows.upvars⟩, rfl, rfl, rfl, fun _ entry hmem => ?_⟩, hholds⟩
    rcases List.mem_append.mp hmem with hold | hnew
    · exact (hs entry hold).grow ⟨hgrows.names, hgrows.upvars⟩
    · rw [List.mem_singleton.mp hnew]
      exact hholds

/-- The upvar of a free name is its place among the free names. -/
theorem free_advances (s : Symbols) (name : String) :
    s.Advances (s.free name).2 ∧ (s.free name).2.upvars[(s.free name).1]? = some name := by
  rw [free]
  split
  · rename_i upvar hfound
    obtain ⟨hlt, hname, -⟩ := List.idxOf?_eq_some_iff.mp hfound
    exact ⟨Advances.refl s, List.getElem?_eq_some_iff.mpr ⟨hlt, hname⟩⟩
  · refine ⟨⟨⟨List.prefix_rfl, List.prefix_append _ _⟩, rfl, rfl, rfl, id⟩, ?_⟩
    simp

theorem useLocal_advances (s : Symbols) (name : String) :
    s.Advances (s.useLocal name).2 ∧
      (s.useLocal name).2.upvars[(s.useLocal name).1]? = some name := by
  rw [useLocal]
  generalize (if s.usedLocals.contains name then s.usedLocals else s.usedLocals ++ [name]) = used
  obtain ⟨hadv, hname⟩ := free_advances { s with usedLocals := used } name
  exact ⟨⟨⟨hadv.names, hadv.upvars⟩, hadv.blocks, hadv.root, hadv.templateLocals, hadv.sound⟩,
    hname⟩

theorem markEval_advances (s : Symbols) : s.Advances s.markEval :=
  ⟨⟨List.prefix_rfl, List.prefix_rfl⟩, rfl, rfl, rfl, id⟩

/-! ### Modes -/

/-- The free names of a strict template are those it uses of the names that
surrounding code provides, each once; a loose template uses none of these. -/
structure FollowsMode (strict : Bool) (s : Symbols) : Prop where
  provided : strict = true →
    s.upvars = s.usedLocals ∧ s.upvars.Nodup ∧ ∀ name ∈ s.upvars, name ∈ s.templateLocals
  unused : strict = false → s.usedLocals = []

theorem FollowsMode.of_eq {strict : Bool} {s t : Symbols} (hupvars : t.upvars = s.upvars)
    (hused : t.usedLocals = s.usedLocals) (hlocals : t.templateLocals = s.templateLocals)
    (h : s.FollowsMode strict) : t.FollowsMode strict := by
  refine ⟨fun hstrict => ?_, fun hloose => hused.trans (h.unused hloose)⟩
  rw [hupvars, hused, hlocals]
  exact h.provided hstrict

theorem programSlot_followsMode {strict : Bool} {s : Symbols} (name : String)
    (h : s.FollowsMode strict) : (s.programSlot name).2.FollowsMode strict := by
  rw [programSlot]
  split
  · exact h
  · exact FollowsMode.of_eq (s := s) rfl rfl rfl h

theorem markEval_followsMode {strict : Bool} {s : Symbols} (h : s.FollowsMode strict) :
    s.markEval.FollowsMode strict :=
  FollowsMode.of_eq (s := s) rfl rfl rfl h

theorem closeBlock_followsMode {strict : Bool} {s : Symbols} (h : s.FollowsMode strict) :
    s.closeBlock.FollowsMode strict :=
  FollowsMode.of_eq (s := s) rfl rfl rfl h

theorem free_followsMode {s : Symbols} (name : String) (h : s.FollowsMode false) :
    (s.free name).2.FollowsMode false := by
  rw [free]
  split
  · exact h
  · exact ⟨fun hstrict => absurd hstrict (by decide), h.unused⟩

/-- Free names and used names grow together: both get a name at its first use. -/
theorem useLocal_followsMode {s : Symbols} {name : String} (hlocal : name ∈ s.templateLocals)
    (h : s.FollowsMode true) : (s.useLocal name).2.FollowsMode true := by
  obtain ⟨hsame, hnodup, hprovided⟩ := h.provided rfl
  refine ⟨fun _ => ?_, fun hloose => absurd hloose (by decide)⟩
  rw [useLocal, free]
  by_cases hmem : name ∈ s.upvars
  · have hused : s.usedLocals.contains name = true := by simpa [← hsame] using hmem
    have hfound : s.upvars.idxOf? name ≠ none := by simpa using hmem
    obtain ⟨upvar, hupvar⟩ := Option.ne_none_iff_exists'.mp hfound
    simp only [hused, hupvar, if_true]
    exact ⟨hsame, hnodup, hprovided⟩
  · have hused : s.usedLocals.contains name = false := by simpa [← hsame] using hmem
    have hfound : s.upvars.idxOf? name = none := by simpa using hmem
    simp only [hused, hfound, Bool.false_eq_true, if_false]
    refine ⟨by rw [hsame], ?_, ?_⟩
    · exact List.nodup_append.mpr ⟨hnodup, by simp, fun a ha b hb hab => hmem
        (List.mem_singleton.mp hb ▸ hab ▸ ha)⟩
    · intro other hother
      rcases List.mem_append.mp hother with hother | hother
      · exact hprovided other hother
      · exact List.mem_singleton.mp hother ▸ hlocal

/-! ### Blocks -/

/-- What declaring names in the innermost block does: it only adds slots, they
hold the names they were given for, and the block finds a name where it found it
before or else where it was declared first. -/
structure Declared (s : Symbols) (frame : Frame) (rest : List Frame) (params : List String)
    (slots : List Nat) (t : Symbols) : Prop where
  names : s.names <+: t.names
  upvars : t.upvars = s.upvars
  usedLocals : t.usedLocals = s.usedLocals
  root : t.root = s.root
  templateLocals : t.templateLocals = s.templateLocals
  programSlots : t.programSlots = s.programSlots
  length : slots.length = params.length
  holds : ∀ entry ∈ params.zip slots, t.Holds entry.2 entry.1
  blocks : ∃ inner : Frame, t.blocks = inner :: rest ∧
    ∀ name, inner.locals.lookup name
      = (frame.locals.lookup name).or ((params.zip slots).lookup name)
  fresh : ∀ slot ∈ slots, (∃ entry ∈ frame.locals, entry.2 = slot) ∨ s.names.length < slot

/-- One name: it keeps the slot that the block gave it, or gets the next one. -/
theorem declare_cases {s t : Symbols} {frame : Frame} {rest : List Frame} {name : String}
    {slot : Nat} (hb : s.blocks = frame :: rest) (h : s.declare name = (slot, t)) :
    (frame.locals.lookup name = some slot ∧ t = s) ∨
    (frame.locals.lookup name = none ∧ slot = s.names.length + 1 ∧
      t = { s with names := s.names ++ [name],
                   blocks := { frame with locals := frame.locals ++ [(name, slot)] } :: rest }) := by
  have hcurrent : s.current = frame := by simp [current, hb]
  rw [declare] at h
  rw [hcurrent] at h
  split at h
  · rename_i found hfound
    simp only [Prod.mk.injEq] at h
    obtain ⟨rfl, rfl⟩ := h
    exact .inl ⟨hfound, rfl⟩
  · rename_i hnone
    simp only [pushName, onCurrent, hb, Prod.mk.injEq] at h
    obtain ⟨rfl, rfl⟩ := h
    exact .inr ⟨hnone, rfl, rfl⟩

/-- Declaring names one after the other. -/
theorem declareAll_declared (params : List String) {s t : Symbols} {frame : Frame}
    {rest : List Frame} {slots : List Nat} (hb : s.blocks = frame :: rest)
    (hold : ∀ entry ∈ frame.locals, s.Holds entry.2 entry.1)
    (h : s.declareAll params = (slots, t)) : Declared s frame rest params slots t := by
  induction params generalizing s frame slots with
  | nil =>
    simp only [declareAll, Prod.mk.injEq] at h
    obtain ⟨rfl, rfl⟩ := h
    exact ⟨List.prefix_rfl, rfl, rfl, rfl, rfl, rfl, rfl, by simp, ⟨frame, hb, by simp⟩, by simp⟩
  | cons name params ih =>
    rcases hd : s.declare name with ⟨slot, s₁⟩
    rcases hds : s₁.declareAll params with ⟨more, s₂⟩
    simp only [declareAll, hd, hds, Prod.mk.injEq] at h
    obtain ⟨rfl, rfl⟩ := h
    rcases declare_cases hb hd with ⟨hfound, rfl⟩ | ⟨hnone, rfl, rfl⟩
    · -- The block has declared the name before: the symbols stay as they are.
      obtain ⟨l₁, l₂, heq, -⟩ := List.lookup_eq_some_iff.mp hfound
      have hmem : (name, slot) ∈ frame.locals := by rw [heq]; simp
      have hrec := ih hb hold hds
      obtain ⟨inner, hinner, hlookup⟩ := hrec.blocks
      refine ⟨hrec.names, hrec.upvars, hrec.usedLocals, hrec.root, hrec.templateLocals,
        hrec.programSlots, by simp [hrec.length], ?_, ⟨inner, hinner, ?_⟩, ?_⟩
      · intro entry hentry
        rcases List.mem_cons.mp hentry with rfl | hentry
        · exact (hold _ hmem).grow ⟨hrec.names, hrec.upvars ▸ List.prefix_rfl⟩
        · exact hrec.holds entry hentry
      · intro other
        rw [hlookup other, List.zip_cons_cons, List.lookup_cons]
        by_cases hother : other = name
        · subst hother
          simp [hfound]
        · rw [beq_false_of_ne hother]
      · intro slot' hslot'
        rcases List.mem_cons.mp hslot' with rfl | hslot'
        · exact .inl ⟨_, hmem, rfl⟩
        · exact hrec.fresh slot' hslot'
    · -- A new name: it takes the next slot, and the block knows it from now on.
      have hrec := ih rfl (by
        intro entry hentry
        rcases List.mem_append.mp hentry with hentry | hentry
        · exact (hold entry hentry).grow ⟨List.prefix_append _ _, List.prefix_rfl⟩
        · rw [List.mem_singleton.mp hentry]
          exact ⟨s.names.length, rfl, by simp⟩) hds
      obtain ⟨inner, hinner, hlookup⟩ := hrec.blocks
      have hnames : s.names ++ [name] <+: s₂.names := hrec.names
      refine ⟨(List.prefix_append _ _).trans hnames, hrec.upvars, hrec.usedLocals, hrec.root,
        hrec.templateLocals, hrec.programSlots, by simp [hrec.length], ?_, ⟨inner, hinner, ?_⟩, ?_⟩
      · intro entry hentry
        rcases List.mem_cons.mp hentry with rfl | hentry
        · exact ⟨s.names.length, rfl, getElem?_mono hnames (by simp)⟩
        · exact hrec.holds entry hentry
      · intro other
        rw [hlookup other, List.zip_cons_cons, List.lookup_cons, List.lookup_append,
          List.lookup_cons]
        by_cases hother : other = name
        · subst hother
          simp [hnone]
        · rw [beq_false_of_ne hother]
          simp
      · intro slot' hslot'
        rcases List.mem_cons.mp hslot' with rfl | hslot'
        · exact .inr (Nat.lt_succ_self _)
        · rcases hrec.fresh slot' hslot' with ⟨entry, hentry, rfl⟩ | hlt
          · rcases List.mem_append.mp hentry with hentry | hentry
            · exact .inl ⟨entry, hentry, rfl⟩
            · rw [List.mem_singleton.mp hentry]
              exact .inr (Nat.lt_succ_self _)
          · simp only [List.length_append, List.length_singleton] at hlt
            exact .inr (by omega)

/-- What opening a block does: its slots are new, they hold its parameters, and a
name is found among the parameters before it is found around the block. -/
structure Opened (s : Symbols) (params : List String) (slots : List Nat) (t : Symbols) :
    Prop extends s.Grows t where
  closed : t.blocks.tail = s.blocks
  root : t.root = s.root
  templateLocals : t.templateLocals = s.templateLocals
  sound : s.Sound → t.Sound
  mode : ∀ {strict : Bool}, s.FollowsMode strict → t.FollowsMode strict
  length : slots.length = params.length
  holds : ∀ entry ∈ params.zip slots, t.Holds entry.2 entry.1
  fresh : ∀ slot ∈ slots, s.names.length < slot
  lookup : ∀ name, t.lookup? name = ((params.zip slots).lookup name).or (s.lookup? name)

theorem openBlock_opened {s t : Symbols} {params : List String} {slots : List Nat}
    (h : s.openBlock params = (slots, t)) : Opened s params slots t := by
  have hdecl := declareAll_declared params rfl (by simp) h
  obtain ⟨inner, hinner, hlookup⟩ := hdecl.blocks
  have hgrows : s.Grows t := ⟨hdecl.names, hdecl.upvars ▸ List.prefix_rfl⟩
  refine ⟨hgrows, by rw [hinner]; rfl, hdecl.root, hdecl.templateLocals, ?_,
    FollowsMode.of_eq hdecl.upvars hdecl.usedLocals hdecl.templateLocals, hdecl.length,
    hdecl.holds, ?_, ?_⟩
  · intro hs entry hentry
    rw [hdecl.programSlots] at hentry
    exact (hs entry hentry).grow hgrows
  · intro slot hslot
    rcases hdecl.fresh slot hslot with ⟨entry, hentry, -⟩ | hlt
    · exact absurd hentry (by simp)
    · exact hlt
  · intro name
    unfold lookup? frames
    rw [hinner, hdecl.root, List.cons_append, List.findSome?_cons, hlookup name]
    cases (params.zip slots).lookup name <;> simp

/-- The parameters of a block are no free names. -/
theorem openBlock_upvars (s : Symbols) (params : List String) :
    (s.openBlock params).2.upvars = s.upvars :=
  (declareAll_declared params rfl (by simp) rfl).upvars

/-- Opening a block, advancing in it and closing it is an advance. -/
theorem Advances.of_opened {s t u : Symbols} {params : List String} {slots : List Nat}
    (ho : Opened s params slots t) (h : t.Advances u) : s.Advances u.closeBlock where
  names := ho.names.trans h.names
  upvars := ho.upvars.trans h.upvars
  blocks := by rw [← ho.closed, ← h.blocks]; rfl
  root := h.root.trans ho.root
  templateLocals := h.templateLocals.trans ho.templateLocals
  sound hs := h.sound (ho.sound hs)

end TemplateCompiler.Symbols
