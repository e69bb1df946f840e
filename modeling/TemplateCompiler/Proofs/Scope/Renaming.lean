/-
Symbols under a renamed block parameter.

Two walks that differ by the name of one block parameter keep tables that differ
by this name alone: in the scope of the block, and in the slot of the parameter.

* `Symbols.Twins` — two tables with their own scopes and names, and all else in
  common;
* `ScopesMatch` — scopes in which names are found in the same slots, with `x` in
  one for `y` in the other where the parameter is in reach;
* `SlotRenamed` — lists of names that differ in the slot of the parameter;
* `openBlock_twins`, `openBlock_renames` — a block in both walks, and the block
  whose parameter is renamed.

Design notes: what is said of the names in slots is a parameter of `Twins`.  It
only has to be kept when both lists get the same name (`Extends`), so the steps
before the block, in it and after it are settled by the same lemmas.
-/
import TemplateCompiler.Proofs.Scope.Symbols
import TemplateCompiler.Proofs.Template.Renaming

namespace TemplateCompiler

open Template (renamed)

/-! ### Scopes -/

/-- The slot of the innermost binding of a name in scopes. -/
def findIn (frames : List Frame) (name : String) : Option Nat :=
  frames.findSome? fun frame => frame.locals.lookup name

theorem findIn_cons (frame : Frame) (rest : List Frame) (name : String) :
    findIn (frame :: rest) name = (frame.locals.lookup name).or (findIn rest name) := by
  rw [findIn, List.findSome?_cons]
  cases frame.locals.lookup name <;> rfl

/-- Whether a slot is one of a scope. -/
def Frame.sees (slot : Nat) (frame : Frame) : Bool := frame.locals.any fun entry => entry.2 == slot

/-- A scope with its names mapped. -/
def Frame.mapNames (r : String → String) (frame : Frame) : Frame :=
  { frame with locals := frame.locals.map fun entry => (r entry.1, entry.2) }

/-- The names that a scope declares. -/
def Frame.names (frame : Frame) : List String := frame.locals.map Prod.fst

theorem Frame.mapNames_id (frame : Frame) : frame.mapNames (fun name => name) = frame := by
  simp [Frame.mapNames]

theorem Frame.lookup_isSome {frame : Frame} {name : String} :
    (frame.locals.lookup name).isSome ↔ name ∈ frame.names := by
  rw [Frame.names]
  simp

theorem Frame.lookup_eq_none {frame : Frame} {name : String} (h : name ∉ frame.names) :
    frame.locals.lookup name = none := by
  rw [← Frame.lookup_isSome] at h
  exact Option.not_isSome_iff_eq_none.mp h

/-- A mapped name is found where the name was. -/
theorem Frame.lookup_mapNames {r : String → String} {frame : Frame} {name : String}
    (hr : ∀ other ∈ frame.names, r other = r name → other = name) :
    (frame.mapNames r).locals.lookup (r name) = frame.locals.lookup name := by
  obtain ⟨id, entries⟩ := frame
  rw [Frame.mapNames]
  induction entries with
  | nil => rfl
  | cons entry rest ih =>
    rw [List.map_cons, List.lookup_cons, List.lookup_cons]
    have hentry : (r name == r entry.1) = (name == entry.1) := by
      by_cases hname : name = entry.1
      · simp [hname]
      · have hne : r name ≠ r entry.1 := fun h => hname (hr entry.1 (by simp [names]) h.symm).symm
        simp [hname, hne]
    rw [hentry, ih fun other hother => hr other (by simp [names] at hother ⊢; exact .inr hother)]

/-- Scopes in two walks: a name other than `y` is found in the same slot, with `y`
for `x` in the second walk if the parameter is in reach. -/
structure ScopesMatch (x y : String) (active : Bool) (fs fs' : List Frame) : Prop where
  find : ∀ name, name ≠ y → findIn fs' (renamed x y active name) = findIn fs name
  bound : active = true → (findIn fs x).isSome
  sees : ∀ slot, fs'.any (·.sees slot) = fs.any (·.sees slot)

theorem ScopesMatch.refl (x y : String) (fs : List Frame) : ScopesMatch x y false fs fs :=
  ⟨fun name _ => by simp [renamed], by simp, fun _ => rfl⟩

/-- A block in both walks: if it declares `x` itself, the parameter is hidden. -/
theorem ScopesMatch.push {x y : String} {active : Bool} {fs fs' : List Frame} {frame : Frame}
    (h : ScopesMatch x y active fs fs') (hy : y ∉ frame.names) :
    ScopesMatch x y (active && !frame.names.contains x) (frame :: fs) (frame :: fs') := by
  have hfind := h.find
  refine ⟨fun name hname => ?_, fun hactive => ?_, fun slot => ?_⟩
  · rw [findIn_cons, findIn_cons]
    by_cases hx : name = x
    · subst hx
      have hfound := hfind name hname
      by_cases hmem : name ∈ frame.names
      · obtain ⟨slot, hslot⟩ := Option.isSome_iff_exists.mp (Frame.lookup_isSome.mpr hmem)
        simp [renamed, hmem, hslot]
      · cases active <;>
          simp_all [renamed, Frame.lookup_eq_none hmem, Frame.lookup_eq_none hy]
    · have hfound := hfind name hname
      simp only [renamed, beq_iff_eq, hx, Bool.and_eq_true, and_false, if_false] at hfound ⊢
      rw [hfound]
  · obtain ⟨hactive, -⟩ := Bool.and_eq_true_iff.mp hactive
    rw [findIn_cons, Option.isSome_or, h.bound hactive, Bool.or_true]
  · rw [List.any_cons, List.any_cons, h.sees]

/-- The block whose parameter is renamed. -/
theorem ScopesMatch.rename {x y : String} {frame : Frame} (fs : List Frame)
    (hx : x ∈ frame.names) (hy : y ∉ frame.names) :
    ScopesMatch x y true (frame :: fs) (frame.mapNames (renamed x y true) :: fs) := by
  have hfound := Frame.lookup_isSome.mpr hx
  refine ⟨fun name hname => ?_, fun _ => ?_, fun slot => ?_⟩
  · have hlookup : (frame.mapNames (renamed x y true)).locals.lookup (renamed x y true name)
        = frame.locals.lookup name := by
      refine Frame.lookup_mapNames fun other hother h => ?_
      have hother : other ≠ y := fun h => hy (h ▸ hother)
      grind [renamed]
    rw [findIn_cons, findIn_cons, hlookup]
    by_cases hname' : name = x
    · obtain ⟨slot, hslot⟩ := Option.isSome_iff_exists.mp hfound
      rw [hname', hslot, Option.some_or, Option.some_or]
    · simp [renamed, hname']
  · rw [findIn_cons, Option.isSome_or, hfound, Bool.true_or]
  · rw [List.any_cons, List.any_cons]
    simp [Frame.sees, Frame.mapNames, Function.comp_def]

/-! ### Names in slots -/

/-- A relation of the names in slots that both lists getting the same name keeps. -/
structure Extends (ρ : List String → List String → Prop) : Prop where
  length : ∀ {names names'}, ρ names names' → names.length = names'.length
  push : ∀ {names names'} (name : String), ρ names names' → ρ (names ++ [name]) (names' ++ [name])

theorem Extends.eq : Extends Eq := ⟨congrArg _, fun _ h => by rw [h]⟩

theorem Extends.append {ρ : List String → List String → Prop} (hρ : Extends ρ)
    {names names' : List String} (h : ρ names names') (added : List String) :
    ρ (names ++ added) (names' ++ added) := by
  induction added generalizing names names' with
  | nil => simpa using h
  | cons name rest ih => simpa using ih (hρ.push name h)

/-- Lists of names that are the same but for the slot that some block gave to its
parameter `x`, which is called `y` in the second. -/
def SlotRenamed (x y : String) (params : List String) (blocks : List (List Nat))
    (names names' : List String) : Prop :=
  names' = names ∨ ∃ slots ∈ blocks, ∃ n, slots.length = params.length ∧
    (∀ i : Nat, params[i]? = some x ↔ slots[i]? = some (n + 1)) ∧
    names[n]? = some x ∧ names' = names.set n y

theorem SlotRenamed.extends (x y : String) (params : List String) (blocks : List (List Nat)) :
    Extends (SlotRenamed x y params blocks) where
  length h := by
    obtain rfl | ⟨slots, -, n, -, -, -, rfl⟩ := h
    · rfl
    · rw [List.length_set]
  push name h := by
    obtain rfl | ⟨slots, hslots, n, hlength, hparams, hn, rfl⟩ := h
    · exact .inl rfl
    · have hlt := (List.getElem?_eq_some_iff.mp hn).choose
      refine .inr ⟨slots, hslots, n, hlength, hparams, ?_, ?_⟩
      · rw [List.getElem?_append_left hlt, hn]
      · rw [List.set_append_left _ _ hlt]

theorem SlotRenamed.mono {x y : String} {params : List String} {blocks blocks' : List (List Nat)}
    {names names' : List String} (hsub : blocks ⊆ blocks')
    (h : SlotRenamed x y params blocks names names') :
    SlotRenamed x y params blocks' names names' :=
  h.imp_right fun ⟨slots, hslots, hn⟩ => ⟨slots, hsub hslots, hn⟩

namespace Symbols

/-! ### Twin tables -/

/-- Two tables with scopes and names of their own, and all else in common. -/
structure Twins (ρ : List String → List String → Prop) (fs fs' : List Frame) (s s' : Symbols) :
    Prop where
  blocks : s.blocks = fs
  same : s' = { s with blocks := fs', names := s'.names }
  names : ρ s.names s'.names

section

variable {ρ : List String → List String → Prop} {fs fs' : List Frame} {s s' : Symbols}
  {x y : String} {active : Bool}

theorem Twins.rel_mono {ρ' : List String → List String → Prop} (h : Twins ρ fs fs' s s')
    (hρ : ∀ names names', ρ names names' → ρ' names names') : Twins ρ' fs fs' s s' :=
  ⟨h.blocks, h.same, hρ _ _ h.names⟩

theorem lookup?_eq (s : Symbols) (name : String) :
    s.lookup? name = (findIn s.blocks name).or (s.root.locals.lookup name) := by
  rw [lookup?, frames, findIn, List.findSome?_append, List.findSome?_cons, List.findSome?_nil]
  cases s.root.locals.lookup name <;> rfl

theorem Twins.lookup? (h : Twins ρ fs fs' s s') (hm : ScopesMatch x y active fs fs')
    {name : String} (hname : name ≠ y) :
    s'.lookup? (renamed x y active name) = s.lookup? name := by
  rw [h.same, lookup?_eq, lookup?_eq, h.blocks, hm.find name hname]
  by_cases hx : active = true ∧ name = x
  · obtain ⟨slot, hslot⟩ := Option.isSome_iff_exists.mp (hm.bound hx.1)
    rw [hx.2, hslot, Option.some_or, Option.some_or]
  · have hrenamed : renamed x y active name = name := by simp [renamed, hx]
    rw [hrenamed]

/-- Where the parameter is in reach, both tables find it. -/
theorem Twins.lookup?_isSome (h : Twins ρ fs fs' s s') (hm : ScopesMatch x y active fs fs')
    (hactive : active = true) : (s.lookup? x).isSome := by
  rw [lookup?_eq, h.blocks, Option.isSome_or, hm.bound hactive, Bool.true_or]

theorem Twins.visible (hρ : Extends ρ) (h : Twins ρ fs fs' s s')
    (hm : ScopesMatch x y active fs fs') : s'.visible = s.visible := by
  have hlength : s'.names.length = s.names.length := (hρ.length h.names).symm
  have hsees : s'.sees = s.sees := by
    funext slot
    have hslot := hm.sees slot
    rw [h.same]
    simp only [sees, frames, h.blocks, List.any_append]
    exact congrArg₂ _ rfl (congrArg₂ _ hslot rfl)
  rw [Symbols.visible, Symbols.visible, hlength, hsees]

theorem Twins.programSlot (hρ : Extends ρ) (h : Twins ρ fs fs' s s') (name : String) :
    (s.programSlot name).1 = (s'.programSlot name).1 ∧
      Twins ρ fs fs' (s.programSlot name).2 (s'.programSlot name).2 := by
  have hlength := hρ.length h.names
  have hslots : s'.programSlots = s.programSlots := by rw [h.same]
  rw [Symbols.programSlot, Symbols.programSlot, hslots]
  cases s.programSlots.lookup name with
  | some slot => exact ⟨rfl, h⟩
  | none =>
    refine ⟨by simp only [pushName, hlength], h.blocks, ?_, hρ.push name h.names⟩
    simp only [pushName, hlength]
    rw [h.same]

theorem Twins.free (h : Twins ρ fs fs' s s') (name : String) :
    (s.free name).1 = (s'.free name).1 ∧ Twins ρ fs fs' (s.free name).2 (s'.free name).2 := by
  have hupvars : s'.upvars = s.upvars := by rw [h.same]
  rw [Symbols.free, Symbols.free, hupvars]
  cases s.upvars.idxOf? name with
  | some upvar => exact ⟨rfl, h⟩
  | none => exact ⟨rfl, h.blocks, by rw [h.same], h.names⟩

theorem Twins.useLocal (h : Twins ρ fs fs' s s') (name : String) :
    (s.useLocal name).1 = (s'.useLocal name).1 ∧
      Twins ρ fs fs' (s.useLocal name).2 (s'.useLocal name).2 := by
  have hused : s'.usedLocals = s.usedLocals := by rw [h.same]
  rw [Symbols.useLocal, Symbols.useLocal, hused]
  generalize (if s.usedLocals.contains name then s.usedLocals else s.usedLocals ++ [name]) = used
  have hused : Twins ρ fs fs' { s with usedLocals := used } { s' with usedLocals := used } :=
    ⟨h.blocks, by rw [h.same], h.names⟩
  exact hused.free name

theorem Twins.markEval (h : Twins ρ fs fs' s s') : Twins ρ fs fs' s.markEval s'.markEval :=
  ⟨h.blocks, by rw [h.same]; rfl, h.names⟩

theorem Twins.closeBlock {frame frame' : Frame} (h : Twins ρ (frame :: fs) (frame' :: fs') s s') :
    Twins ρ fs fs' s.closeBlock s'.closeBlock :=
  ⟨by rw [Symbols.closeBlock, h.blocks, List.tail_cons], by rw [h.same]; rfl, h.names⟩

end

/-! ### Blocks in both walks -/

/-- Declaring names, and the same names mapped: the slots are the same. -/
theorem declareAll_map {r : String → String} (params : List String) (rest' : List Frame)
    {s : Symbols} {frame : Frame} {rest : List Frame} {names' : List String}
    (hblocks : s.blocks = frame :: rest) (hlength : s.names.length = names'.length)
    (hr : ∀ a ∈ frame.names ++ params, ∀ b ∈ frame.names ++ params, r a = r b → a = b)
    (hnodup : frame.names.Nodup) :
    ∃ inner added, (s.declareAll params).2
        = { s with blocks := inner :: rest, names := s.names ++ added } ∧
      declareAll { s with blocks := frame.mapNames r :: rest', names := names' } (params.map r)
        = ((s.declareAll params).1,
          { s with blocks := inner.mapNames r :: rest', names := names' ++ added.map r }) ∧
      inner.names = frame.names ++ added ∧ inner.names.Nodup ∧
      ∀ name, name ∈ inner.names ↔ name ∈ frame.names ∨ name ∈ params := by
  induction params generalizing s frame names' with
  | nil =>
    refine ⟨frame, [], ?_, by simp [declareAll], by simp, hnodup, by simp⟩
    rw [declareAll, List.append_nil, ← hblocks]
  | cons name params ih =>
    have hlookup : (frame.mapNames r).locals.lookup (r name) = frame.locals.lookup name :=
      Frame.lookup_mapNames fun other hother h => hr other (by simp [hother]) name (by simp) h
    rcases hd : s.declare name with ⟨slot, s₁⟩
    rcases hd' : declare { s with blocks := frame.mapNames r :: rest', names := names' } (r name)
      with ⟨slot', s₁'⟩
    simp only [declareAll, List.map_cons, hd, hd']
    -- The mapped name is found in the mapped block exactly when the name is found.
    rcases declare_cases hblocks hd with ⟨hfound, rfl⟩ | ⟨hnone, rfl, rfl⟩
    · -- The block has declared the name before, in both walks.
      rcases declare_cases rfl hd' with ⟨hfound', rfl⟩ | ⟨hnone', -, -⟩
      · obtain rfl : slot = slot' := Option.some.inj (by rw [← hfound, ← hlookup, hfound'])
        obtain ⟨inner, added, hs, hs', hnames, hinner, hmem⟩ := ih hblocks hlength
          (fun a ha b hb => hr a (by grind) b (by grind)) hnodup
        refine ⟨inner, added, hs, by rw [hs'], hnames, hinner, fun other => ?_⟩
        have hname : name ∈ frame.names := Frame.lookup_isSome.mp (by rw [hfound]; rfl)
        grind
      · rw [hlookup, hfound] at hnone'
        cases hnone'
    · rcases declare_cases rfl hd' with ⟨hfound', -⟩ | ⟨-, rfl, rfl⟩
      · rw [hlookup, hnone] at hfound'
        cases hfound'
      have hname : name ∉ frame.names := fun h => by
        simpa [hnone] using Frame.lookup_isSome.mpr h
      have hgrown :
          Frame.names { frame with locals := frame.locals ++ [(name, s.names.length + 1)] }
          = frame.names ++ [name] := by simp [Frame.names]
      have hlength' : (s.names ++ [name]).length = (names' ++ [r name]).length := by simp [hlength]
      obtain ⟨inner, added, hs, hs', hnames, hinner, hmem⟩ := ih
        (s := { s with
          names := s.names ++ [name]
          blocks := { frame with locals := frame.locals ++ [(name, s.names.length + 1)] } :: rest })
        rfl hlength'
        (fun a ha b hb => hr a (by rw [hgrown] at ha; grind) b (by rw [hgrown] at hb; grind))
        (by rw [hgrown]; exact List.nodup_append.mpr ⟨hnodup, by simp, by grind⟩)
      refine ⟨inner, name :: added, by rw [hs]; simp, ?_, by rw [hnames, hgrown]; simp, hinner,
        fun other => by rw [hmem, hgrown]; grind⟩
      have hslot : s.names.length + 1 = names'.length + 1 := by rw [hlength]
      have hframe : Frame.mapNames r
          { frame with locals := frame.locals ++ [(name, s.names.length + 1)] }
          = { frame.mapNames r with
              locals := (frame.mapNames r).locals ++ [(r name, names'.length + 1)] } := by
        simp [Frame.mapNames, hlength]
      rw [hframe] at hs'
      simp only [hs', hslot]
      simp

section

variable {ρ : List String → List String → Prop} {fs fs' : List Frame} {s s' : Symbols}
  {x y : String} {active : Bool} {params : List String}

/-- A block in one walk, and the same block with its parameters mapped in the other. -/
theorem openBlock_map {r : String → String} (hlength : s.names.length = s'.names.length)
    (h : Twins ρ fs fs' s s') (hr : ∀ a ∈ params, ∀ b ∈ params, r a = r b → a = b) :
    ∃ frame : Frame, (s.openBlock params).1 = (s'.openBlock (params.map r)).1 ∧
      (s.openBlock params).2.names = s.names ++ frame.names ∧
      (s'.openBlock (params.map r)).2.names = s'.names ++ frame.names.map r ∧
      (∀ ρ' : List String → List String → Prop,
        ρ' (s.names ++ frame.names) (s'.names ++ frame.names.map r) →
        Twins ρ' (frame :: fs) (frame.mapNames r :: fs') (s.openBlock params).2
          (s'.openBlock (params.map r)).2) ∧
      frame.names.Nodup ∧ ∀ name, name ∈ frame.names ↔ name ∈ params := by
  obtain ⟨frame, added, hs, hs', hnames, hnodup, hmem⟩ := declareAll_map (r := r) params fs'
    (s := { s with blocks := { id := s.frameCount } :: s.blocks, frameCount := s.frameCount + 1 })
    rfl hlength (by simpa [Frame.names] using hr) List.nodup_nil
  obtain rfl : frame.names = added := by simpa [Frame.names] using hnames
  -- The second table is the first one but for its scopes and names.
  obtain ⟨names', hsame⟩ : ∃ names', s' = { s with blocks := fs', names := names' } :=
    ⟨_, h.same⟩
  subst hsame
  have hopen : (s.openBlock params).2 = _ := hs
  have hopen' : openBlock { s with blocks := fs', names := names' } (params.map r) = _ := hs'
  refine ⟨frame, by rw [hopen']; rfl, by rw [hopen], by rw [hopen'], fun ρ' hρ' => ?_, hnodup,
    by simpa [Frame.names] using hmem⟩
  rw [hopen, hopen']
  exact ⟨by rw [h.blocks], rfl, hρ'⟩

/-- A block in both walks. -/
theorem openBlock_twins (hρ : Extends ρ) (h : Twins ρ fs fs' s s')
    (hm : ScopesMatch x y active fs fs') (hy : y ∉ params) :
    ∃ frame, (s.openBlock params).1 = (s'.openBlock params).1 ∧
      Twins ρ (frame :: fs) (frame :: fs') (s.openBlock params).2 (s'.openBlock params).2 ∧
      ScopesMatch x y (active && !params.contains x) (frame :: fs) (frame :: fs') := by
  obtain ⟨frame, hslots, -, -, htwins, -, hmem⟩ :=
    openBlock_map (r := fun name => name) (hρ.length h.names) h
      fun a (_ : a ∈ params) _ _ => id
  simp only [List.map_id', Frame.mapNames_id] at hslots htwins
  have hcontains : frame.names.contains x = params.contains x := by
    rw [Bool.eq_iff_iff]
    simp [hmem]
  refine ⟨frame, hslots, htwins ρ (hρ.append h.names frame.names), ?_⟩
  rw [← hcontains]
  exact hm.push fun hmem' => hy ((hmem y).mp hmem')

/-- Of names without repetition, renaming one changes one place. -/
theorem map_renamed {names : List String} (hnodup : names.Nodup) {k : Nat}
    (hk : names[k]? = some x) : names.map (renamed x y true) = names.set k y := by
  obtain ⟨hlt, hx⟩ := List.getElem?_eq_some_iff.mp hk
  refine List.ext_getElem (by simp) fun i hi hi' => ?_
  rw [List.getElem_map, List.getElem_set]
  rw [List.length_map] at hi
  split
  · next hik =>
    subst hik
    rw [hx, Template.renamed_self]
  · next hik =>
    have hne : names[i] ≠ x := fun h =>
      hik ((List.getElem?_inj hlt hnodup).mp (by rw [hk, List.getElem?_eq_getElem hi, h]))
    simp [renamed, hne]

/-- A block gives the slot of a name to the parameters of this name, and to no others. -/
theorem Opened.slot_iff {t : Symbols} {slots : List Nat} (h : Opened s params slots t)
    {added : List String} (hnames : t.names = s.names ++ added) (hnodup : added.Nodup) {k : Nat}
    (hk : added[k]? = some x) (i : Nat) :
    params[i]? = some x ↔ slots[i]? = some (s.names.length + k + 1) := by
  have hholds : ∀ name slot, params[i]? = some name → slots[i]? = some slot →
      t.Holds slot name := fun name slot hname hslot =>
    h.holds (name, slot) (List.mem_iff_getElem?.mpr ⟨i, by
      rw [List.getElem?_zip_eq_some]
      exact ⟨hname, hslot⟩⟩)
  constructor
  · intro hi
    have hlt := (List.getElem?_eq_some_iff.mp hi).choose
    obtain ⟨slot, hslot⟩ : ∃ slot, slots[i]? = some slot :=
      ⟨_, List.getElem?_eq_getElem (h.length ▸ hlt)⟩
    obtain ⟨n, rfl, hn⟩ := hholds x slot hi hslot
    have hfresh := h.fresh _ (List.mem_of_getElem? hslot)
    rw [hnames, List.getElem?_append_right (by omega), ← hk] at hn
    -- The slots of a block are new, and no name is added twice.
    have hplace := (List.getElem?_inj (by
      have := (List.getElem?_eq_some_iff.mp (hn.trans hk)).choose
      omega) hnodup).mp hn
    rw [hslot]
    congr 1
    omega
  · intro hi
    have hlt := (List.getElem?_eq_some_iff.mp hi).choose
    obtain ⟨name, hname⟩ : ∃ name, params[i]? = some name :=
      ⟨_, List.getElem?_eq_getElem (h.length ▸ hlt)⟩
    obtain ⟨n, hn, hheld⟩ := hholds name _ hname hi
    obtain rfl : s.names.length + k = n := by omega
    rw [hnames, List.getElem?_append_right (by omega), Nat.add_sub_cancel_left, hk] at hheld
    rw [hname, ← hheld]

/-- The block whose parameter is renamed. -/
theorem openBlock_renames (h : Twins Eq fs fs s s') (hx : x ∈ params) (hy : y ∉ params) :
    ∃ frame frame', (s.openBlock params).1 = (s'.openBlock (params.map (renamed x y true))).1 ∧
      Twins (SlotRenamed x y params [(s.openBlock params).1]) (frame :: fs) (frame' :: fs)
        (s.openBlock params).2 (s'.openBlock (params.map (renamed x y true))).2 ∧
      ScopesMatch x y true (frame :: fs) (frame' :: fs) := by
  have hr : ∀ a ∈ params, ∀ b ∈ params, renamed x y true a = renamed x y true b → a = b := by
    intro a ha b hb hab
    have hay : a ≠ y := fun h => hy (h ▸ ha)
    have hby : b ≠ y := fun h => hy (h ▸ hb)
    grind [renamed]
  obtain ⟨frame, hslots, hnames, -, htwins, hnodup, hmem⟩ :=
    openBlock_map (congrArg List.length h.names) h hr
  have hopened : Opened s params (s.openBlock params).1 (s.openBlock params).2 :=
    openBlock_opened rfl
  have hxframe : x ∈ frame.names := (hmem x).mpr hx
  have hyframe : y ∉ frame.names := fun hmem' => hy ((hmem y).mp hmem')
  refine ⟨frame, frame.mapNames (renamed x y true), hslots, htwins _ (.inr ?_),
    ScopesMatch.rename fs hxframe hyframe⟩
  -- The block has one slot for `x`, whose place is that of `x` among its names.
  obtain ⟨k, hk⟩ := List.mem_iff_getElem?.mp hxframe
  refine ⟨_, List.mem_singleton_self _, s.names.length + k, hopened.length,
    hopened.slot_iff hnames hnodup hk, ?_, ?_⟩
  · rw [List.getElem?_append_right (by omega), Nat.add_sub_cancel_left, hk]
  · rw [← h.names, List.set_append_right _ _ (by omega), Nat.add_sub_cancel_left,
      map_renamed hnodup hk]

end

end Symbols

end TemplateCompiler
