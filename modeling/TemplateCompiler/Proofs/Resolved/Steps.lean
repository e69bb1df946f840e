/-
What the steps of the walk come to.

A step that succeeds is taken apart into the steps it is made of; each of them
only adds symbols and leaves the open scopes as it found them.

* `run_bind_ok`, `run_pure_ok` — a step that succeeds, taken apart;
* `Fresh` — the slots of the blocks that a step opens;
* `At` — the walk is at a place: the open scopes are those around it;
* `Outcome` — what a step comes to: symbols are added as the mode allows, a
  statement `R` about the symbols at the end of the walk becomes true, and the
  blocks that were opened have slots of their own.

Design notes: `R` is stated of all symbols that the walk may end with, so that
what one step has achieved is not undone by the next (`Outcome.seq`).
-/
import TemplateCompiler.Proofs.Resolved.Lexical

namespace TemplateCompiler.Resolved

/-! ### Steps that succeed -/

theorem run_pure_ok {α : Type} {a b : α} {p q : Progress} :
    (pure a : Walk α).run p = .ok b q ↔ a = b ∧ p = q := by
  show EStateM.Result.ok a p = .ok b q ↔ _
  rw [EStateM.Result.ok.injEq]

theorem run_bind_ok {α β : Type} {x : Walk α} {f : α → Walk β} {b : β} {p q : Progress} :
    (x >>= f).run p = .ok b q ↔ ∃ a r, x.run p = .ok a r ∧ (f a).run r = .ok b q := by
  simp only [EStateM.run, bind, EStateM.bind]
  cases x p <;> simp

theorem run_throw_ok {α : Type} {fault : Fault} {b : α} {p q : Progress} :
    (throw fault : Walk α).run p = .ok b q ↔ False := by
  show EStateM.Result.error fault p = .ok b q ↔ False
  simp

theorem run_get_ok {p q r : Progress} :
    (get : Walk Progress).run p = .ok r q ↔ p = r ∧ p = q := by
  show EStateM.Result.ok p p = .ok r q ↔ _
  rw [EStateM.Result.ok.injEq]

theorem run_set_ok {p q r : Progress} {u : PUnit} :
    (set r : Walk PUnit).run p = .ok u q ↔ r = q := by
  show EStateM.Result.ok PUnit.unit r = .ok u q ↔ _
  simp

theorem run_modifyGet_ok {α : Type} {f : Progress → α × Progress} {a : α} {p q : Progress} :
    (modifyGet f : Walk α).run p = .ok a q ↔ (f p).1 = a ∧ (f p).2 = q := by
  show EStateM.Result.ok (f p).1 (f p).2 = .ok a q ↔ _
  rw [EStateM.Result.ok.injEq]

theorem run_ite_ok {α : Type} {c : Prop} [Decidable c] {x y : Walk α} {b : α} {p q : Progress} :
    (if c then x else y).run p = .ok b q ↔
      (c ∧ x.run p = .ok b q) ∨ (¬c ∧ y.run p = .ok b q) := by
  split <;> simp_all

theorem run_onSymbols_ok {α : Type} {f : Symbols → α × Symbols} {a : α} {p q : Progress} :
    (onSymbols f).run p = .ok a q ↔
      (f p.symbols).1 = a ∧ { p with symbols := (f p.symbols).2 } = q :=
  run_modifyGet_ok

theorem run_getSymbols_ok {s : Symbols} {p q : Progress} :
    getSymbols.run p = .ok s q ↔ p.symbols = s ∧ p = q := by
  show EStateM.Result.ok p.symbols p = .ok s q ↔ _
  rw [EStateM.Result.ok.injEq]

/-! ### Slots of blocks -/

/-- The parameters of blocks that were opened while the slots from `lo` up to
`hi` were given: every slot is one of these, and no two blocks share one. -/
structure Fresh (lo hi : Nat) (blocks : List (List Nat)) : Prop where
  bounds : ∀ slots ∈ blocks, ∀ slot ∈ slots, lo < slot ∧ slot ≤ hi
  disjoint : blocks.Pairwise List.Disjoint

theorem Fresh.nil (lo hi : Nat) : Fresh lo hi [] := ⟨by simp, List.Pairwise.nil⟩

theorem Fresh.append {lo mid hi : Nat} {b₁ b₂ : List (List Nat)} (h₁ : Fresh lo mid b₁)
    (h₂ : Fresh mid hi b₂) (hlo : lo ≤ mid) (hhi : mid ≤ hi) : Fresh lo hi (b₁ ++ b₂) := by
  refine ⟨fun slots hmem slot hslot => ?_, List.pairwise_append.mpr ⟨h₁.disjoint, h₂.disjoint, ?_⟩⟩
  · rcases List.mem_append.mp hmem with hmem | hmem
    · have := h₁.bounds slots hmem slot hslot
      omega
    · have := h₂.bounds slots hmem slot hslot
      omega
  · -- The slots of the first blocks are all given before those of the second.
    intro slots₁ hmem₁ slots₂ hmem₂ slot hslot₁ hslot₂
    have hle := (h₁.bounds slots₁ hmem₁ slot hslot₁).2
    have hlt := (h₂.bounds slots₂ hmem₂ slot hslot₂).1
    omega

/-! ### Where the walk is -/

/-- The walk is at a place with the given scopes around it. -/
structure At (o : Settings) (env : Scopes) (p : Progress) : Prop where
  lookup : ∀ name, p.symbols.lookup? name = env.find? name
  slots : p.symbols.Sound
  locals : p.symbols.templateLocals = if o.strict then o.locals else []
  registered : ∀ entry ∈ p.componentNames, entry.2 = o.registered entry.1

theorem At.isBound {o : Settings} {env : Scopes} {p : Progress} (h : At o env p) (name : String) :
    isBound o p.symbols name = o.binds env name := by
  unfold Resolved.isBound Settings.binds Symbols.isTemplateLocal
  rw [h.lookup, h.locals]
  cases o.strict <;> simp

/-- What a step comes to: it adds symbols as the mode allows, `R` is true of the
symbols at the end of the walk, and the blocks it opened have slots of their own. -/
structure Outcome (o : Settings) (R : Symbols → Prop) (blocks : List (List Nat))
    (p q : Progress) : Prop where
  symbols : p.symbols.Advances q.symbols
  mode : p.symbols.FollowsMode o.strict → q.symbols.FollowsMode o.strict
  registered : ∀ entry ∈ q.componentNames, entry.2 = o.registered entry.1
  holds : ∀ F, q.symbols.Grows F → R F
  fresh : Fresh p.symbols.names.length q.symbols.names.length blocks

section

variable {o : Settings} {env : Scopes} {p q r : Progress} {R R₁ R₂ : Symbols → Prop}
  {blocks b₁ b₂ : List (List Nat)}

/-- After a step the walk is back at the same place. -/
theorem Outcome.at (h : Outcome o R blocks p q) (hat : At o env p) : At o env q where
  lookup name := (h.symbols.lookup? name).trans (hat.lookup name)
  slots := h.symbols.sound hat.slots
  locals := h.symbols.templateLocals.trans hat.locals
  registered := h.registered

/-- A step that gives numbers and opens no block. -/
theorem Outcome.of_advances (hat : At o env p) {s : Symbols} (hs : p.symbols.Advances s)
    (hmode : p.symbols.FollowsMode o.strict → s.FollowsMode o.strict)
    (hR : ∀ F, s.Grows F → R F) : Outcome o R [] p { p with symbols := s } :=
  ⟨hs, hmode, hat.registered, hR, Fresh.nil _ _⟩

/-- A step that changes nothing. -/
theorem Outcome.rfl (hat : At o env p) (hR : ∀ F, R F) : Outcome o R [] p p :=
  Outcome.of_advances hat (Symbols.Advances.refl _) id fun F _ => hR F

/-- Two steps, one after the other. -/
theorem Outcome.seq (h₁ : Outcome o R₁ b₁ p q) (h₂ : Outcome o R₂ b₂ q r) :
    Outcome o (fun F => R₁ F ∧ R₂ F) (b₁ ++ b₂) p r where
  symbols := h₁.symbols.trans h₂.symbols
  mode := h₂.mode ∘ h₁.mode
  registered := h₂.registered
  holds F hF := ⟨h₁.holds F (h₂.symbols.toGrows.trans hF), h₂.holds F hF⟩
  fresh := h₁.fresh.append h₂.fresh h₁.symbols.length_le h₂.symbols.length_le

theorem Outcome.imp (h : Outcome o R₁ blocks p q) (hR : ∀ F, R₁ F → R₂ F) :
    Outcome o R₂ blocks p q :=
  ⟨h.symbols, h.mode, h.registered, fun F hF => hR F (h.holds F hF), h.fresh⟩

end

/-! ### Names -/

section

variable {o : Settings} {env : Scopes} {p q : Progress}

theorem keywordName?_ok {callee : Template.Expr} {name : Option String} (hat : At o env p)
    (h : (keywordName? o callee).run p = .ok name q) :
    p = q ∧ ∀ {κ : Type} (table : String → Option κ),
      name.bind table = keyword? o env table callee := by
  have hbound : (fun name => !isBound o p.symbols name) = fun name => !o.binds env name := by
    funext name
    rw [hat.isBound]
  simp only [keywordName?, run_bind_ok, run_getSymbols_ok] at h
  obtain ⟨_, _, ⟨rfl, rfl⟩, h⟩ := h
  cases callee with
  | path path =>
    obtain ⟨rfl, rfl⟩ := run_pure_ok.mp h
    refine ⟨rfl, fun table => ?_⟩
    simp only [keyword?, hbound]
  | sub call span =>
    obtain ⟨rfl, rfl⟩ := run_pure_ok.mp h
    exact ⟨rfl, fun _ => rfl⟩
  | literal value span =>
    obtain ⟨rfl, rfl⟩ := run_pure_ok.mp h
    exact ⟨rfl, fun _ => rfl⟩

theorem callKeyword?_ok {callee : Template.Expr} {k : Option CallKeyword} (hat : At o env p)
    (h : (callKeyword? o callee).run p = .ok k q) :
    p = q ∧ keyword? o env CallKeyword.ofName? callee = k := by
  simp only [callKeyword?, run_bind_ok, run_pure_ok] at h
  obtain ⟨name, _, hname, rfl, rfl⟩ := h
  obtain ⟨rfl, hkeyword⟩ := keywordName?_ok hat hname
  exact ⟨rfl, (hkeyword _).symm⟩

theorem free_outcome {name : String} {upvar : Nat} (hloose : o.strict = false) (hat : At o env p)
    (h : (onSymbols (·.free name)).run p = .ok upvar q) :
    Outcome o (fun F => F.upvars[upvar]? = some name) [] p q := by
  obtain ⟨rfl, rfl⟩ := run_onSymbols_ok.mp h
  obtain ⟨hadv, hname⟩ := Symbols.free_advances p.symbols name
  refine Outcome.of_advances hat hadv ?_ fun F hF => Symbols.upvar_grow hF hname
  rw [hloose]
  exact Symbols.free_followsMode name

theorem useLocal_outcome {name : String} {upvar : Nat} (hstrict : o.strict = true)
    (hlocal : name ∈ p.symbols.templateLocals) (hat : At o env p)
    (h : (onSymbols (·.useLocal name)).run p = .ok upvar q) :
    Outcome o (fun F => F.upvars[upvar]? = some name) [] p q := by
  obtain ⟨rfl, rfl⟩ := run_onSymbols_ok.mp h
  obtain ⟨hadv, hname⟩ := Symbols.useLocal_advances p.symbols name
  refine Outcome.of_advances hat hadv ?_ fun F hF => Symbols.upvar_grow hF hname
  rw [hstrict]
  exact Symbols.useLocal_followsMode hlocal

theorem argument_outcome {name : String} {slot : Nat} (hat : At o env p)
    (h : (onSymbols (·.argument name)).run p = .ok slot q) :
    Outcome o (fun F => F.Holds slot name) [] p q := by
  obtain ⟨rfl, rfl⟩ := run_onSymbols_ok.mp h
  obtain ⟨hadv, hname⟩ := Symbols.programSlot_advances hat.slots name
  exact Outcome.of_advances hat hadv (Symbols.programSlot_followsMode _)
    fun F hF => hname.grow hF

theorem namedBlock_outcome {name : String} {slot : Nat} (hat : At o env p)
    (h : (onSymbols (·.namedBlock name)).run p = .ok slot q) :
    Outcome o (fun F => F.Holds slot ("&" ++ Symbols.blockName name)) [] p q := by
  obtain ⟨rfl, rfl⟩ := run_onSymbols_ok.mp h
  obtain ⟨hadv, hname⟩ := Symbols.programSlot_advances hat.slots ("&" ++ Symbols.blockName name)
  exact Outcome.of_advances hat hadv (Symbols.programSlot_followsMode _)
    fun F hF => hname.grow hF

theorem markEval_outcome (hat : At o env p)
    (h : (onSymbols fun s => ((), s.markEval)).run p = .ok () q) :
    Outcome o (fun _ => True) [] p q := by
  obtain ⟨-, rfl⟩ := run_onSymbols_ok.mp h
  exact Outcome.of_advances hat (Symbols.markEval_advances _) Symbols.markEval_followsMode
    fun _ _ => trivial

/-- A bare name, at its site. -/
theorem resolveName_outcome {site : Site} {simple : Bool} {written name : String} {span : Span}
    {v : Variable} (hat : At o env p)
    (h : (resolveName o site simple written name span).run p = .ok v q) :
    ∃ reference, v = ⟨name, reference, span⟩ ∧
      Outcome o (fun F => ResolvesName o F env site simple name reference) [] p q := by
  simp only [resolveName, run_bind_ok, run_getSymbols_ok] at h
  obtain ⟨_, _, ⟨rfl, rfl⟩, h⟩ := h
  rw [hat.lookup] at h
  cases hfind : env.find? name with
  | some slot =>
    rw [hfind] at h
    obtain ⟨rfl, rfl⟩ := run_pure_ok.mp h
    exact ⟨_, rfl, Outcome.rfl hat fun F => .bound hfind⟩
  | none =>
    rw [hfind] at h
    simp only [run_ite_ok, run_bind_ok, run_throw_ok, false_and, exists_false, and_false,
      or_false, run_pure_ok] at h
    rcases h with ⟨hstrict, hlocal, upvar, r, hupvar, rfl, rfl⟩ | ⟨hloose, h⟩
    · -- In a strict template the name must be one that surrounding code provides.
      have hprovided : name ∈ p.symbols.templateLocals := List.contains_iff_mem.mp hlocal
      have hmem : name ∈ o.locals := by
        rw [hat.locals, if_pos hstrict] at hprovided
        exact hprovided
      exact ⟨_, rfl, (useLocal_outcome hstrict hprovided hat hupvar).imp fun F hF =>
        .provided hfind hstrict hmem hF⟩
    · replace hloose : o.strict = false := by simpa using hloose
      cases hsite : site.resolution? simple with
      | none =>
        rw [hsite] at h
        exact (run_throw_ok.mp h).elim
      | some resolution =>
        rw [hsite] at h
        simp only [run_bind_ok, run_pure_ok] at h
        obtain ⟨upvar, r, hupvar, rfl, rfl⟩ := h
        exact ⟨_, rfl, (free_outcome hloose hat hupvar).imp fun F hF =>
          .loose hfind hloose hsite hF⟩

theorem path_outcome {site : Site} {path : Template.Path} {e : Expr} (hat : At o env p)
    (h : (Resolved.path o site path).run p = .ok e q) :
    Outcome o (fun F => ResolvesExpr o F env site (.path path) e) [] p q := by
  rw [Resolved.path] at h
  cases hhead : path.head with
  | this =>
    simp only [hhead, run_bind_ok, run_pure_ok] at h
    obtain ⟨_, _, ⟨rfl, rfl⟩, rfl, rfl⟩ := h
    exact Outcome.rfl hat fun F => .path (.this hhead)
  | «at» name =>
    simp only [hhead, run_bind_ok, run_pure_ok] at h
    obtain ⟨slot, _, hslot, _, _, ⟨rfl, rfl⟩, rfl, rfl⟩ := h
    exact (argument_outcome hat hslot).imp fun F hF => .path (.argument hhead hF)
  | var name =>
    simp only [hhead, run_bind_ok, run_pure_ok] at h
    obtain ⟨v, _, hv, rfl, rfl⟩ := h
    obtain ⟨reference, rfl, hout⟩ := resolveName_outcome hat hv
    exact hout.imp fun F hF => .path (.bare hhead hF)

/-- The registered name of a component; it is remembered for the next time. -/
theorem componentName_outcome {tag name : String} (hat : At o env p)
    (h : (componentName o tag).run p = .ok name q) :
    name = o.registered tag ∧ Outcome o (fun _ => True) [] p q := by
  rw [componentName] at h
  cases hcustomize : o.customize with
  | none =>
    rw [hcustomize] at h
    obtain ⟨rfl, rfl⟩ := run_pure_ok.mp h
    exact ⟨by simp [Settings.registered, hcustomize], Outcome.rfl hat fun _ => trivial⟩
  | some customize =>
    rw [hcustomize] at h
    obtain ⟨_, _, hget, h⟩ := run_bind_ok.mp h
    obtain ⟨rfl, rfl⟩ := run_get_ok.mp hget
    -- A tag that came before has its name from then.
    cases hlookup : p.componentNames.lookup tag with
    | some found =>
      rw [hlookup] at h
      obtain ⟨rfl, rfl⟩ := run_pure_ok.mp h
      obtain ⟨l₁, l₂, heq, -⟩ := List.lookup_eq_some_iff.mp hlookup
      have hmem : (tag, found) ∈ p.componentNames := by rw [heq]; simp
      exact ⟨hat.registered _ hmem, Outcome.rfl hat fun _ => trivial⟩
    | none =>
      rw [hlookup] at h
      obtain ⟨_, _, hset, h⟩ := run_bind_ok.mp h
      obtain ⟨rfl, rfl⟩ := run_pure_ok.mp h
      obtain rfl := run_set_ok.mp hset
      have hname : customize tag = o.registered tag := by simp [Settings.registered, hcustomize]
      refine ⟨hname, Symbols.Advances.refl _, id, fun entry hmem => ?_, fun _ _ => trivial,
        Fresh.nil _ _⟩
      rcases List.mem_append.mp hmem with hmem | hmem
      · exact hat.registered entry hmem
      · rw [List.mem_singleton.mp hmem]
        exact hname

theorem nextCursor_outcome {guid : String} (hat : At o env p)
    (h : nextCursor.run p = .ok guid q) : Outcome o (fun _ => True) [] p q := by
  obtain ⟨-, rfl⟩ := run_modifyGet_ok.mp h
  exact ⟨Symbols.Advances.refl _, id, hat.registered, fun _ _ => trivial, Fresh.nil _ _⟩

/-! ### Forms of calls -/

theorem checkNamed_ok {label : String} {allowed : List String} {hash : Template.Hash Template.Expr}
    {u : Unit} (h : (checkNamed label allowed hash).run p = .ok u q) :
    p = q ∧ Takes allowed hash := by
  rw [checkNamed] at h
  split at h
  · rename_i hfind
    refine ⟨(run_pure_ok.mp h).2, fun pair hmem => ?_⟩
    simpa using List.find?_eq_none.mp hfind pair hmem
  · exact (run_throw_ok.mp h).elim

theorem askedBlock_outcome {label : String} {params : List Template.Expr} {slot : Nat}
    (hat : At o env p) (h : (askedBlock label params).run p = .ok slot q) :
    Outcome o (fun F => AsksFor F params slot) [] p q := by
  unfold askedBlock at h
  split at h
  · exact (namedBlock_outcome hat h).imp fun F hF => .default hF
  · exact (namedBlock_outcome hat h).imp fun F hF => .named hF
  · exact (run_throw_ok.mp h).elim

end

end TemplateCompiler.Resolved
