/-
Block parameters can be renamed.

A template and the template with one parameter of one block renamed are walked side
by side.  The two walks give the same numbers to everything, so they come to the
same program, and only the name in the slot of the parameter differs.

* `Twin` — two walks that have come to twin tables;
* `Follows` — if one step succeeds so does the other, with a result that cannot be
  told apart, and the walks stay in step;
* `statements_follow` — statements in the scope of the parameter, or hidden from it;
* `renames_follow` — statements with the block among them;
* `Template.resolve_renames` — a template with a renamed parameter resolves, and to the
  same program but for one symbol.

Design notes: before the block the walks are the same; in the block and after it
their tables are twins.  What holds before and what holds after is a parameter of
`Follows`, so that a form with two branches is settled once, whichever branch the
block is in.
-/
import TemplateCompiler.Proofs.Resolved.Agreement
import TemplateCompiler.Proofs.Scope.Renaming
import TemplateCompiler.Proofs.Wire.Formatting

namespace TemplateCompiler.Resolved

open Template (Pair Hash Call MustacheTag BlockTag ConcatPart AttrValue StartTag Statement renamed
  renameExprs renamePairs renameExprs_eq renamePairs_eq renameTag hasBareHead PlainName
  renameStatements renameBlock renameOther exprsHeads pairsHeads statementsNames blockNames
  otherNames Renames)
open Symbols (Twins)

/-! ### Walks in step -/

/-- Two walks that have come to twin tables, and to the same in all else. -/
def Twin (ρ : List String → List String → Prop) (fs fs' : List Frame) (p p' : Progress) : Prop :=
  Twins ρ fs fs' p.symbols p'.symbols ∧ p' = { p with symbols := p'.symbols }

theorem Twin.rel_mono {ρ ρ' : List String → List String → Prop} {fs fs' : List Frame}
    {p p' : Progress} (h : Twin ρ fs fs' p p')
    (hρ : ∀ names names', ρ names names' → ρ' names names') : Twin ρ' fs fs' p p' :=
  ⟨h.1.rel_mono hρ, h.2⟩

section

variable {α β γ δ : Type} {P : Progress → Progress → Prop}

/-- From walks in step as `P` says, if `x` succeeds then `y` does, the results are
the same under `f`, and the walks are in step as `Q` says of the result. -/
def Follows (P : Progress → Progress → Prop) (Q : α → Progress → Progress → Prop) (f : α → γ)
    (x y : Walk α) : Prop :=
  ∀ p p' a q, P p p' → x.run p = .ok a q →
    ∃ b q', y.run p' = .ok b q' ∧ f a = f b ∧ Q a q q'

/-- The walks stay in step. -/
abbrev Keeps (P : Progress → Progress → Prop) (f : α → γ) (x y : Walk α) : Prop :=
  Follows P (fun _ => P) f x y

theorem Follows.pure {Q : α → Progress → Progress → Prop} {f : α → γ} {a b : α} (h : f a = f b)
    (hQ : ∀ p p', P p p' → Q a p p') : Follows P Q f (Pure.pure a : Walk α) (Pure.pure b) := by
  intro p p' c q hp hrun
  obtain ⟨rfl, rfl⟩ := run_pure_ok.mp hrun
  exact ⟨b, p', rfl, h, hQ p p' hp⟩

/-- A result that the walks leave behind them as they are. -/
theorem Keeps.pure {f : α → γ} {a b : α} (h : f a = f b) :
    Keeps P f (Pure.pure a : Walk α) (Pure.pure b) :=
  Follows.pure h fun _ _ => id

/-- A step that fails is followed by any other. -/
theorem Follows.throw {Q : α → Progress → Progress → Prop} {f : α → γ} {fault : Fault}
    {y : Walk α} : Follows P Q f (MonadExcept.throw fault : Walk α) y :=
  fun _ _ _ _ _ hrun => (run_throw_ok.mp hrun).elim

theorem Follows.throw_bind {Q : β → Progress → Progress → Prop} {f : β → γ} {fault : Fault}
    {k : α → Walk β} {y : Walk β} :
    Follows P Q f ((MonadExcept.throw fault : Walk α) >>= k) y := by
  intro p p' a q hp hrun
  obtain ⟨_, _, hthrow, -⟩ := run_bind_ok.mp hrun
  exact (run_throw_ok.mp hthrow).elim

theorem Follows.bind {Q : α → Progress → Progress → Prop} {R : β → Progress → Progress → Prop}
    {f : α → γ} {g : β → δ} {x y : Walk α} {k l : α → Walk β} (h : Follows P Q f x y)
    (hk : ∀ a b, f a = f b → Follows (Q a) R g (k a) (l b)) :
    Follows P R g (x >>= k) (y >>= l) := by
  intro p p' c q hp hrun
  obtain ⟨a, r, hx, hrun⟩ := run_bind_ok.mp hrun
  obtain ⟨b, r', hy, hab, hr⟩ := h p p' a r hp hx
  obtain ⟨d, q', hl, hcd, hq⟩ := hk a b hab r r' c q hr hrun
  exact ⟨d, q', run_bind_ok.mpr ⟨b, r', hy, hl⟩, hcd, hq⟩

theorem Follows.imp {Q Q' : α → Progress → Progress → Prop} {f : α → γ} {x y : Walk α}
    (h : Follows P Q f x y) (hQ : ∀ a p p', Q a p p' → Q' a p p') : Follows P Q' f x y := by
  intro p p' a q hp hrun
  obtain ⟨b, q', hy, hab, hq⟩ := h p p' a q hp hrun
  exact ⟨b, q', hy, hab, hQ a q q' hq⟩

theorem Follows.ite {Q : α → Progress → Progress → Prop} {f : α → γ} {c : Prop} [Decidable c]
    {x y x' y' : Walk α} (h : c → Follows P Q f x y) (h' : ¬c → Follows P Q f x' y') :
    Follows P Q f (if c then x else x') (if c then y else y') := by
  split
  · next hc => exact h hc
  · next hc => exact h' hc

/-- What is known of the walks beside how they are in step. -/
theorem Follows.and {Q : α → Progress → Progress → Prop} {f : α → γ} {x y : Walk α} {C : Prop}
    (h : C → Follows P Q f x y) : Follows (fun p p' => P p p' ∧ C) Q f x y :=
  fun p p' a q hp hrun => h hp.2 p p' a q hp.1 hrun

/-- A step made for each member of a list. -/
theorem Keeps.mapM {ε : Type} {f : β → γ} {k l : ε → Walk β} {g : ε → ε} {as : List ε}
    (h : ∀ a ∈ as, Keeps P f (k a) (l (g a))) :
    Keeps P (List.map f) (as.mapM k) ((as.map g).mapM l) := by
  induction as with
  | nil => exact Keeps.pure rfl
  | cons a as ih =>
    rw [List.map_cons, List.mapM_cons, List.mapM_cons]
    refine (h a List.mem_cons_self).bind fun b b' hb =>
      (ih fun a' ha' => h a' (List.mem_cons_of_mem _ ha')).bind fun bs bs' hbs => Keeps.pure ?_
    rw [List.map_cons, List.map_cons, hb, hbs]

end

/-! ### Steps that read no names -/

section

variable {o : Settings} {P : Progress → Progress → Prop}

theorem checkNamed_follows (r : String → String) (label label' : String) (allowed : List String)
    (pairs : List (Pair Template.Expr)) (span span' : Span) :
    Keeps P id (checkNamed label allowed ⟨pairs, span⟩)
      (checkNamed label' allowed ⟨renamePairs r pairs, span'⟩) := by
  unfold checkNamed
  simp only [renamePairs_eq, List.find?_map, Function.comp_def]
  cases pairs.find? fun pair => !allowed.contains pair.key with
  | none => exact Keeps.pure rfl
  | some pair => exact .throw

theorem yieldTarget_follows (r : String → String) (call : Call Template.Expr) :
    Keeps P id (yieldTarget call.hash) (yieldTarget (call.rename r).hash) := by
  unfold yieldTarget
  rw [Call.get?_rename]
  cases call.hash.get? "to" with
  | none => exact Keeps.pure rfl
  | some pair =>
    obtain ⟨key, value, span⟩ := pair
    rw [Option.map_some]
    cases value with
    | path | sub => exact .throw
    | literal value span =>
      rw [Template.Expr.rename]
      cases value with
      | string name => exact Keeps.pure rfl
      | number | boolean | null | undefined => exact .throw

theorem namedBlockName_follows (r : String → String) (seen : List String) {tag : StartTag}
    (hname : renameTag r tag.name = tag.name) (span span' : Span) :
    Keeps P id (namedBlockName seen tag span) (namedBlockName seen (tag.rename r) span') := by
  have hattributes : (tag.rename r).attributes.isEmpty = tag.attributes.isEmpty := by
    rw [StartTag.rename, List.isEmpty_map]
  have hmodifiers : (tag.rename r).modifiers.isEmpty = tag.modifiers.isEmpty := by
    rw [StartTag.rename, List.isEmpty_map]
  have hsame : (tag.rename r).name = tag.name := hname
  unfold namedBlockName
  simp only [hattributes, hmodifiers, hsame]
  exact .ite (fun _ => .throw_bind) fun _ => .ite (fun _ => .throw_bind) fun _ =>
    .ite (fun _ => .throw_bind) fun _ => Keeps.pure rfl

/-- A plain element with parameters is refused. -/
theorem plainElement_refuses {Q : Content → Progress → Progress → Prop}
    {f : Content → List Wire.Statement} {tag : StartTag} (h : tag.blockParams ≠ []) {span : Span}
    {body : Walk (List Content)} {y : Walk Content} :
    Follows P Q f (plainElement o tag span body) y := by
  unfold plainElement
  cases tag.attributes.find? fun attr => isArgumentName attr.name with
  | some attr => exact .throw_bind
  | none =>
    simp only [show (!tag.blockParams.isEmpty) = true by simpa using h, if_true]
    exact .throw_bind

/-- Two branches that are both missing, or of which the second follows the first.
What the walks have come to is said of the slots of the blocks so far. -/
inductive OthersFollow (Q R : List (List Nat) → Progress → Progress → Prop) :
    Option Branch → Option Branch → Prop
  | none (h : ∀ blocks p p', Q blocks p p' → R blocks p p') : OthersFollow Q R none none
  | some {x y : Branch}
    (h : ∀ blocks, Follows (Q blocks) (fun b => R (blocks ++ blockParams b)) encodeBlock x.resolve
      y.resolve) : OthersFollow Q R (some x) (some y)

variable {Q R : List (List Nat) → Progress → Progress → Prop} {program program' : Branch}
  {inverse inverse' : Option Branch}

theorem otherBlock_follows (h : OthersFollow Q R inverse inverse') (blocks : List (List Nat)) :
    Follows (Q blocks) (fun other => R (blocks ++ otherParams other)) encodeOther
      (otherBlock inverse) (otherBlock inverse') := by
  cases h with
  | none h =>
    refine Follows.pure rfl fun p p' hp => ?_
    simpa only [otherParams, List.append_nil] using h blocks p p' hp
  | some h =>
    refine (h blocks).bind fun b b' hb => Follows.pure ?_ fun p p' hp => ?_
    · rw [encodeOther, encodeOther, hb]
    · simpa only [otherParams] using hp

theorem namedBranches_follow
    (hprogram : Follows P (fun b => Q (blockParams b)) encodeBlock program.resolve program'.resolve)
    (hinverse : OthersFollow Q R inverse inverse') :
    Follows P (fun blocks => R (namedBlockParams blocks)) encodeBlocks
      (namedBranches program inverse) (namedBranches program' inverse') := by
  refine hprogram.bind fun b b' hb => ?_
  cases hinverse with
  | none h =>
    refine Follows.pure (by simp only [encodeBlocks, hb]) fun p p' hp => ?_
    simpa only [namedBlockParams, List.append_nil] using h _ p p' hp
  | some h =>
    refine (h _).bind fun c c' hc => Follows.pure (by simp only [encodeBlocks, hb, hc])
      fun p p' hp => ?_
    simpa only [namedBlockParams, List.append_nil] using hp

/-- A form without another branch. -/
theorem Follows.checkNoInverse {α γ : Type} {S : α → Progress → Progress → Prop} {f : α → γ}
    {label label' : String} {k l : Unit → Walk α}
    (h : OthersFollow Q R inverse inverse')
    (hk : (∀ blocks q q', Q blocks q q' → R blocks q q') → Follows P S f (k ()) (l ())) :
    Follows P S f (Resolved.checkNoInverse label inverse >>= k)
      (Resolved.checkNoInverse label' inverse' >>= l) := by
  cases h with
  | none h => exact Follows.bind (f := id) (Keeps.pure rfl) fun _ _ _ => hk h
  | some h => exact .throw_bind

end

section

variable {o : Settings} {x y : String} {active : Bool} {ρ : List String → List String → Prop}
  {fs fs' : List Frame}

/-! ### Symbols -/

theorem onSymbols_keeps {α : Type} {f : Symbols → α × Symbols}
    (hf : ∀ s s', Twins ρ fs fs' s s' → (f s).1 = (f s').1 ∧ Twins ρ fs fs' (f s).2 (f s').2) :
    Keeps (Twin ρ fs fs') id (onSymbols f) (onSymbols f) := by
  intro p p' a q hp hrun
  obtain ⟨rfl, rfl⟩ := run_onSymbols_ok.mp hrun
  obtain ⟨hsame, htwins⟩ := hf _ _ hp.1
  exact ⟨_, _, rfl, hsame, htwins, by rw [hp.2]⟩

/-- The symbols so far are read in both walks. -/
theorem Follows.getSymbols {α γ : Type} {Q : α → Progress → Progress → Prop} {f : α → γ}
    {k l : Symbols → Walk α}
    (h : ∀ s s', Twins ρ fs fs' s s' → Follows (Twin ρ fs fs') Q f (k s) (l s')) :
    Follows (Twin ρ fs fs') Q f (getSymbols >>= k) (getSymbols >>= l) := by
  intro p p' a q hp hrun
  obtain ⟨s, r, hs, hrun⟩ := run_bind_ok.mp hrun
  obtain ⟨rfl, rfl⟩ := run_getSymbols_ok.mp hs
  obtain ⟨b, q', hl, hab, hq⟩ := h _ _ hp.1 p p' a q hp hrun
  exact ⟨b, q', run_bind_ok.mpr ⟨p'.symbols, p', rfl, hl⟩, hab, hq⟩

theorem nextCursor_keeps : Keeps (Twin ρ fs fs') id nextCursor nextCursor := by
  intro p p' a q hp hrun
  obtain ⟨rfl, rfl⟩ := run_modifyGet_ok.mp hrun
  exact ⟨_, _, rfl, by rw [hp.2], hp.1, by rw [hp.2]⟩

theorem componentName_keeps (tag : String) :
    Keeps (Twin ρ fs fs') id (componentName o tag) (componentName o tag) := by
  intro p p' a q hp hrun
  have hnames : p'.componentNames = p.componentNames := by rw [hp.2]
  rw [componentName] at hrun ⊢
  cases hcustom : o.customize with
  | none =>
    rw [hcustom] at hrun
    obtain ⟨rfl, rfl⟩ := run_pure_ok.mp hrun
    exact ⟨_, p', rfl, rfl, hp⟩
  | some customize =>
    rw [hcustom] at hrun
    obtain ⟨_, _, hget, hrun⟩ := run_bind_ok.mp hrun
    obtain ⟨rfl, rfl⟩ := run_get_ok.mp hget
    -- The table of names is the same in both walks, so a name is found in both or in none.
    cases hfound : p.componentNames.lookup tag with
    | some name =>
      rw [hfound] at hrun
      obtain ⟨rfl, rfl⟩ := run_pure_ok.mp hrun
      exact ⟨_, p', run_bind_ok.mpr ⟨p', p', rfl, by rw [hnames, hfound]; rfl⟩, rfl, hp⟩
    | none =>
      simp only [hfound, run_bind_ok, run_set_ok, run_pure_ok] at hrun
      obtain ⟨_, _, rfl, rfl, rfl⟩ := hrun
      refine ⟨customize tag,
        { p' with componentNames := p.componentNames ++ [(tag, customize tag)] },
        run_bind_ok.mpr ⟨p', p', rfl, by rw [hnames, hfound]; rfl⟩, rfl, hp.1, ?_⟩
      rw [hp.2]

theorem isTemplateLocal_twins {s s' : Symbols} (h : Twins ρ fs fs' s s') (name : String) :
    s'.isTemplateLocal name = s.isTemplateLocal name := by
  rw [h.same]
  rfl

/-- A name is bound in both walks or in none. -/
theorem isBound_twins {s s' : Symbols} (h : Twins ρ fs fs' s s')
    (hm : ScopesMatch x y active fs fs') {name : String} (hname : name ≠ y) :
    isBound o s' (renamed x y active name) = isBound o s name := by
  rw [isBound, isBound, h.lookup? hm hname]
  by_cases hx : active = true ∧ name = x
  · rw [hx.2, h.lookup?_isSome hm hx.1, Bool.true_or, Bool.true_or]
  · have hrenamed : renamed x y active name = name := by simp [renamed, hx]
    rw [hrenamed, isTemplateLocal_twins h]

/-- The head of a tag is in scope in both walks or in none. -/
theorem tagInScope_twins {s s' : Symbols} (hs : Twins ρ fs fs' s s')
    (hm : ScopesMatch x y active fs fs') (hy : PlainName y) {name : String}
    (hname : (tagPath name).1 ≠ y) (hblock : isBlockName name = false) :
    tagInScope o s' (tagPath (renameTag (renamed x y active) name)).1
      = tagInScope o s (tagPath name).1 := by
  have hbound := isBound_twins (o := o) hs hm hname
  obtain ⟨rfl, -, hx, hpath⟩ | ⟨hsame, hbare⟩ := Template.renameTag_cases (x := x) hy active name
  · have hin : isBound o s x = true := by
      rw [isBound, hs.lookup?_isSome hm rfl, Bool.true_or]
    rw [hx, Template.renamed_self] at hbound
    rw [hpath, hx, tagInScope, tagInScope, hbound, hin, Bool.or_true, Bool.or_true]
  · rw [hsame, tagInScope, tagInScope]
    cases hhead : hasBareHead name with
    | true => rw [← hbound, hbare hhead]
    | false =>
      have hfixed : (isArgumentName (tagPath name).1 || (tagPath name).1 == "this") = true := by
        rwa [hasBareHead, hblock, Bool.false_or, Bool.not_eq_false'] at hhead
      rw [hfixed, Bool.true_or, Bool.true_or]

variable (hρ : Extends ρ) (hm : ScopesMatch x y active fs fs')

/-! ### Values -/

include hm in
theorem resolveName_follows {site : Site} {simple : Bool} {written written' name : String}
    {span span' : Span} (hname : name ≠ y) :
    Keeps (Twin ρ fs fs') Variable.reference (resolveName o site simple written name span)
      (resolveName o site simple written' (renamed x y active name) span') := by
  refine Follows.getSymbols fun s s' hs => ?_
  rw [hs.lookup? hm hname]
  cases hfound : s.lookup? name with
  | some slot => exact Keeps.pure rfl
  | none =>
    -- The parameter itself is bound, so this name is spelled alike in both walks.
    have hrenamed : renamed x y active name = name := by
      have hx : ¬(active = true ∧ name = x) := by
        rintro ⟨hactive, rfl⟩
        simpa [hfound] using hs.lookup?_isSome hm hactive
      simp [renamed, hx]
    simp only [hrenamed, isTemplateLocal_twins hs]
    refine .ite (fun _ => .ite (fun _ => ?_) fun _ => .throw) fun _ => ?_
    · refine (onSymbols_keeps fun s s' h => h.useLocal name).bind fun upvar upvar' hupvar => ?_
      exact Keeps.pure (by rw [show upvar = upvar' from hupvar])
    · cases site.resolution? simple with
      | some resolution =>
        refine (onSymbols_keeps fun s s' h => h.free name).bind fun upvar upvar' hupvar => ?_
        exact Keeps.pure (by rw [show upvar = upvar' from hupvar])
      | none => exact .throw

include hρ hm in
theorem path_follows (site : Site) {p : Template.Path} (hp : y ∉ p.heads) :
    Keeps (Twin ρ fs fs') Expr.encode (path o site p)
      (path o site (p.rename (renamed x y active))) := by
  unfold path Template.Path.rename
  rw [Template.Path.heads] at hp
  cases hhead : p.head with
  | this => exact (Keeps.pure rfl).bind fun v w h => Keeps.pure (encode_path_congr h _ _ _)
  | «at» name =>
    refine (onSymbols_keeps fun s s' h => h.programSlot hρ ("@" ++ name)).bind
      fun slot slot' hslot => ?_
    refine Follows.bind (f := Variable.reference) (Keeps.pure ?_) fun v w h =>
      Keeps.pure (encode_path_congr h _ _ _)
    rw [show slot = slot' from hslot]
  | var name =>
    rw [hhead] at hp
    refine (resolveName_follows hm fun h => hp (by simp [h])).bind fun v w h => ?_
    exact Keeps.pure (encode_path_congr h _ _ _)

include hm in
theorem keywordName?_follows {callee : Template.Expr} (hcallee : y ∉ callee.heads) :
    Keeps (Twin ρ fs fs') id (keywordName? o callee)
      (keywordName? o (callee.rename (renamed x y active))) := by
  refine Follows.getSymbols fun s s' hs => ?_
  cases callee with
  | sub call span =>
    rw [Template.Expr.rename]
    exact Keeps.pure rfl
  | literal value span =>
    rw [Template.Expr.rename]
    exact Keeps.pure rfl
  | path p =>
    rw [Template.Expr.rename]
    refine Keeps.pure ?_
    obtain ⟨head, tail, written, span⟩ := p
    cases head with
    | this => rfl
    | «at» name => rfl
    | var name =>
      have hname : name ≠ y := fun h =>
        hcallee (by simp [Template.Expr.heads, Template.Path.heads, h])
      cases tail with
      | cons property tail => rfl
      | nil =>
        simp only [id_eq, Template.Path.rename, Template.Path.simpleName?, Option.filter_some,
          isBound_twins hs hm hname]
        -- The renamed parameter is bound in both walks, and a bound name is no keyword.
        by_cases hx : active = true ∧ name = x
        · have hbound : isBound o s name = true := by
            rw [isBound, hx.2, hs.lookup?_isSome hm hx.1, Bool.true_or]
          simp [hbound]
        · simp [renamed, hx]

include hm in
theorem callKeyword?_follows {callee : Template.Expr} (hcallee : y ∉ callee.heads) :
    Keeps (Twin ρ fs fs') id (callKeyword? o callee)
      (callKeyword? o (callee.rename (renamed x y active))) :=
  (keywordName?_follows hm hcallee).bind fun name name' hname =>
    Keeps.pure (by rw [show name = name' from hname])

include hρ in
theorem askedBlock_follows (r : String → String) (label label' : String)
    (params : List Template.Expr) :
    Keeps (Twin ρ fs fs') id (askedBlock label params)
      (askedBlock label' (renameExprs r params)) := by
  match params with
  | [] =>
    rw [renameExprs]
    exact onSymbols_keeps fun s s' h => h.programSlot hρ _
  | .path _ :: _ | .sub _ _ :: _ => exact .throw
  | .literal value _ :: _ =>
    rw [renameExprs, Template.Expr.rename]
    cases value with
    | string name => exact onSymbols_keeps fun s s' h => h.programSlot hρ _
    | number | boolean | null | undefined => exact .throw

mutual

/-- An expression is resolved alike in both walks. -/
theorem expr_follows (hρ : Extends ρ) (hm : ScopesMatch x y active fs fs')
    (site : Site) (e : Template.Expr) (he : y ∉ e.heads) :
    Keeps (Twin ρ fs fs') Expr.encode (expr o site e)
      (expr o site (e.rename (renamed x y active))) := by
  match e with
  | .literal value span =>
    rw [Template.Expr.rename]
    exact Keeps.pure rfl
  | .path p =>
    rw [Template.Expr.rename, expr, expr]
    exact path_follows hρ hm site (by simpa [Template.Expr.heads] using he)
  | .sub call span =>
    rw [Template.Expr.heads_sub] at he
    have hcallee : y ∉ call.callee.heads := by
      simp only [Call.heads, List.mem_append, not_or] at he
      exact he.1.1
    rw [Template.Expr.rename_sub, expr, expr]
    refine (callKeyword?_follows hm hcallee).bind fun keyword keyword' hkeyword => ?_
    obtain rfl : keyword = keyword' := hkeyword
    cases keyword with
    | some keyword => exact keywordCall_follows hρ hm keyword _ _ _ _ call he
    | none => exact callOf_follows hρ hm .sub _ _ call he

theorem arguments_follow (hρ : Extends ρ) (hm : ScopesMatch x y active fs fs')
    (params : List Template.Expr) (hparams : y ∉ exprsHeads params) :
    Keeps (Twin ρ fs fs') encodeExprs (arguments o params)
      (arguments o (renameExprs (renamed x y active) params)) := by
  match params with
  | [] =>
    rw [renameExprs]
    exact Keeps.pure rfl
  | param :: rest =>
    simp only [exprsHeads, List.mem_append, not_or] at hparams
    rw [renameExprs, arguments, arguments]
    refine (expr_follows hρ hm .argument param hparams.1).bind fun e e' he =>
      (arguments_follow hρ hm rest hparams.2).bind fun es es' hes => Keeps.pure ?_
    rw [encodeExprs, encodeExprs, he, hes]

theorem namedArguments_follow (hρ : Extends ρ) (hm : ScopesMatch x y active fs fs')
    (pairs : List (Pair Template.Expr)) (hpairs : y ∉ pairsHeads pairs) :
    Keeps (Twin ρ fs fs') encodeNamed (namedArguments o pairs)
      (namedArguments o (renamePairs (renamed x y active) pairs)) := by
  match pairs with
  | [] =>
    rw [renamePairs]
    exact Keeps.pure rfl
  | ⟨key, value, span⟩ :: rest =>
    simp only [pairsHeads, List.mem_append, not_or] at hpairs
    rw [renamePairs, namedArguments, namedArguments]
    refine (expr_follows hρ hm .argument value hpairs.1).bind fun e e' he =>
      (namedArguments_follow hρ hm rest hpairs.2).bind fun named named' hnamed => Keeps.pure ?_
    rw [encodeNamed, encodeNamed, he, hnamed]

theorem callOf_follows (hρ : Extends ρ) (hm : ScopesMatch x y active fs fs')
    (site : Site) (span span' : Span) (call : Call Template.Expr)
    (hcall : y ∉ call.heads) :
    Keeps (Twin ρ fs fs') Expr.encode (callOf o site span call)
      (callOf o site span' (call.rename (renamed x y active))) := by
  match call with
  | ⟨callee, params, ⟨pairs, hashSpan⟩⟩ =>
    simp only [Call.heads, List.mem_append, not_or] at hcall
    rw [Call.rename, callOf, callOf]
    refine (expr_follows hρ hm site callee hcall.1.1).bind fun e e' he =>
      (arguments_follow hρ hm params hcall.1.2).bind fun es es' hes =>
      (namedArguments_follow hρ hm pairs hcall.2).bind fun named named' hnamed => Keeps.pure ?_
    rw [Expr.encode, Expr.encode, he, hes, hnamed]

theorem definitionOf_follows (hρ : Extends ρ) (hm : ScopesMatch x y active fs fs')
    (label label' : String) (span span' : Span)
    (params : List Template.Expr) (hparams : y ∉ exprsHeads params) :
    Keeps (Twin ρ fs fs') encodeDefinition (definitionOf o label span params)
      (definitionOf o label' span' (renameExprs (renamed x y active) params)) := by
  match params with
  | [] => exact .throw
  | definition :: rest =>
    simp only [exprsHeads, List.mem_append, not_or] at hparams
    rw [renameExprs, definitionOf, definitionOf, Template.Expr.isLiteral_rename]
    refine .ite (fun _ => .throw_bind) fun _ => ?_
    refine (expr_follows hρ hm .argument definition hparams.1).bind fun e e' he =>
      (arguments_follow hρ hm rest hparams.2).bind fun es es' hes => Keeps.pure ?_
    rw [encodeDefinition, encodeDefinition, he, hes]

theorem inlineBranch_follows (hρ : Extends ρ) (hm : ScopesMatch x y active fs fs')
    (negated : Bool) (label label' : String) (span span' : Span)
    (pairs : List (Pair Template.Expr)) (hashSpan hashSpan' : Span)
    (params : List Template.Expr) (hparams : y ∉ exprsHeads params) :
    Keeps (Twin ρ fs fs') Expr.encode
      (inlineBranch o negated label span ⟨pairs, hashSpan⟩ params)
      (inlineBranch o negated label' span' ⟨renamePairs (renamed x y active) pairs, hashSpan'⟩
        (renameExprs (renamed x y active) params)) := by
  match params with
  | [condition, truthy] =>
    simp only [exprsHeads, List.mem_append, not_or] at hparams
    simp only [renameExprs, inlineBranch]
    refine (checkNamed_follows _ label label' [] pairs _ _).bind fun _ _ _ =>
      (expr_follows hρ hm .argument condition hparams.1).bind fun c c' hc =>
      (expr_follows hρ hm .argument truthy hparams.2.1).bind fun e e' he => Keeps.pure ?_
    rw [Expr.encode, Expr.encode, conditionOf_encode negated hc, he, encodeOption]
  | [condition, truthy, falsy] =>
    simp only [exprsHeads, List.mem_append, not_or] at hparams
    simp only [renameExprs, inlineBranch]
    refine (checkNamed_follows _ label label' [] pairs _ _).bind fun _ _ _ =>
      (expr_follows hρ hm .argument condition hparams.1).bind fun c c' hc =>
      (expr_follows hρ hm .argument truthy hparams.2.1).bind fun e e' he =>
      (expr_follows hρ hm .argument falsy hparams.2.2.1).bind fun d d' hd => Keeps.pure ?_
    rw [Expr.encode, Expr.encode, conditionOf_encode negated hc, he, encodeOption, encodeOption, hd]
  | [] | [_] | _ :: _ :: _ :: _ :: _ => exact .throw

theorem dynamicVar_follows (hρ : Extends ρ) (hm : ScopesMatch x y active fs fs')
    (label label' : String) (span span' : Span)
    (pairs : List (Pair Template.Expr)) (hashSpan hashSpan' : Span)
    (params : List Template.Expr) (hparams : y ∉ exprsHeads params) :
    Keeps (Twin ρ fs fs') Expr.encode (dynamicVar o label span ⟨pairs, hashSpan⟩ params)
      (dynamicVar o label' span' ⟨renamePairs (renamed x y active) pairs, hashSpan'⟩
        (renameExprs (renamed x y active) params)) := by
  match params with
  | [name] =>
    simp only [exprsHeads, List.mem_append, not_or] at hparams
    simp only [renameExprs, dynamicVar]
    refine (checkNamed_follows _ label label' [] pairs _ _).bind fun _ _ _ =>
      (expr_follows hρ hm .argument name hparams.1).bind fun e e' he => Keeps.pure ?_
    rw [Expr.encode, Expr.encode, he]
  | [] | _ :: _ :: _ => exact .throw

theorem keywordCall_follows (hρ : Extends ρ) (hm : ScopesMatch x y active fs fs')
    (keyword : CallKeyword) (label label' : String) (span span' : Span)
    (call : Call Template.Expr) (hcall : y ∉ call.heads) :
    Keeps (Twin ρ fs fs') Expr.encode (keywordCall o keyword label span call)
      (keywordCall o keyword label' span' (call.rename (renamed x y active))) := by
  match call with
  | ⟨callee, params, ⟨pairs, hashSpan⟩⟩ =>
    simp only [Call.heads, List.mem_append, not_or] at hcall
    obtain ⟨⟨-, hparams⟩, hpairs⟩ := hcall
    -- Renaming keeps how many arguments there are, and which names are given.
    have hlength : (renameExprs (renamed x y active) params).length = params.length := by
      rw [renameExprs_eq, List.length_map]
    have hnamed := checkNamed_follows (P := Twin ρ fs fs') (renamed x y active) label label' []
      pairs hashSpan hashSpan
    unfold keywordCall Call.rename
    cases keyword with
    | branch negated =>
      exact inlineBranch_follows hρ hm negated label label' _ _ pairs _ _ params hparams
    | hasBlock =>
      simp only [hlength]
      refine .ite (fun _ => .throw_bind) fun _ => hnamed.bind fun _ _ _ =>
        (askedBlock_follows hρ _ label label' params).bind fun slot slot' hslot => Keeps.pure ?_
      rw [Expr.encode, Expr.encode, show slot = slot' from hslot]
    | hasBlockParams =>
      simp only [hlength]
      refine .ite (fun _ => .throw_bind) fun _ => hnamed.bind fun _ _ _ =>
        (askedBlock_follows hρ _ label label' params).bind fun slot slot' hslot => Keeps.pure ?_
      rw [Expr.encode, Expr.encode, show slot = slot' from hslot]
    | curry kind =>
      refine (definitionOf_follows hρ hm label label' _ _ params hparams).bind
        fun value value' hvalue => (namedArguments_follow hρ hm pairs hpairs).bind
        fun named named' hnamed => Keeps.pure ?_
      obtain ⟨he, hes⟩ := Prod.mk.inj hvalue
      rw [Expr.encode, Expr.encode, he, hes, hnamed]
    | log =>
      refine hnamed.bind fun _ _ _ =>
        (arguments_follow hρ hm params hparams).bind fun es es' hes => Keeps.pure ?_
      rw [Expr.encode, Expr.encode, hes]
    | getDynamicVar => exact dynamicVar_follows hρ hm label label' _ _ pairs _ _ params hparams

end

include hρ hm

theorem dynamicCall_follows (label label' : String) (span span' : Span)
    {call : Call Template.Expr} (hcall : y ∉ call.heads) :
    Keeps (Twin ρ fs fs') encodeDynamic (dynamicCall o label span call)
      (dynamicCall o label' span' (call.rename (renamed x y active))) := by
  simp only [Call.heads, List.mem_append, not_or] at hcall
  unfold dynamicCall Call.rename
  refine (definitionOf_follows hρ hm label label' _ _ call.params hcall.1.2).bind
    fun value value' hvalue => (namedArguments_follow hρ hm call.hash.pairs hcall.2).bind
    fun named named' hnamed => Keeps.pure ?_
  obtain ⟨he, hes⟩ := Prod.mk.inj hvalue
  rw [encodeDynamic, encodeDynamic, he, hes, hnamed]

theorem optionalNamed_follows (key : String) {call : Call Template.Expr} (hcall : y ∉ call.heads) :
    Keeps (Twin ρ fs fs') encodeOption (optionalNamed o key call.hash)
      (optionalNamed o key (call.rename (renamed x y active)).hash) := by
  unfold optionalNamed
  rw [Call.get?_rename]
  cases hget : call.hash.get? key with
  | none => exact Keeps.pure rfl
  | some pair =>
    refine (expr_follows hρ hm .argument pair.value (Call.get?_heads hget hcall)).bind
      fun e e' he => Keeps.pure ?_
    rw [encodeOption, encodeOption, he]

/-! ### Attributes and modifiers -/

theorem attrMustache_follows {tag : MustacheTag} (htag : y ∉ tag.call.heads) :
    Keeps (Twin ρ fs fs') Expr.encode (attrMustache o tag)
      (attrMustache o (tag.rename (renamed x y active))) := by
  unfold attrMustache MustacheTag.rename
  simp only [Call.isEmpty_params_rename, Call.isEmpty_pairs_rename]
  refine (callKeyword?_follows hm (Call.callee_heads htag)).bind fun keyword keyword' hkeyword => ?_
  obtain rfl : keyword = keyword' := hkeyword
  cases keyword with
  | some keyword => exact keywordCall_follows hρ hm keyword _ _ _ _ tag.call htag
  | none =>
    exact .ite (fun _ => expr_follows hρ hm _ tag.call.callee (Call.callee_heads htag)) fun _ =>
      callOf_follows hρ hm _ _ _ tag.call htag

theorem concatPart_follows {part : ConcatPart} (hpart : y ∉ part.heads) :
    Keeps (Twin ρ fs fs') Expr.encode (concatPart o part)
      (concatPart o (part.rename (renamed x y active))) := by
  cases part with
  | text node => exact Keeps.pure rfl
  | mustache tag => exact attrMustache_follows hρ hm hpart

theorem attrValue_follows {value : AttrValue} (hvalue : y ∉ value.heads) :
    Keeps (Twin ρ fs fs') Expr.encode (attrValue o value)
      (attrValue o (value.rename (renamed x y active))) := by
  cases value with
  | text node => exact Keeps.pure rfl
  | mustache tag => exact attrMustache_follows hρ hm hvalue
  | concat parts span =>
    have hparts : ∀ part ∈ parts, y ∉ part.heads := fun part hpart hy =>
      hvalue (List.mem_flatMap.mpr ⟨part, hpart, hy⟩)
    refine (Keeps.mapM fun part hpart => concatPart_follows hρ hm (hparts part hpart)).bind
      fun es es' hes => Keeps.pure ?_
    rw [Expr.encode, Expr.encode, encodeExprs_eq, encodeExprs_eq, hes]

theorem modifierOf_follows {m : Template.Modifier} (hmodifier : y ∉ m.call.heads) :
    Keeps (Twin ρ fs fs') Modifier.encode (modifierOf o m)
      (modifierOf o (m.rename (renamed x y active))) := by
  simp only [Call.heads, List.mem_append, not_or] at hmodifier
  refine (expr_follows hρ hm .modifier m.call.callee hmodifier.1.1).bind fun e e' he =>
    (arguments_follow hρ hm m.call.params hmodifier.1.2).bind fun es es' hes =>
    (namedArguments_follow hρ hm m.call.hash.pairs hmodifier.2).bind
    fun named named' hnamed => Keeps.pure ?_
  rw [Modifier.encode, Modifier.encode, he, hes, hnamed]

theorem elementAttr_follows {attr : Template.Attr} (hattr : y ∉ attr.value.heads) :
    Keeps (Twin ρ fs fs') Attr.parts (elementAttr o attr)
      (elementAttr o (attr.rename (renamed x y active))) := by
  unfold elementAttr Template.Attr.rename
  refine .ite (fun _ => ?_) fun _ => ?_
  · refine (onSymbols_keeps fun s s' h => h.programSlot hρ _).bind fun slot slot' hslot => ?_
    exact Keeps.pure (by rw [show slot = slot' from hslot])
  · refine (attrValue_follows hρ hm hattr).bind fun e e' he => Keeps.pure ?_
    rw [Attr.parts, Attr.parts, he]
    cases attr.value <;> rfl

theorem componentAttrs_follow {attributes : List Template.Attr}
    (hattributes : ∀ attr ∈ attributes, y ∉ attr.value.heads) :
    Keeps (Twin ρ fs fs') encodeAttrs (componentAttrs o attributes)
      (componentAttrs o (attributes.map (·.rename (renamed x y active)))) := by
  induction attributes with
  | nil => exact Keeps.pure rfl
  | cons attr rest ih =>
    have hattr := hattributes attr List.mem_cons_self
    have hrest := ih fun attr' hattr' => hattributes attr' (List.mem_cons_of_mem _ hattr')
    rw [List.map_cons, componentAttrs, componentAttrs]
    refine .ite (fun _ => ?_) fun _ => ?_
    · refine (attrValue_follows hρ hm hattr).bind fun e e' he => hrest.bind
        fun v v' hv => Keeps.pure ?_
      obtain ⟨hattrs, hargs⟩ := Prod.mk.inj hv
      rw [encodeAttrs, encodeAttrs, hattrs, encodeNamed, encodeNamed, hargs, he]
      rfl
    · refine (elementAttr_follows hρ hm hattr).bind fun a a' ha => hrest.bind
        fun v v' hv => Keeps.pure ?_
      obtain ⟨hattrs, hargs⟩ := Prod.mk.inj hv
      rw [encodeAttrs, encodeAttrs, List.map_cons, List.map_cons, hattrs, hargs, ha]

/-! ### Tags among content -/

theorem appendForm_follows (keyword : AppendKeyword) {tag : MustacheTag}
    (htag : y ∉ tag.call.heads) :
    Keeps (Twin ρ fs fs') Content.encode (appendForm o keyword tag)
      (appendForm o keyword (tag.rename (renamed x y active))) := by
  have hheads := htag
  simp only [Call.heads, List.mem_append, not_or] at hheads
  have hnamed : ∀ label allowed, Keeps (Twin ρ fs fs') id (checkNamed label allowed tag.call.hash)
      (checkNamed label allowed (tag.call.rename (renamed x y active)).hash) :=
    fun label allowed => checkNamed_follows _ label label allowed tag.call.hash.pairs _ _
  cases keyword with
  | yield =>
    refine (hnamed _ _).bind fun _ _ _ => (yieldTarget_follows _ tag.call).bind
      fun name name' hname => ?_
    obtain rfl : name = name' := hname
    refine (onSymbols_keeps fun s s' h => h.programSlot hρ _).bind fun slot slot' hslot =>
      (arguments_follow hρ hm tag.call.params hheads.1.2).bind fun es es' hes => Keeps.pure ?_
    rw [Content.encode, Content.encode, hes, show slot = slot' from hslot]
  | partialCall =>
    refine .ite (fun _ => .throw_bind) fun _ => ?_
    unfold MustacheTag.rename Call.rename
    rcases hparams : tag.call.params with _ | ⟨target, _ | ⟨second, rest⟩⟩
    · exact .throw
    · rw [hparams] at hheads
      simp only [exprsHeads, List.mem_append, not_or] at hheads
      simp only [renameExprs]
      refine (hnamed _ _).bind fun _ _ _ =>
        (expr_follows hρ hm .argument target hheads.1.2.1).bind fun e e' he =>
        (onSymbols_keeps fun s s' h => ⟨rfl, h.markEval⟩).bind fun _ _ _ =>
        Follows.getSymbols fun s s' hs => Keeps.pure ?_
      rw [Content.encode, Content.encode, he, hs.visible hρ hm]
    · exact .throw
  | debugger =>
    unfold appendForm MustacheTag.rename
    simp only [Call.isEmpty_params_rename]
    refine .ite (fun _ => .throw_bind) fun _ => (hnamed _ _).bind fun _ _ _ =>
      (onSymbols_keeps fun s s' h => ⟨rfl, h.markEval⟩).bind fun _ _ _ =>
      Follows.getSymbols fun s s' hs => Keeps.pure ?_
    rw [Content.encode, Content.encode, hs.visible hρ hm]
  | component =>
    refine (dynamicCall_follows hρ hm _ _ _ _ htag).bind fun v v' hv => Keeps.pure ?_
    simp only [encodeDynamic, Prod.mk.injEq] at hv
    rw [Content.encode, Content.encode, hv.1, hv.2.1, hv.2.2]
  | value keyword =>
    refine (keywordCall_follows hρ hm keyword _ _ _ _ tag.call htag).bind
      fun e e' he => Keeps.pure ?_
    rw [Content.encode, Content.encode, he]
    rfl

theorem appendTag_follows {tag : MustacheTag} (htag : y ∉ tag.call.heads) :
    Keeps (Twin ρ fs fs') Content.encode (appendTag o tag)
      (appendTag o (tag.rename (renamed x y active))) := by
  have happend : (∀ keyword, Keeps (Twin ρ fs fs') Content.encode (appendForm o keyword tag)
      (appendForm o keyword (tag.rename (renamed x y active)))) :=
    fun keyword => appendForm_follows hρ hm keyword htag
  unfold appendTag
  simp only [MustacheTag.rename, Call.isEmpty_params_rename, Call.isEmpty_pairs_rename]
  refine (keywordName?_follows hm (Call.callee_heads htag)).bind fun name name' hname => ?_
  obtain rfl : name = name' := hname
  cases name.bind AppendKeyword.ofName? with
  | some keyword => exact happend keyword
  | none =>
    refine .ite (fun _ => ?_) fun _ => ?_
    · refine (expr_follows hρ hm _ tag.call.callee (Call.callee_heads htag)).bind
        fun e e' he => Keeps.pure ?_
      rw [Content.encode, Content.encode, he]
    · refine (callOf_follows hρ hm _ _ _ tag.call htag).bind fun e e' he => Keeps.pure ?_
      rw [Content.encode, Content.encode, he]

/-! ### Blocks -/

section

variable {Q R : List (List Nat) → Progress → Progress → Prop} {program program' : Branch}
  {inverse inverse' : Option Branch}

/-- A block with a keyword. -/
theorem blockForm_follows (keyword : BlockKeyword) {tag : BlockTag} (htag : y ∉ tag.call.heads)
    (hprogram : Follows (Twin ρ fs fs') (fun b => Q (blockParams b)) encodeBlock program.resolve
      program'.resolve)
    (hinverse : OthersFollow Q R inverse inverse') :
    Follows (Twin ρ fs fs') (fun c => R c.blockParams) Content.encode
      (blockForm o keyword tag program inverse)
      (blockForm o keyword { tag with call := tag.call.rename (renamed x y active) } program'
        inverse') := by
  have hheads := htag
  simp only [Call.heads, List.mem_append, not_or] at hheads
  obtain ⟨⟨-, hparams⟩, hpairs⟩ := hheads
  have hempty := Call.isEmpty_params_rename (renamed x y active) tag.call
  have hnone := Call.isEmpty_pairs_rename (renamed x y active) tag.call
  -- The checks see only the keys of named arguments, which stay.
  have hnamed : ∀ label allowed, Keeps (Twin ρ fs fs') id (checkNamed label allowed tag.call.hash)
      (checkNamed label allowed (tag.call.rename (renamed x y active)).hash) :=
    fun label allowed => checkNamed_follows _ label label allowed tag.call.hash.pairs _ _
  have hrename : (tag.call.rename (renamed x y active)).params
      = renameExprs (renamed x y active) tag.call.params := rfl
  unfold blockForm
  cases keyword with
  | branch negated =>
    simp only [hrename]
    rcases hshape : tag.call.params with _ | ⟨condition, _ | ⟨second, rest⟩⟩
    · exact .throw
    · simp only [hshape, exprsHeads, List.mem_append, not_or] at hparams
      simp only [renameExprs]
      refine (hnamed _ _).bind fun _ _ _ =>
        (expr_follows hρ hm .argument condition hparams.1).bind fun e e' he =>
        hprogram.bind fun b b' hb => (otherBlock_follows hinverse _).bind fun c c' hc =>
        Follows.pure ?_ fun p p' hp => by simpa only [Content.blockParams] using hp
      rw [Content.encode, Content.encode, conditionOf_encode negated he, hb, hc]
    · exact .throw
  | each =>
    simp only [hrename]
    rcases hshape : tag.call.params with _ | ⟨value, _ | ⟨second, rest⟩⟩
    · exact .throw
    · simp only [hshape, exprsHeads, List.mem_append, not_or] at hparams
      simp only [renameExprs]
      refine (hnamed _ _).bind fun _ _ _ =>
        (expr_follows hρ hm .argument value hparams.1).bind fun e e' he =>
        (optionalNamed_follows hρ hm "key" htag).bind fun k k' hk =>
        hprogram.bind fun b b' hb => (otherBlock_follows hinverse _).bind fun c c' hc =>
        Follows.pure ?_ fun p p' hp => by simpa only [Content.blockParams] using hp
      rw [Content.encode, Content.encode, he, hk, hb, hc]
    · exact .throw
  | withValue =>
    simp only [hrename]
    rcases hshape : tag.call.params with _ | ⟨value, _ | ⟨second, rest⟩⟩
    · exact .throw
    · simp only [hshape, exprsHeads, List.mem_append, not_or] at hparams
      simp only [renameExprs]
      refine (hnamed _ _).bind fun _ _ _ =>
        (expr_follows hρ hm .argument value hparams.1).bind fun e e' he =>
        hprogram.bind fun b b' hb => (otherBlock_follows hinverse _).bind fun c c' hc =>
        Follows.pure ?_ fun p p' hp => by simpa only [Content.blockParams] using hp
      rw [Content.encode, Content.encode, he, hb, hc]
    · exact .throw
  | letValues =>
    simp only [hempty]
    refine .ite (fun _ => .throw_bind) fun _ => (hnamed _ _).bind fun _ _ _ =>
      Follows.checkNoInverse hinverse fun hQR =>
      (arguments_follow hρ hm tag.call.params hparams).bind fun es es' hes =>
      hprogram.bind fun b b' hb => Follows.pure ?_ fun p p' hp => ?_
    · rw [Content.encode, Content.encode, hes, hb]
    · simpa only [Content.blockParams] using hQR _ p p' hp
  | inElement =>
    simp only [Call.get?_rename]
    cases tag.call.hash.get? "guid" with
    | some pair => exact .throw_bind
    | none =>
      simp only [hrename, Option.map_none]
      rcases hshape : tag.call.params with _ | ⟨destination, _ | ⟨second, rest⟩⟩
      · exact .throw
      · simp only [hshape, exprsHeads, List.mem_append, not_or] at hparams
        simp only [renameExprs]
        refine (hnamed _ _).bind fun _ _ _ => Follows.checkNoInverse hinverse fun hQR =>
          nextCursor_keeps.bind fun guid guid' hguid =>
          (expr_follows hρ hm .argument destination hparams.1).bind fun e e' he =>
          (optionalNamed_follows hρ hm "insertBefore" htag).bind fun k k' hk =>
          hprogram.bind fun b b' hb => Follows.pure ?_ fun p p' hp => ?_
        · rw [Content.encode, Content.encode, he, hk, hb, show guid = guid' from hguid]
        · simpa only [Content.blockParams] using hQR _ p p' hp
      · exact .throw
  | component =>
    refine (dynamicCall_follows hρ hm _ _ _ _ htag).bind fun v v' hv =>
      (namedBranches_follow hprogram hinverse).bind fun bs bs' hbs =>
      Follows.pure ?_ fun p p' hp => by simpa only [Content.blockParams] using hp
    simp only [encodeDynamic, Prod.mk.injEq] at hv
    rw [Content.encode, Content.encode, hv.1, hv.2.1, hv.2.2, hbs]
  | withDynamicVars =>
    simp only [hempty, hnone]
    refine .ite (fun _ => .throw_bind) fun _ => .ite (fun _ => .throw_bind) fun _ =>
      Follows.checkNoInverse hinverse fun hQR =>
      (namedArguments_follow hρ hm tag.call.hash.pairs hpairs).bind fun named named' hnamed =>
      hprogram.bind fun b b' hb => Follows.pure ?_ fun p p' hp => ?_
    · rw [Content.encode, Content.encode, hnamed, hb]
    · simpa only [Content.blockParams] using hQR _ p p' hp

theorem blockTag_follows {tag : BlockTag} (htag : y ∉ tag.call.heads)
    (hprogram : Follows (Twin ρ fs fs') (fun b => Q (blockParams b)) encodeBlock program.resolve
      program'.resolve)
    (hinverse : OthersFollow Q R inverse inverse') :
    Follows (Twin ρ fs fs') (fun c => R c.blockParams) Content.encode
      (blockTag o tag program inverse)
      (blockTag o { tag with call := tag.call.rename (renamed x y active) } program' inverse') := by
  have hheads := htag
  simp only [Call.heads, List.mem_append, not_or] at hheads
  unfold blockTag
  refine (keywordName?_follows hm (Call.callee_heads htag)).bind fun name name' hname => ?_
  obtain rfl : name = name' := hname
  cases name.bind BlockKeyword.ofName? with
  | some keyword => exact blockForm_follows hρ hm keyword htag hprogram hinverse
  | none =>
    refine (expr_follows hρ hm .block tag.call.callee hheads.1.1).bind fun e e' he =>
      (arguments_follow hρ hm tag.call.params hheads.1.2).bind fun es es' hes =>
      (namedArguments_follow hρ hm tag.call.hash.pairs hheads.2).bind fun named named' hnamed =>
      (namedBranches_follow hprogram hinverse).bind fun bs bs' hbs =>
      Follows.pure ?_ fun p p' hp => by simpa only [Content.blockParams] using hp
    rw [Content.encode, Content.encode, he, hes, hnamed, hbs]

end

/-! ### Elements -/

theorem plainElement_follows {R : List (List Nat) → Progress → Progress → Prop} {tag : StartTag}
    (htag : y ∉ tag.names) (hname : renameTag (renamed x y active) tag.name = tag.name)
    (span span' : Span) {body body' : Walk (List Content)}
    (hbody : Follows (Twin ρ fs fs') (fun cs => R (contentParams cs)) encodeContents body body') :
    Follows (Twin ρ fs fs') (fun c => R c.blockParams) Content.encode
      (plainElement o tag span body)
      (plainElement o (tag.rename (renamed x y active)) span' body') := by
  obtain ⟨-, -, hattributes, hmodifiers⟩ := StartTag.notMem_names htag
  -- Renaming leaves the names of attributes, so an argument is refused in both walks.
  have hfind : (tag.rename (renamed x y active)).attributes.find?
      (fun attr => isArgumentName attr.name)
      = (tag.attributes.find? fun attr => isArgumentName attr.name).map
        (·.rename (renamed x y active)) := by
    rw [StartTag.rename, List.find?_map]
    rfl
  unfold plainElement
  rw [hfind]
  cases tag.attributes.find? fun attr => isArgumentName attr.name with
  | some attr => exact .throw_bind
  | none =>
    refine .ite (fun _ => .throw_bind) fun _ => ?_
    refine (Keeps.mapM fun a hmem => elementAttr_follows hρ hm (hattributes a hmem)).bind
      fun as as' has =>
      (Keeps.mapM fun m hmem => modifierOf_follows hρ hm (hmodifiers m hmem)).bind
      fun ms ms' hms => hbody.bind fun cs cs' hcs =>
      Follows.pure ?_ fun p p' hp => by simpa only [Content.blockParams] using hp
    obtain ⟨hencode, hsplat⟩ := ElementParams.encode_congr (p := ⟨as, ms⟩) (q := ⟨as', ms'⟩)
      has hms false
    rw [Content.encode, Content.encode, hencode, hsplat, hcs]
    simp only [StartTag.rename, hname]

section

variable (hy : PlainName y)

include hy

omit hρ in
/-- A tag invokes a component in both walks or in none; if in none, it is the same tag. -/
theorem isComponent_follows {tag : StartTag} (htag : (tagPath tag.name).1 ≠ y)
    (hblock : isBlockName tag.name = false) (span span' : Span) :
    Follows (Twin ρ fs fs') (fun c p p' => Twin ρ fs fs' p p' ∧
        (c = false → renameTag (renamed x y active) tag.name = tag.name)) id
      (isComponent o tag span) (isComponent o (tag.rename (renamed x y active)) span') := by
  have hname := StartTag.name_rename (renamed x y active) tag
  unfold isComponent
  generalize hpath : tagPath tag.name = path
  generalize hpath' : tagPath (tag.rename (renamed x y active)).name = path'
  refine Follows.getSymbols fun s s' hs => ?_
  have hscope := tagInScope_twins (o := o) hs hm hy htag hblock
  rw [← hname, hpath, hpath'] at hscope
  cases hin : tagInScope o s path.1 with
  | true =>
    simp only [hscope, hin, if_true]
    exact Follows.pure rfl fun p p' hp => ⟨hp, by simp⟩
  | false =>
    -- A head that is not in scope is not the parameter.
    have hsame : renameTag (renamed x y active) tag.name = tag.name := by
      obtain ⟨hactive, -, hx, -⟩ | ⟨hsame, -⟩ :=
        Template.renameTag_cases (x := x) hy active tag.name
      · rw [tagInScope, isBound, ← hpath, hx, hs.lookup?_isSome hm hactive] at hin
        simp at hin
      · exact hsame
    obtain rfl : path = path' := by rw [← hpath, ← hpath', hname, hsame]
    simp only [hscope, hin, Bool.false_eq_true, if_false]
    exact .ite (fun _ => .throw_bind) fun _ => .ite (fun _ => .throw_bind) fun _ =>
      Follows.pure rfl fun p p' hp => ⟨hp, fun _ => hsame⟩

theorem componentCallee_follows {tag : StartTag} (htag : (tagPath tag.name).1 ≠ y)
    (hblock : isBlockName tag.name = false) (span span' : Span) :
    Keeps (Twin ρ fs fs') Expr.encode (componentCallee o tag span)
      (componentCallee o (tag.rename (renamed x y active)) span') := by
  -- The callee is told by what its head refers to.
  have hpath : ∀ {tail : List String} {sp sp' : Span} {v w : Variable},
      v.reference = w.reference → Keeps (Twin ρ fs fs') Expr.encode
        (pure (Expr.path v tail sp) : Walk Expr) (pure (Expr.path w tail sp')) :=
    fun h => Keeps.pure (encode_path_congr h _ _ _)
  have hname := StartTag.name_rename (renamed x y active) tag
  have hcases := Template.renameTag_cases (x := x) hy active tag.name
  rw [← hname] at hcases
  unfold componentCallee
  generalize hpath₁ : tagPath tag.name = path at htag hcases ⊢
  generalize hpath₂ : tagPath (tag.rename (renamed x y active)).name = path' at hcases ⊢
  refine Follows.getSymbols fun s s' hs => ?_
  have hresolve : Keeps (Twin ρ fs fs') Variable.reference
      (resolveName o .component path.2.isEmpty tag.name path.1 (tagSpan tag span))
      (resolveName o .component path.2.isEmpty (tag.rename (renamed x y active)).name
        (renamed x y active path.1) (tagSpan (tag.rename (renamed x y active)) span')) :=
    resolveName_follows hm htag
  obtain ⟨rfl, hbare, hx, rfl⟩ | ⟨hsame, hbare⟩ := hcases
  · -- The parameter is the head of the tag.
    have hfound := hs.lookup?_isSome hm rfl
    have hfound' : (s'.lookup? y).isSome := by
      rw [← Template.renamed_self (x := x) (y := y), hs.lookup? hm (hx ▸ htag)]
      exact hfound
    simp only [hasBareHead, hpath₁, Bool.not_eq_true', Bool.or_eq_false_iff] at hbare
    obtain ⟨⟨-, harg⟩, hthis⟩ := hbare
    have hnotThis : (y == "this") = false := beq_eq_false_iff_ne.mpr hy.notThis
    rw [hx] at harg hthis
    simp only [hy.noArgument, hnotThis, harg, hthis, hx, hfound, hfound', Bool.or_true,
      Bool.false_eq_true, if_false, if_true]
    rw [hx, Template.renamed_self] at hresolve
    exact hresolve.bind fun v w h => hpath h
  · obtain rfl : path = path' := by rw [← hpath₁, ← hpath₂, hsame]
    refine .ite (fun _ => ?_) fun harg => .ite (fun _ => ?_) fun hthis => ?_
    · refine (onSymbols_keeps fun s s' h => h.programSlot hρ _).bind fun slot slot' hslot => ?_
      refine Follows.bind (f := Variable.reference) (Keeps.pure ?_) fun v w h => hpath h
      rw [show slot = slot' from hslot]
    · exact Follows.bind (f := Variable.reference) (Keeps.pure rfl) fun v w h => hpath h
    · have hhead : hasBareHead tag.name = true := by
        simp only [hasBareHead, hpath₁, hblock, harg, hthis, Bool.or_self, Bool.not_false]
      have hlookup := hs.lookup? hm htag
      rw [hbare hhead] at hlookup hresolve
      rw [hlookup]
      refine .ite (fun _ => hresolve.bind fun v w h => hpath h) fun _ => ?_
      refine (componentName_keeps _).bind fun name name' hname => ?_
      obtain rfl : name = name' := hname
      refine (onSymbols_keeps fun s s' h => h.free _).bind fun upvar upvar' hupvar => ?_
      refine Follows.bind (f := Variable.reference) (Keeps.pure ?_) fun v w h => hpath h
      rw [show upvar = upvar' from hupvar]

theorem component_follows {R : List (List Nat) → Progress → Progress → Prop} {tag : StartTag}
    (htag : y ∉ tag.names) (hblock : isBlockName tag.name = false) (span span' : Span)
    {blocks blocks' : Walk (List (NamedBlock Content))}
    (hblocks : Follows (Twin ρ fs fs') (fun bs => R (namedBlockParams bs)) encodeBlocks blocks
      blocks') :
    Follows (Twin ρ fs fs') (fun c => R c.blockParams) Content.encode
      (component o tag span blocks)
      (component o (tag.rename (renamed x y active)) span' blocks') := by
  obtain ⟨hhead, -, hattributes, hmodifiers⟩ := StartTag.notMem_names htag
  refine (componentCallee_follows hρ hm hy hhead hblock _ _).bind fun e e' he =>
    (componentAttrs_follow hρ hm hattributes).bind fun v v' hv =>
    (Keeps.mapM fun m hmem => modifierOf_follows hρ hm (hmodifiers m hmem)).bind fun ms ms' hms =>
    hblocks.bind fun bs bs' hbs =>
    Follows.pure ?_ fun p p' hp => by simpa only [Content.blockParams] using hp
  obtain ⟨hattrs, hargs⟩ := Prod.mk.inj hv
  obtain ⟨hencode, -⟩ := ElementParams.encode_congr (p := ⟨v.1, ms⟩) (q := ⟨v'.1, ms'⟩)
    hattrs hms true
  rw [Content.encode, Content.encode, he, hargs, hencode, hbs]

/-- An element of either kind, whatever its children come to.  The second element may
have parameters of its own. -/
theorem element_follows {R : List (List Nat) → Progress → Progress → Prop} {tag : StartTag}
    {params' : List String} {children children' : List Statement} {span : Span}
    (htag : y ∉ tag.names) (hempty : params'.isEmpty = tag.blockParams.isEmpty)
    (hany : children'.any isNamedBlock = children.any isNamedBlock)
    (hself : ∀ p p', Twin ρ fs fs' p p' → R [] p p')
    (hblocks : tag.blockParams = [] → ∀ component component',
      Follows (Twin ρ fs fs') (fun bs => R (namedBlockParams bs)) encodeBlocks
        (namedBlocks o component [] children) (namedBlocks o component' [] children'))
    (hblock : Follows (Twin ρ fs fs') (fun b => R (blockParams b)) encodeBlock
      (inBlock tag.blockParams fun slots => return ⟨slots, ← statements o children, span⟩)
      (inBlock params' fun slots => return ⟨slots, ← statements o children', span⟩))
    (hbody : tag.blockParams = [] → Follows (Twin ρ fs fs') (fun cs => R (contentParams cs))
      encodeContents (statements o children) (statements o children')) :
    Follows (Twin ρ fs fs') (fun c => R c.blockParams) Content.encode
      (statement o (.element tag children span))
      (statement o (.element { tag.rename (renamed x y active) with blockParams := params' }
        children' span)) := by
  obtain ⟨hhead, -⟩ := StartTag.notMem_names htag
  have hblockName := Template.isBlockName_renameTag (x := x) hy active tag.name
  have hname := StartTag.name_rename (renamed x y active) tag
  have hselfClosing : (tag.rename (renamed x y active)).selfClosing = tag.selfClosing := rfl
  rw [statement, statement]
  simp only [hname, hblockName, hselfClosing, hany, hempty]
  refine .ite (fun _ => .throw_bind) fun hnamed => ?_
  replace hnamed : isBlockName tag.name = false := by simpa using hnamed
  -- Both walks take the element for a component, or neither does.
  refine (isComponent_follows hm hy hhead hnamed _ _).bind fun c c' hc => ?_
  obtain rfl : c = c' := hc
  cases c with
  | true =>
    simp only [if_true]
    refine Follows.and fun _ => component_follows hρ hm hy htag hnamed _ _ ?_
    refine .ite (fun _ => .ite (fun hparams => ?_) fun _ => .throw) fun _ =>
      .ite (fun _ => Follows.pure rfl hself) fun _ => ?_
    · exact hblocks (List.isEmpty_iff.mp hparams) _ _
    · refine hblock.bind fun b b' hb => Follows.pure ?_ fun p p' hp => ?_
      · simp only [encodeBlocks, hb]
      · simpa only [namedBlockParams, List.append_nil] using hp
  | false =>
    simp only [Bool.false_eq_true, if_false]
    refine Follows.and fun hsame => ?_
    by_cases hparams : tag.blockParams = []
    · obtain rfl : params' = tag.blockParams := by
        rw [hparams]
        simpa [hparams] using hempty
      exact plainElement_follows hρ hm htag (hsame trivial) span span (hbody hparams)
    · exact plainElement_refuses hparams

end

end

/-! ### Scopes -/

section

variable {o : Settings} {x y : String}

/-- A block around bodies that follow each other: the walks are in step when it is
opened, and what the body comes to is said of the slots of the block and of those in it. -/
theorem inBlock_follows {ρ : List String → List String → Prop}
    {σ τ : List (List Nat) → List String → List String → Prop} {fs fs' : List Frame}
    {params params' : List String} {M : Frame → Frame → Prop} {span span' : Span}
    {body body' : Walk (List Content)}
    (hopen : ∀ s s', Twins ρ fs fs' s s' → ∃ frame frame',
      (s.openBlock params).1 = (s'.openBlock params').1 ∧
      Twins (σ [(s.openBlock params).1]) (frame :: fs) (frame' :: fs') (s.openBlock params).2
        (s'.openBlock params').2 ∧
      M frame frame')
    (hbody : ∀ frame frame' slots, M frame frame' →
      Follows (Twin (σ [slots]) (frame :: fs) (frame' :: fs'))
        (fun cs => Twin (τ (slots :: contentParams cs)) (frame :: fs) (frame' :: fs'))
        encodeContents body body') :
    Follows (Twin ρ fs fs') (fun b => Twin (τ (blockParams b)) fs fs') encodeBlock
      (inBlock params fun slots => return ⟨slots, ← body, span⟩)
      (inBlock params' fun slots => return ⟨slots, ← body', span'⟩) := by
  intro p p' b q hp hrun
  obtain ⟨slots, p₁, hslots, hrun⟩ := run_bind_ok.mp hrun
  obtain ⟨rfl, rfl⟩ := run_onSymbols_ok.mp hslots
  obtain ⟨frame, frame', hsame, htwins, hm⟩ := hopen _ _ hp.1
  simp only [run_bind_ok, run_pure_ok, run_onSymbols_ok] at hrun
  obtain ⟨_, _, ⟨cs, q₁, hcs, rfl, rfl⟩, _, _, ⟨-, rfl⟩, rfl, rfl⟩ := hrun
  -- The body is walked between opening the block and closing it, which both leave the rest alone.
  obtain ⟨cs', q₁', hcs', hencode, hq₁⟩ := hbody frame frame' _ hm _
    { p' with symbols := (p'.symbols.openBlock params').2 } cs q₁ ⟨htwins, by rw [hp.2]⟩ hcs
  refine ⟨⟨(p'.symbols.openBlock params').1, cs', span'⟩,
    { q₁' with symbols := q₁'.symbols.closeBlock }, ?_, ?_, ?_, ?_⟩
  · simp only [inBlock, run_bind_ok, run_pure_ok, run_onSymbols_ok]
    exact ⟨_, _, ⟨rfl, rfl⟩, _, _, ⟨cs', q₁', hcs', rfl, rfl⟩, (), _, ⟨trivial, rfl⟩, rfl, rfl⟩
  · rw [encodeBlock, encodeBlock, hencode, hsame]
  · simpa only [blockParams] using hq₁.1.closeBlock
  · rw [hq₁.2]

end

/-! ### Statements -/

section

variable {o : Settings} {x y : String}

theorem isNamedBlock_rename (hy : PlainName y) (active : Bool) (s : Statement) :
    isNamedBlock (s.rename x y active) = isNamedBlock s := by
  cases s with
  | element tag children span =>
    rw [Statement.rename]
    exact Template.isBlockName_renameTag hy active tag.name
  | mustache | block | partialCall | comment | mustacheComment | text =>
    simp only [Statement.rename, isNamedBlock]

theorem any_isNamedBlock_rename (hy : PlainName y) (active : Bool) (ss : List Statement) :
    (renameStatements x y active ss).any isNamedBlock = ss.any isNamedBlock := by
  induction ss with
  | nil => rw [renameStatements]
  | cons s rest ih =>
    rw [renameStatements, List.any_cons, List.any_cons, ih, isNamedBlock_rename hy]

/-- The tag of a named block has no head to be renamed. -/
theorem renameTag_of_isBlockName (r : String → String) {name : String}
    (h : isBlockName name = true) : renameTag r name = name := by
  rw [renameTag, if_neg (by simp [hasBareHead, h])]

/-- A block in both walks, whose body follows. -/
theorem sameBlock_follows {ρ : List String → List String → Prop} (hρ : Extends ρ) {active : Bool}
    {fs fs' : List Frame} (hm : ScopesMatch x y active fs fs') {params : List String}
    (hparams : y ∉ params) {span span' : Span} {body body' : Walk (List Content)}
    (hbody : ∀ fs fs', ScopesMatch x y (active && !params.contains x) fs fs' →
      Keeps (Twin ρ fs fs') encodeContents body body') :
    Keeps (Twin ρ fs fs') encodeBlock (inBlock params fun slots => return ⟨slots, ← body, span⟩)
      (inBlock params fun slots => return ⟨slots, ← body', span'⟩) :=
  inBlock_follows (σ := fun _ => ρ) (τ := fun _ => ρ)
    (M := fun frame frame' =>
      ScopesMatch x y (active && !params.contains x) (frame :: fs) (frame' :: fs'))
    (fun s s' hs => by
      obtain ⟨frame, hopened⟩ := Symbols.openBlock_twins hρ hs hm hparams
      exact ⟨frame, frame, hopened⟩)
    fun frame frame' _ hm' => hbody _ _ hm'

mutual

/-- A statement is resolved alike in both walks. -/
theorem statement_follows (hy : PlainName y) {ρ : List String → List String → Prop}
    (hρ : Extends ρ) {active : Bool} {fs fs' : List Frame}
    (hm : ScopesMatch x y active fs fs') (s : Statement) (hs : y ∉ s.names) :
    Keeps (Twin ρ fs fs') Content.encode (statement o s) (statement o (s.rename x y active)) := by
  match s with
  | .text node | .comment node =>
    rw [Statement.rename]
    exact Keeps.pure rfl
  | .mustacheComment comment =>
    rw [Statement.rename]
    exact Keeps.pure rfl
  | .partialCall tag => exact .throw
  | .mustache tag =>
    rw [Statement.rename, statement, statement]
    exact appendTag_follows hρ hm (by simpa only [Statement.names] using hs)
  | .block tag program none =>
    simp only [Statement.names, List.mem_append, not_or] at hs
    rw [Statement.rename, renameOther, statement, statement]
    exact blockTag_follows (Q := fun _ => Twin ρ fs fs') (R := fun _ => Twin ρ fs fs') hρ hm hs.1.1
      (block_follows hy hρ hm program hs.1.2) (.none fun _ _ _ => id)
  | .block tag program (some inverse) =>
    simp only [Statement.names, otherNames, List.mem_append, not_or] at hs
    rw [Statement.rename, renameOther, statement, statement]
    exact blockTag_follows (Q := fun _ => Twin ρ fs fs') (R := fun _ => Twin ρ fs fs') hρ hm hs.1.1
      (block_follows hy hρ hm program hs.1.2) (.some fun _ => block_follows hy hρ hm inverse hs.2)
  | .element tag children span =>
    simp only [Statement.names, List.mem_append, not_or] at hs
    obtain ⟨htag, hchildren⟩ := hs
    obtain ⟨-, hparams, -⟩ := StartTag.notMem_names htag
    -- An element without parameters of its own hides no name.
    have hnone : tag.blockParams = [] → (active && !tag.blockParams.contains x) = active := by
      intro h
      simp [h]
    rw [Statement.rename]
    refine element_follows (R := fun _ => Twin ρ fs fs') hρ hm hy htag rfl
      (any_isNamedBlock_rename hy _ children) (fun _ _ => id) (fun h component component' => ?_)
      (sameBlock_follows hρ hm hparams fun fs fs' hm' =>
        statements_follow hy hρ hm' children hchildren) fun h => ?_
    · rw [hnone h]
      exact namedBlocks_follow hy hρ hm component component' [] children hchildren
    · rw [hnone h]
      exact statements_follow hy hρ hm children hchildren

theorem statements_follow (hy : PlainName y) {ρ : List String → List String → Prop}
    (hρ : Extends ρ) {active : Bool} {fs fs' : List Frame}
    (hm : ScopesMatch x y active fs fs') (ss : List Statement) (hss : y ∉ statementsNames ss) :
    Keeps (Twin ρ fs fs') encodeContents (statements o ss)
      (statements o (renameStatements x y active ss)) := by
  match ss with
  | [] =>
    rw [renameStatements]
    exact Keeps.pure rfl
  | s :: rest =>
    simp only [statementsNames, List.mem_append, not_or] at hss
    rw [renameStatements, statements, statements]
    refine (statement_follows hy hρ hm s hss.1).bind fun c c' hc =>
      (statements_follow hy hρ hm rest hss.2).bind fun cs cs' hcs => Keeps.pure ?_
    rw [encodeContents, encodeContents, hc, hcs]

theorem block_follows (hy : PlainName y) {ρ : List String → List String → Prop}
    (hρ : Extends ρ) {active : Bool} {fs fs' : List Frame}
    (hm : ScopesMatch x y active fs fs') (b : Template.Block Statement) (hb : y ∉ blockNames b) :
    Keeps (Twin ρ fs fs') encodeBlock (block o b) (block o (renameBlock x y active b)) := by
  match b with
  | ⟨body, params, chained, span⟩ =>
    simp only [blockNames, List.mem_append, not_or] at hb
    rw [renameBlock, block, block]
    exact sameBlock_follows hρ hm hb.1 fun fs fs' hm' => statements_follow hy hρ hm' body hb.2

theorem namedBlocks_follow (hy : PlainName y) {ρ : List String → List String → Prop}
    (hρ : Extends ρ) {active : Bool} {fs fs' : List Frame}
    (hm : ScopesMatch x y active fs fs') (component component' : String)
    (seen : List String) (ss : List Statement) (hss : y ∉ statementsNames ss) :
    Keeps (Twin ρ fs fs') encodeBlocks (namedBlocks o component seen ss)
      (namedBlocks o component' seen (renameStatements x y active ss)) := by
  match ss with
  | [] =>
    rw [renameStatements]
    exact Keeps.pure rfl
  | .element tag children span :: rest =>
    simp only [statementsNames, Statement.names, List.mem_append, not_or] at hss
    obtain ⟨⟨htag, hchildren⟩, hrest⟩ := hss
    obtain ⟨-, hparams, -, -⟩ := StartTag.notMem_names htag
    rw [renameStatements, Statement.rename]
    unfold namedBlocks
    cases hname : isBlockName tag.name with
    | false =>
      simp only [Bool.false_eq_true, if_false]
      exact .throw
    | true =>
      -- The name of a block is not one of a variable.
      have hsame := renameTag_of_isBlockName (renamed x y active) hname
      have hsame' : (tag.rename (renamed x y active)).name = tag.name := hsame
      simp only [hsame', hname, if_true]
      refine (namedBlockName_follows _ seen hsame _ _).bind fun name name' heq => ?_
      obtain rfl : name = name' := heq
      refine (sameBlock_follows hρ hm hparams fun fs fs' hm' =>
          statements_follow hy hρ hm' children hchildren).bind fun b b' hb =>
        (namedBlocks_follow hy hρ hm component component' (name :: seen) rest hrest).bind
        fun bs bs' hbs => Keeps.pure ?_
      simp only [encodeBlocks, hb, hbs]
  | .text node :: rest | .comment node :: rest | .mustacheComment node :: rest =>
    simp only [statementsNames, List.mem_append, not_or] at hss
    rw [renameStatements, Statement.rename]
    unfold namedBlocks
    exact .ite (fun _ => namedBlocks_follow hy hρ hm component component' seen rest hss.2) fun _ =>
      .throw
  | .partialCall _ :: rest | .mustache _ :: rest | .block _ _ _ :: rest =>
    unfold namedBlocks
    simp only [isBetweenBlocks, Bool.false_eq_true, if_false]
    exact .throw

end

end

/-! ### Around the block -/

/-- The walks before the block. -/
abbrev Before (fs : List Frame) : Progress → Progress → Prop := Twin Eq fs fs

/-- The walks after the block: if they differ, then by the slot that one of the given
blocks has for its parameter `x`. -/
abbrev After (x y : String) (params : List String) (fs : List Frame) (blocks : List (List Nat)) :
    Progress → Progress → Prop :=
  Twin (SlotRenamed x y params blocks) fs fs

section

variable {o : Settings} {x y : String} {params : List String} {fs : List Frame}

theorem after_mono {blocks blocks' : List (List Nat)} (hsub : blocks ⊆ blocks') {p p' : Progress}
    (h : After x y params fs blocks p p') : After x y params fs blocks' p p' :=
  h.rel_mono fun _ _ => SlotRenamed.mono hsub

theorem Before.after {blocks : List (List Nat)} {p p' : Progress} (h : Before fs p p') :
    After x y params fs blocks p p' :=
  h.rel_mono fun _ _ hnames => .inl hnames.symm

/-- A block with the renamed one in it. -/
theorem outerBlock_follows {names : List String} (hnames : y ∉ names) {span : Span}
    {body body' : Walk (List Content)}
    (hbody : ∀ fs, Follows (Before fs) (fun cs => After x y params fs (contentParams cs))
      encodeContents body body') :
    Follows (Before fs) (fun b => After x y params fs (blockParams b)) encodeBlock
      (inBlock names fun slots => return ⟨slots, ← body, span⟩)
      (inBlock names fun slots => return ⟨slots, ← body', span⟩) :=
  inBlock_follows (σ := fun _ => Eq) (τ := SlotRenamed x y params) (M := Eq)
    (fun s s' hs => by
      obtain ⟨frame, hslots, htwins, -⟩ :=
        Symbols.openBlock_twins Extends.eq hs (.refl x y fs) hnames
      exact ⟨frame, frame, hslots, htwins, rfl⟩)
    fun frame frame' slots hframe => by
      subst hframe
      exact (hbody (frame :: fs)).imp fun cs _ _ => after_mono (List.subset_cons_self _ _)

/-- A block among named blocks is refused. -/
theorem namedBlocks_refuses {P : Progress → Progress → Prop}
    {Q : List (NamedBlock Content) → Progress → Progress → Prop} {tag : BlockTag}
    {program : Template.Block Statement} {inverse : Option (Template.Block Statement)}
    {rest : List Statement} {component : String} {seen : List String}
    {y : Walk (List (NamedBlock Content))} :
    Follows P Q encodeBlocks
      (namedBlocks o component seen (.block tag program inverse :: rest)) y := by
  unfold namedBlocks
  simp only [isBetweenBlocks, Bool.false_eq_true, if_false]
  exact .throw

/-- A block tag with the block in one of its branches. -/
theorem blockStatement_follows {tag : BlockTag} {program program' : Template.Block Statement}
    {inverse inverse' : Option (Template.Block Statement)}
    {Q : List (List Nat) → Progress → Progress → Prop} (htag : y ∉ tag.call.heads)
    (hprogram : Follows (Before fs) (fun b => Q (blockParams b)) encodeBlock (block o program)
      (block o program'))
    (hinverse : OthersFollow Q (After x y params fs)
      (inverse.map fun b => ⟨b.span, block o b⟩) (inverse'.map fun b => ⟨b.span, block o b⟩)) :
    Follows (Before fs) (fun c => After x y params fs c.blockParams) Content.encode
      (statement o (.block tag program inverse)) (statement o (.block tag program' inverse')) := by
  have h : Follows (Before fs) (fun c => After x y params fs c.blockParams) Content.encode
      (blockTag o tag ⟨program.span, block o program⟩ (inverse.map fun b => ⟨b.span, block o b⟩))
      (blockTag o { tag with call := tag.call.rename (renamed x y false) }
        ⟨program'.span, block o program'⟩ (inverse'.map fun b => ⟨b.span, block o b⟩)) :=
    blockTag_follows Extends.eq (.refl x y fs) htag hprogram hinverse
  rw [Template.renamed_false, Template.Call.rename_id] at h
  cases inverse <;> cases inverse' <;> rw [statement, statement] <;> exact h

variable (hy : PlainName y)

include hy

theorem statement_before (s : Statement) (hs : y ∉ s.names) :
    Keeps (Before fs) Content.encode (statement o s) (statement o s) := by
  have h := statement_follows (o := o) hy Extends.eq (.refl y y fs) s hs
  rwa [Statement.rename_false] at h

theorem block_before (b : Template.Block Statement) (hb : y ∉ blockNames b) :
    Keeps (Before fs) encodeBlock (block o b) (block o b) := by
  have h := block_follows (o := o) hy Extends.eq (.refl y y fs) b hb
  rwa [Template.renameBlock_false] at h

theorem statements_after (ss : List Statement) (hss : y ∉ statementsNames ss)
    (blocks : List (List Nat)) :
    Follows (After x y params fs blocks)
      (fun cs => After x y params fs (blocks ++ contentParams cs)) encodeContents
      (statements o ss) (statements o ss) := by
  have h := statements_follow (o := o) hy (SlotRenamed.extends x y params blocks)
    (.refl x y fs) ss hss
  rw [Template.renameStatements_false] at h
  exact h.imp fun _ _ _ => after_mono (List.subset_append_left _ _)

theorem block_after (b : Template.Block Statement) (hb : y ∉ blockNames b)
    (blocks : List (List Nat)) :
    Follows (After x y params fs blocks) (fun b' => After x y params fs (blocks ++ blockParams b'))
      encodeBlock (block o b) (block o b) := by
  have h := block_follows (o := o) hy (SlotRenamed.extends x y params blocks) (.refl x y fs) b hb
  rw [Template.renameBlock_false] at h
  exact h.imp fun _ _ _ => after_mono (List.subset_append_left _ _)

theorem namedBlocks_after (component component' : String) (seen : List String)
    (ss : List Statement) (hss : y ∉ statementsNames ss) (blocks : List (List Nat)) :
    Follows (After x y params fs blocks)
      (fun bs => After x y params fs (blocks ++ namedBlockParams bs)) encodeBlocks
      (namedBlocks o component seen ss) (namedBlocks o component' seen ss) := by
  have h := namedBlocks_follow (o := o) hy (SlotRenamed.extends x y params blocks) (.refl x y fs)
    component component' seen ss hss
  rw [Template.renameStatements_false] at h
  exact h.imp fun _ _ _ => after_mono (List.subset_append_left _ _)

/-- The block whose parameter is renamed. -/
theorem ownBlock_follows (hx : x ∈ params) (hparams : y ∉ params) {span : Span}
    {body : List Statement} (hbody : y ∉ statementsNames body) :
    Follows (Before fs) (fun b => After x y params fs (blockParams b)) encodeBlock
      (inBlock params fun slots => return ⟨slots, ← statements o body, span⟩)
      (inBlock (params.map (renamed x y true)) fun slots =>
        return ⟨slots, ← statements o (renameStatements x y true body), span⟩) :=
  inBlock_follows (σ := SlotRenamed x y params) (τ := SlotRenamed x y params)
    (M := fun frame frame' => ScopesMatch x y true (frame :: fs) (frame' :: fs))
    (fun s s' hs => Symbols.openBlock_renames hs hx hparams)
    fun frame frame' slots hm =>
      (statements_follow hy (SlotRenamed.extends x y params _) hm body hbody).imp fun cs _ _ hp =>
        hp.rel_mono fun _ _ => SlotRenamed.mono (by simp)

/-- Statements of which the first has the block in it. -/
theorem cons_follows {s s' : Statement} {rest : List Statement}
    (hs : Follows (Before fs) (fun c => After x y params fs c.blockParams) Content.encode
      (statement o s) (statement o s')) (hrest : y ∉ statementsNames rest) :
    Follows (Before fs) (fun cs => After x y params fs (contentParams cs)) encodeContents
      (statements o (s :: rest)) (statements o (s' :: rest)) := by
  rw [statements, statements]
  refine hs.bind fun c c' hc => (statements_after hy rest hrest _).bind fun cs cs' hcs =>
    Follows.pure ?_ fun p p' hp => by simpa only [contentParams] using hp
  rw [encodeContents, encodeContents, hc, hcs]

/-- Named blocks of which the first has the block in it, or is the block. -/
theorem consBlock_follows {tag : StartTag} {params' : List String}
    {children children' : List Statement} {span : Span} {rest : List Statement}
    (hblock : Follows (Before fs) (fun b => After x y params fs (blockParams b)) encodeBlock
      (inBlock tag.blockParams fun slots => return ⟨slots, ← statements o children, span⟩)
      (inBlock params' fun slots => return ⟨slots, ← statements o children', span⟩))
    (hrest : y ∉ statementsNames rest) (component component' : String) (seen : List String) :
    Follows (Before fs) (fun bs => After x y params fs (namedBlockParams bs)) encodeBlocks
      (namedBlocks o component seen (.element tag children span :: rest))
      (namedBlocks o component' seen
        (.element { tag with blockParams := params' } children' span :: rest)) := by
  unfold namedBlocks
  refine .ite (fun _ => ?_) fun _ => .throw
  have hname := namedBlockName_follows (P := Before fs) id seen (Template.renameTag_id tag.name)
    span span
  rw [Template.StartTag.rename_id] at hname
  refine hname.bind fun name name' heq => ?_
  obtain rfl : name = name' := heq
  refine hblock.bind fun b b' hb =>
    (namedBlocks_after hy component component' (name :: seen) rest hrest _).bind fun bs bs' hbs =>
    Follows.pure (by simp only [encodeBlocks, hb, hbs]) fun p p' hp => ?_
  simpa only [namedBlockParams] using hp

/-- An element with the block in it, or whose block it is. -/
theorem elementStatement_follows {tag : StartTag} {params' : List String}
    {children children' : List Statement} {span : Span} (htag : y ∉ tag.names)
    (hempty : params'.isEmpty = tag.blockParams.isEmpty)
    (hany : children'.any isNamedBlock = children.any isNamedBlock)
    (hblocks : tag.blockParams = [] → ∀ component component',
      Follows (Before fs) (fun bs => After x y params fs (namedBlockParams bs)) encodeBlocks
        (namedBlocks o component [] children) (namedBlocks o component' [] children'))
    (hblock : Follows (Before fs) (fun b => After x y params fs (blockParams b)) encodeBlock
      (inBlock tag.blockParams fun slots => return ⟨slots, ← statements o children, span⟩)
      (inBlock params' fun slots => return ⟨slots, ← statements o children', span⟩))
    (hbody : tag.blockParams = [] → Follows (Before fs)
      (fun cs => After x y params fs (contentParams cs)) encodeContents (statements o children)
      (statements o children')) :
    Follows (Before fs) (fun c => After x y params fs c.blockParams) Content.encode
      (statement o (.element tag children span))
      (statement o (.element { tag with blockParams := params' } children' span)) := by
  have h := element_follows (x := x) (R := After x y params fs) Extends.eq (.refl x y fs) hy htag
    hempty hany (fun _ _ => Before.after) hblocks hblock hbody
  rwa [Template.renamed_false, Template.StartTag.rename_id] at h

/-- What is said of statements that have the block in them. -/
structure RenamesFollow (o : Settings) (x y : String) (params : List String)
    (ss ss' : List Statement) : Prop where
  named : ss'.any isNamedBlock = ss.any isNamedBlock
  statements : ∀ fs, Follows (Before fs) (fun cs => After x y params fs (contentParams cs))
    encodeContents (statements o ss) (statements o ss')
  blocks : ∀ fs component component' seen,
    Follows (Before fs) (fun bs => After x y params fs (namedBlockParams bs)) encodeBlocks
      (namedBlocks o component seen ss) (namedBlocks o component' seen ss')

/-- Statements of which a later one has the block in it. -/
theorem later_follows {s : Statement} {rest rest' : List Statement} (hs : y ∉ s.names)
    (ih : RenamesFollow o x y params rest rest') :
    RenamesFollow o x y params (s :: rest) (s :: rest') where
  named := by rw [List.any_cons, List.any_cons, ih.named]
  statements fs := by
    rw [Resolved.statements, Resolved.statements]
    refine (statement_before hy s hs).bind fun c c' hc => (ih.statements fs).bind
      fun cs cs' hcs => Follows.pure ?_ fun p p' hp => after_mono ?_ hp
    · rw [encodeContents, encodeContents, hc, hcs]
    · rw [contentParams]
      exact List.subset_append_right _ _
  blocks fs component component' seen := by
    match s with
    | .element tag children span =>
      simp only [Statement.names, List.mem_append, not_or] at hs
      obtain ⟨-, hparams, -⟩ := StartTag.notMem_names hs.1
      -- No name is renamed before the block, which is renaming a name to itself.
      have hchildren : ∀ fs fs', ScopesMatch y y (false && !tag.blockParams.contains y) fs fs' →
          Keeps (Twin Eq fs fs') encodeContents (Resolved.statements o children)
            (Resolved.statements o children) := by
        intro fs fs' hm
        rw [Bool.false_and] at hm
        have h := statements_follow (o := o) hy Extends.eq hm children hs.2
        rwa [Template.renameStatements_false] at h
      unfold namedBlocks
      refine .ite (fun _ => ?_) fun _ => .throw
      have hname := namedBlockName_follows (P := Before fs) id seen (Template.renameTag_id tag.name)
        span span
      rw [Template.StartTag.rename_id] at hname
      refine hname.bind fun name name' heq => ?_
      obtain rfl : name = name' := heq
      refine (sameBlock_follows Extends.eq (.refl y y fs) hparams hchildren).bind fun b b' hb =>
        (ih.blocks fs component component' (name :: seen)).bind fun bs bs' hbs =>
        Follows.pure (by simp only [encodeBlocks, hb, hbs]) fun p p' hp => after_mono ?_ hp
      rw [namedBlockParams]
      exact List.subset_append_right _ _
    | .text _ | .comment _ | .mustacheComment _ =>
      unfold namedBlocks
      exact .ite (fun _ => ih.blocks fs component component' seen) fun _ => .throw
    | .mustache _ | .partialCall _ =>
      unfold namedBlocks
      simp only [isBetweenBlocks, Bool.false_eq_true, if_false]
      exact .throw
    | .block _ _ _ => exact namedBlocks_refuses

/-- Statements in which a parameter of one block is renamed are resolved alike. -/
theorem renames_follow {ss ss' : List Statement} (h : Renames x y params ss ss')
    (hss : y ∉ statementsNames ss) : RenamesFollow o x y params ss ss' := by
  induction h with
  -- The block itself: from its body on, the name is another one.
  | @program tag program inverse rest hparams hx =>
    obtain ⟨body, names, chained, span⟩ := program
    obtain rfl : names = params := hparams
    simp only [statementsNames, Statement.names, blockNames, List.mem_append, not_or] at hss
    obtain ⟨⟨⟨htag, hnames, hbody⟩, hinverse⟩, hrest⟩ := hss
    refine ⟨rfl, fun fs => cons_follows hy (blockStatement_follows (Q := After x y names fs)
      htag ?_ ?_) hrest, fun fs component component' seen => namedBlocks_refuses⟩
    · simp only [Template.Block.renameParam, block]
      exact ownBlock_follows hy hx hnames hbody
    · cases inverse with
      | none => exact .none fun _ _ _ => id
      | some b => exact .some fun blocks => block_after hy b hinverse blocks
  | @inverse tag program inverse rest hparams hx =>
    obtain ⟨body, names, chained, span⟩ := inverse
    obtain rfl : names = params := hparams
    simp only [statementsNames, Statement.names, otherNames, List.mem_append, not_or] at hss
    obtain ⟨⟨⟨htag, hprogram⟩, hinverse⟩, hrest⟩ := hss
    simp only [blockNames, List.mem_append, not_or] at hinverse
    refine ⟨rfl, fun fs => cons_follows hy (blockStatement_follows (Q := fun _ => Before fs)
      htag (block_before hy program hprogram) (.some fun blocks => ?_)) hrest,
      fun fs component component' seen => namedBlocks_refuses⟩
    simp only [Template.Block.renameParam, block]
    exact (ownBlock_follows hy hx hinverse.1 hinverse.2).imp fun _ _ _ =>
      after_mono (List.subset_append_right _ _)
  | @element tag children span rest hparams hx =>
    subst hparams
    simp only [statementsNames, Statement.names, List.mem_append, not_or] at hss
    obtain ⟨⟨htag, hchildren⟩, hrest⟩ := hss
    obtain ⟨-, hnames, -⟩ := StartTag.notMem_names htag
    have hblock : ∀ fs, Follows (Before fs)
        (fun b => After x y tag.blockParams fs (blockParams b)) encodeBlock
        (inBlock tag.blockParams fun slots => return ⟨slots, ← statements o children, span⟩)
        (inBlock (tag.blockParams.map (renamed x y true)) fun slots =>
          return ⟨slots, ← statements o (renameStatements x y true children), span⟩) :=
      fun fs => ownBlock_follows hy hx hnames hchildren
    have hsome : tag.blockParams ≠ [] := List.ne_nil_of_mem hx
    exact ⟨rfl, fun fs => cons_follows hy (elementStatement_follows hy htag List.isEmpty_map
        (any_isNamedBlock_rename hy true children) (fun h => (hsome h).elim) (hblock fs)
        fun h => (hsome h).elim) hrest,
      fun fs => consBlock_follows hy (hblock fs) hrest⟩
  -- The block is further in: the statements around it are resolved as before.
  | inProgram h ih =>
    simp only [statementsNames, Statement.names, blockNames, List.mem_append, not_or] at hss
    obtain ⟨⟨⟨htag, hnames, hbody⟩, hinverse⟩, hrest⟩ := hss
    refine ⟨rfl, fun fs => cons_follows hy (blockStatement_follows (Q := After x y params fs)
      htag ?_ ?_) hrest, fun fs component component' seen => namedBlocks_refuses⟩
    · rw [block, block]
      exact outerBlock_follows hnames (ih hbody).statements
    · rename_i inverse _
      cases inverse with
      | none => exact .none fun _ _ _ => id
      | some b => exact .some fun blocks => block_after hy b hinverse blocks
  | @inInverse tag program _ _ _ _ _ _ h ih =>
    simp only [statementsNames, Statement.names, otherNames, List.mem_append, not_or] at hss
    obtain ⟨⟨⟨htag, hprogram⟩, hinverse⟩, hrest⟩ := hss
    simp only [blockNames, List.mem_append, not_or] at hinverse
    refine ⟨rfl, fun fs => cons_follows hy (blockStatement_follows (Q := fun _ => Before fs)
      htag (block_before hy program hprogram) (.some fun blocks => ?_)) hrest,
      fun fs component component' seen => namedBlocks_refuses⟩
    simp only [block]
    exact (outerBlock_follows hinverse.1 (ih hinverse.2).statements).imp fun _ _ _ =>
      after_mono (List.subset_append_right _ _)
  | @inElement tag children children' span rest h ih =>
    simp only [statementsNames, Statement.names, List.mem_append, not_or] at hss
    obtain ⟨⟨htag, hchildren⟩, hrest⟩ := hss
    obtain ⟨-, hnames, -⟩ := StartTag.notMem_names htag
    have hbody := ih hchildren
    have hblock : ∀ fs, Follows (Before fs) (fun b => After x y params fs (blockParams b))
        encodeBlock
        (inBlock tag.blockParams fun slots => return ⟨slots, ← statements o children, span⟩)
        (inBlock tag.blockParams fun slots => return ⟨slots, ← statements o children', span⟩) :=
      fun fs => outerBlock_follows hnames hbody.statements
    exact ⟨rfl, fun fs => cons_follows hy (elementStatement_follows hy htag rfl hbody.named
        (fun _ component component' => hbody.blocks fs component component' []) (hblock fs)
        fun _ => hbody.statements fs) hrest,
      fun fs => consBlock_follows hy (hblock fs) hrest⟩
  | later h ih =>
    simp only [statementsNames, List.mem_append, not_or] at hss
    exact later_follows hy hss.1 (ih hss.2)

end

end TemplateCompiler.Resolved

namespace TemplateCompiler.Template

open Resolved

/-! ### Whole templates -/

theorem resolve_eq_ok {t : Template} {o : Settings} {body : Body} {p : Progress} :
    t.resolve o = (.ok body, p) ↔
      (statements o t.body).run (start o) = .ok body.body p ∧ body.span = t.span := by
  obtain ⟨contents, span⟩ := body
  rw [Template.resolve]
  cases (statements o t.body).run (start o) with
  | ok contents' q => grind
  | error fault q => simp

/-- A template that only differs by its formatting comes to the same progress. -/
theorem run_of_bare_eq {t t' : Template} (h : t'.bare = t.bare) {o : Settings}
    {contents : List Content} {p : Progress}
    (hrun : (statements o t.body).run (start o) = .ok contents p) :
    ∃ contents', (statements o t'.body).run (start o) = .ok contents' p ∧
      encodeContents contents' = encodeContents contents := by
  have hbody : bareStatements t'.body = bareStatements t.body := congrArg Template.body h
  have hagree := (statements_agree (o := o) t'.body (start o)).symm.trans
    (hbody ▸ statements_agree (o := o) t.body (start o))
  rw [hrun] at hagree
  cases hrun' : (statements o t'.body).run (start o) with
  | ok contents' p' =>
    rw [hrun'] at hagree
    obtain ⟨hencode, rfl⟩ : encodeContents contents' = encodeContents contents ∧ p' = p := by
      simpa [seen] using hagree
    exact ⟨contents', rfl, hencode⟩
  | error fault p' => simp [hrun', seen] at hagree

/-- A parameter `x` of a block of a template can be renamed to a name `y` that is new
to the template, however the new template is formatted: it compiles to the same
program but for the name in the slot of the parameter. -/
theorem resolve_renames (t u t' : Template) (o : Settings) (x y : String) (params : List String)
    (hrenames : Renames x y params t.body u.body) (hformat : t'.bare = u.bare)
    (hy : PlainName y) (hnew : y ∉ statementsNames t.body) (body : Body) (p : Progress)
    (h : t.resolve o = (.ok body, p)) :
    ∃ body' p', t'.resolve o = (.ok body', p') ∧
      body'.encode p'.symbols = { body.encode p.symbols with symbols := p'.symbols.names } ∧
      p'.symbols.usedLocals = p.symbols.usedLocals ∧
      SlotRenamed x y params (contentParams body.body) p.symbols.names p'.symbols.names := by
  obtain ⟨hrun, -⟩ := resolve_eq_ok.mp h
  have hstart : Before [] (start o) (start o) := ⟨⟨rfl, rfl, rfl⟩, rfl⟩
  obtain ⟨contents, p', hrun', hencode, htwin⟩ :=
    (renames_follow (o := o) hy hrenames hnew).statements [] _ _ body.body p hstart hrun
  obtain ⟨contents', hrun'', hencode'⟩ := run_of_bare_eq hformat hrun'
  refine ⟨⟨contents', t'.span⟩, p', resolve_eq_ok.mpr ⟨hrun'', rfl⟩, ?_, ?_, htwin.1.names⟩
  · rw [Body.encode, Body.encode, hencode', ← hencode, htwin.1.same]
  · rw [htwin.1.same]

/-- The tag of a block that gives a name to a value. -/
def letTag : BlockTag := ⟨⟨bareName "let", [bareName "v"], ⟨[], .dummy⟩⟩, {}, {}, {}, .dummy⟩

/-- A block whose parameter heads a tag and a path, and is hidden in a component if it
is `x`. -/
def itemBlock (name : String) : Block Statement where
  body :=
    [.element { name := name ++ ".Item", selfClosing := true } [] .dummy, writeName name,
    .element { name := "Foo", blockParams := ["x"] } [writeName "x"] .dummy]
  params := [name]
  span := .dummy

/-- A template with such a block, after which the name `x` is free. -/
def itemTemplate (name : String) : Template where
  body := [.block letTag (itemBlock name) none, writeName "x"]
  span := .dummy

theorem resolve_renames_itemTemplate :
    ∃ body p body' p', (itemTemplate "x").resolve {} = (.ok body, p) ∧
      (itemTemplate "z").resolve {} = (.ok body', p') ∧
      p.symbols.names = ["x", "x"] ∧ p'.symbols.names = ["z", "x"] ∧
      body'.encode p'.symbols = { body.encode p.symbols with symbols := ["z", "x"] } := by
  let renamed : Template :=
    ⟨[.block letTag ((itemBlock "x").renameParam "x" "z") none, writeName "x"], .dummy⟩
  -- The parameter of the `let`; a variable of the same name outside of it stays.
  have hrenamed : Renames "x" "z" ["x"] (itemTemplate "x").body renamed.body :=
    .program rfl (List.mem_singleton_self _)
  have hformat : (itemTemplate "z").bare = renamed.bare := rfl
  have hplain : PlainName "z" := ⟨by decide, by decide, by decide, by decide⟩
  have hnew : "z" ∉ statementsNames (itemTemplate "x").body := by decide +kernel
  have hok : ((itemTemplate "x").resolve {}).1.isOk = true := by decide +kernel
  have hnames : ((itemTemplate "x").resolve {}).2.symbols.names = ["x", "x"] := by decide +kernel
  have hnames' : ((itemTemplate "z").resolve {}).2.symbols.names = ["z", "x"] := by decide +kernel
  have hrenames := resolve_renames (itemTemplate "x") renamed (itemTemplate "z") {} "x" "z" ["x"]
    hrenamed hformat hplain hnew
  generalize (itemTemplate "x").resolve {} = r at hrenames hok hnames ⊢
  generalize (itemTemplate "z").resolve {} = r' at hrenames hnames' ⊢
  match r with
  | (.ok body, p) =>
    obtain ⟨body', p', rfl, hencode, -, -⟩ := hrenames body p rfl
    replace hnames' : p'.symbols.names = ["z", "x"] := hnames'
    exact ⟨body, p, body', p', rfl, rfl, hnames, hnames', by rw [hencode, hnames']⟩
  | (.error fault, p) => cases hok

end TemplateCompiler.Template
