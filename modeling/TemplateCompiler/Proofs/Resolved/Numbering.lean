/-
Numbers follow the first use.

A statement numbers its own free names and then those of its blocks and children;
a cursor takes its number when its block is opened.

* `Visited` — the walk comes to every name in a statement;
* `statement_numbered`, `block_numbered` — a step adds the free names of what it
  resolves, and the cursors in it;
* `resolve_numbers` — the upvars of a template are its free names without
  repetition, and the cursors are numbered from zero.

A name that is given under a key for a second time, or that stands in the value
of `...attributes`, is not come to by the walk; a template must not have such
names.
-/
import TemplateCompiler.Proofs.Resolved.FirstUse
import TemplateCompiler.Proofs.Resolved.Modes
import TemplateCompiler.Proofs.Template.Closing

namespace TemplateCompiler.Resolved

open Template (Path Pair Hash Call MustacheTag BlockTag StartTag ConcatPart AttrValue Statement)

/-! ### Tags among content -/

/-- The cursors of a piece of content and of all that is inside of it. -/
def Content.guids (c : Content) : List String := guidsOf (c :: c.inside)

theorem Content.guids_eq {c : Content} (h : c.guid? = none) : c.guids = guidsOf c.inside :=
  List.filterMap_cons_none h

section

variable {o : Settings} {env : Scopes}

/-- The name of the block that `yield` yields to is no free name. -/
theorem YieldsTo.pairNames {hash : Hash Template.Expr} {name : String} (h : YieldsTo hash name)
    (htakes : Takes ["to"] hash) (hdistinct : Distinct hash) (around : List String) :
    pairNames o around hash.pairs = [] := by
  rw [htakes.pairs_eq hdistinct]
  cases h with
  | default hget => simp only [hget, Option.toList_none, Resolved.pairNames]
  | named hget =>
    simp only [hget, Option.toList_some, Resolved.pairNames, exprNames, List.append_nil]

/-- Whatever reads by name gives no numbers. -/
theorem markEval_numbered {p q : Progress}
    (h : (onSymbols fun s => ((), s.markEval)).run p = .ok () q) : Numbered [] [] p q := by
  obtain ⟨-, rfl⟩ := run_onSymbols_ok.mp h
  exact .of_upvars rfl rfl

theorem appendForm_numbered {k : AppendKeyword} {tag : MustacheTag} {p q : Progress} {c : Content}
    (honce : k = .yield → Distinct tag.call.hash) (hat : At o env p)
    (h : (appendForm o k tag).run p = .ok c q) :
    Numbered (callNames o env.declared true tag.call) c.guids p q := by
  rw [callNames, if_pos rfl, List.nil_append]
  cases appendForm_runs h with
  | yield htakes hto hslot hparams =>
    have hat₁ := (namedBlock_outcome hat hslot).at hat
    rw [hto.pairNames htakes (honce rfl), List.append_nil, Content.guids_eq rfl, Content.inside]
    exact (programSlot_numbered hslot).seq (arguments_numbered tag.call.params hat₁ hparams)
  | partialCall hloose htakes hparams htarget heval =>
    have hnumbered := (expr_numbered .argument _ hat htarget).seq (markEval_numbered heval)
    rw [hparams, htakes.pairs_eq_nil, Content.guids_eq rfl, Content.inside]
    simp only [argumentNames, pairNames, List.append_nil] at hnumbered ⊢
    exact hnumbered
  | debugger htakes hparams heval =>
    rw [hparams, htakes.pairs_eq_nil, Content.guids_eq rfl, Content.inside]
    simp only [argumentNames, pairNames, List.append_nil]
    exact markEval_numbered heval
  | component hvalue =>
    have hcall := dynamicCall_numbered hat hvalue
    rw [callNames, if_pos rfl, List.nil_append] at hcall
    rw [Content.guids_eq rfl, Content.inside, namedBlocksWithin]
    exact hcall
  | value hvalue =>
    have hcall := keywordCall_numbered _ _ tag.span tag.call hat hvalue
    rw [callNames, if_pos rfl, List.nil_append] at hcall
    rw [Content.guids_eq rfl, Content.inside]
    exact hcall

theorem appendTag_numbered {tag : MustacheTag} {p q : Progress} {c : Content}
    (honce : ReadsOnce o env.declared (.mustache tag)) (hat : At o env p)
    (h : (appendTag o tag).run p = .ok c q) :
    Numbered (ownNames o env.declared (.mustache tag)) c.guids p q := by
  obtain ⟨name, _, hname, h⟩ := run_bind_ok.mp h
  obtain ⟨rfl, hkeyword⟩ := keywordName?_ok hat hname
  rw [hkeyword] at h
  rw [ReadsOnce, ← keyword?_eq] at honce
  rw [ownNames, ← keyword?_eq]
  cases hk : keyword? o env AppendKeyword.ofName? tag.call.callee with
  | some k =>
    rw [hk] at h honce
    exact appendForm_numbered (fun hyield => honce (congrArg some hyield)) hat h
  | none =>
    rw [hk] at h
    simp only [run_ite_ok, run_bind_ok, run_pure_ok] at h
    rcases h with ⟨hbare, value, _, hvalue, rfl, rfl⟩ | ⟨-, value, _, hvalue, rfl, rfl⟩
    · rw [Content.guids_eq rfl, Content.inside]
      exact bareCall_numbered hbare (expr_numbered _ tag.call.callee hat hvalue)
    · rw [Content.guids_eq rfl, Content.inside]
      exact callOf_numbered _ tag.span tag.call hat hvalue

/-! ### Blocks -/

/-- A branch adds the free names and the cursors of its block. -/
structure Branch.Numbers (o : Settings) (env : Scopes) (branch : Branch)
    (t : Template.Block Statement) : Prop extends branch.Meets o env t where
  numbered : ∀ {p q : Progress} {b : Block Content}, At o env p →
    branch.resolve.run p = .ok b q →
    Numbered (placedNames o (blockPlaced o env.declared t)) (guidsOf (blockWithin b)) p q

/-- The other branch of a block, if there is one. -/
inductive OtherNumbers (o : Settings) (env : Scopes) :
    Option Branch → Option (Template.Block Statement) → Prop
  | none : OtherNumbers o env none none
  | some {branch : Branch} {t : Template.Block Statement} (h : branch.Numbers o env t) :
    OtherNumbers o env (some branch) (some t)

/-- The free names in the two branches of a block. -/
def branchNames (o : Settings) (around : List String) (program : Template.Block Statement)
    (inverse : Option (Template.Block Statement)) : List String :=
  placedNames o (blockPlaced o around program ++ otherPlaced o around inverse)

/-- The two branches of a block, one after the other. -/
theorem branches_numbered {program : Branch} {inverse : Option Branch}
    {t : Template.Block Statement} {tOther : Option (Template.Block Statement)} {p q r : Progress}
    {block : Block Content} {other : Option (Block Content)} (hprogram : program.Numbers o env t)
    (hinverse : OtherNumbers o env inverse tOther) (hat : At o env p)
    (hblock : program.resolve.run p = .ok block r)
    (hother : (otherBlock inverse).run r = .ok other q) :
    Numbered (branchNames o env.declared t tOther)
      (guidsOf (blockWithin block ++ otherWithin other)) p q := by
  have h₁ := hprogram.numbered hat hblock
  rw [branchNames, placedNames_append, guidsOf_append]
  cases hinverse with
  | none =>
    obtain ⟨rfl, rfl⟩ := run_pure_ok.mp hother
    simp only [otherPlaced, otherWithin]
    exact h₁.seq (.refl r)
  | some hinverse =>
    simp only [otherBlock, run_bind_ok, run_pure_ok] at hother
    obtain ⟨b, _, hb, rfl, rfl⟩ := hother
    simp only [otherPlaced, otherWithin]
    exact h₁.seq (hinverse.numbered ((hprogram.outcome hat hblock).at hat) hb)

/-- The two branches of a block, as blocks with names. -/
theorem namedBranches_numbered {program : Branch} {inverse : Option Branch}
    {t : Template.Block Statement} {tOther : Option (Template.Block Statement)} {p q : Progress}
    {blocks : List (NamedBlock Content)} (hprogram : program.Numbers o env t)
    (hinverse : OtherNumbers o env inverse tOther) (hat : At o env p)
    (h : (namedBranches program inverse).run p = .ok blocks q) :
    Numbered (branchNames o env.declared t tOther) (guidsOf (namedBlocksWithin blocks)) p q := by
  simp only [namedBranches, run_bind_ok] at h
  obtain ⟨block, r, hblock, h⟩ := h
  cases hinverse with
  | none =>
    obtain ⟨rfl, rfl⟩ := run_pure_ok.mp h
    have hrun : (otherBlock none).run r = .ok none r := run_pure_ok.mpr ⟨rfl, rfl⟩
    exact branches_numbered hprogram .none hat hblock hrun
  | @some inverse _ hinverse =>
    simp only [run_bind_ok, run_pure_ok] at h
    obtain ⟨other, _, hother, rfl, rfl⟩ := h
    have hrun : (otherBlock (some inverse)).run r = .ok (some other) _ :=
      run_bind_ok.mpr ⟨other, _, hother, run_pure_ok.mpr ⟨rfl, rfl⟩⟩
    simpa only [namedBlocksWithin, otherWithin, List.append_nil] using
      branches_numbered hprogram (.some hinverse) hat hblock hrun

/-- A block without another branch. -/
theorem Branch.Numbers.alone {program : Branch} {t : Template.Block Statement} {p q : Progress}
    {block : Block Content} (hprogram : program.Numbers o env t) (hat : At o env p)
    (hblock : program.resolve.run p = .ok block q) :
    Numbered (branchNames o env.declared t none) (guidsOf (blockWithin block)) p q := by
  rw [branchNames, otherPlaced, List.append_nil]
  exact hprogram.numbered hat hblock

theorem nextCursor_numbered {guid : String} {p q : Progress}
    (h : nextCursor.run p = .ok guid q) : Numbered [] [guid] p q := by
  obtain ⟨rfl, rfl⟩ := run_modifyGet_ok.mp h
  exact ⟨rfl, rfl, rfl⟩

/-- A block with a keyword: its values come before its branches. -/
theorem blockForm_numbered {k : BlockKeyword} {tag : BlockTag} {program : Branch}
    {inverse : Option Branch} {t : Template.Block Statement}
    {tOther : Option (Template.Block Statement)} {p q : Progress} {c : Content}
    (honce : k = .each ∨ k = .inElement → Distinct tag.call.hash)
    (hprogram : program.Numbers o env t) (hinverse : OtherNumbers o env inverse tOther)
    (hat : At o env p) (h : (blockForm o k tag program inverse).run p = .ok c q) :
    Numbered (callNames o env.declared true tag.call ++ branchNames o env.declared t tOther)
      c.guids p q := by
  rw [callNames, if_pos rfl, List.nil_append]
  cases blockForm_runs h with
  | branch htakes hparams hcondition hblock hother =>
    have hat₁ := (expr_outcome .argument _ hat hcondition).at hat
    rw [hparams, htakes.pairs_eq_nil, Content.guids_eq rfl, Content.inside]
    simp only [argumentNames, pairNames, List.append_nil]
    exact (expr_numbered .argument _ hat hcondition).seq
      (branches_numbered hprogram hinverse hat₁ hblock hother)
  | each htakes hparams hvalue hkey hblock hother =>
    have hat₁ := (expr_outcome .argument _ hat hvalue).at hat
    have hat₂ := (optionalNamed_outcome hat₁ hkey).at hat₁
    rw [hparams, Content.guids_eq rfl, Content.inside]
    simp only [argumentNames, List.append_nil]
    exact ((expr_numbered .argument _ hat hvalue).seq
      (optionalNamed_numbered htakes (honce (.inl rfl)) hat₁ hkey)).seq
        (branches_numbered hprogram hinverse hat₂ hblock hother)
  | withValue htakes hparams hvalue hblock hother =>
    have hat₁ := (expr_outcome .argument _ hat hvalue).at hat
    rw [hparams, htakes.pairs_eq_nil, Content.guids_eq rfl, Content.inside]
    simp only [argumentNames, pairNames, List.append_nil]
    exact (expr_numbered .argument _ hat hvalue).seq
      (branches_numbered hprogram hinverse hat₁ hblock hother)
  | letValues htakes hnone hparams hblock =>
    subst hnone
    cases hinverse
    have hat₁ := (arguments_outcome tag.call.params hat hparams).at hat
    rw [htakes.pairs_eq_nil, Content.guids_eq rfl, Content.inside, pairNames, List.append_nil]
    exact (arguments_numbered tag.call.params hat hparams).seq (hprogram.alone hat₁ hblock)
  | inElement htakes hnone hparams hguid hdestination hinsert hblock =>
    subst hnone
    cases hinverse
    have hat₁ := (nextCursor_outcome hat hguid).at hat
    have hat₂ := (expr_outcome .argument _ hat₁ hdestination).at hat₁
    have hat₃ := (optionalNamed_outcome hat₂ hinsert).at hat₂
    rw [hparams, Content.guids, Content.inside]
    simp only [argumentNames, List.append_nil]
    -- The cursor comes before all that is inside of the block.
    exact ((nextCursor_numbered hguid).seq ((expr_numbered .argument _ hat₁ hdestination).seq
      (optionalNamed_numbered htakes (honce (.inr rfl)) hat₂ hinsert))).seq
        (hprogram.alone hat₃ hblock)
  | component hvalue hblocks =>
    have hat₁ := (dynamicCall_outcome hat hvalue).at hat
    have hcall := dynamicCall_numbered hat hvalue
    rw [callNames, if_pos rfl, List.nil_append] at hcall
    rw [Content.guids_eq rfl, Content.inside]
    exact hcall.seq (namedBranches_numbered hprogram hinverse hat₁ hblocks)
  | withDynamicVars hparams hnone hpairs hblock =>
    subst hnone
    cases hinverse
    have hat₁ := (namedArguments_outcome tag.call.hash.pairs hat hpairs).at hat
    rw [hparams, argumentNames, List.nil_append, Content.guids_eq rfl, Content.inside]
    exact (namedArguments_numbered tag.call.hash.pairs hat hpairs).seq (hprogram.alone hat₁ hblock)

theorem blockTag_numbered {tag : BlockTag} {program : Branch} {inverse : Option Branch}
    {t : Template.Block Statement} {tOther : Option (Template.Block Statement)} {p q : Progress}
    {c : Content} (honce : ReadsOnce o env.declared (.block tag t tOther))
    (hprogram : program.Numbers o env t) (hinverse : OtherNumbers o env inverse tOther)
    (hat : At o env p) (h : (blockTag o tag program inverse).run p = .ok c q) :
    Numbered (placedNames o (placed o env.declared (.block tag t tOther))) c.guids p q := by
  obtain ⟨name, _, hname, h⟩ := run_bind_ok.mp h
  obtain ⟨rfl, hkeyword⟩ := keywordName?_ok hat hname
  rw [hkeyword] at h
  rw [ReadsOnce, ← keyword?_eq] at honce
  rw [placed, placedNames_cons, ownNames, ← keyword?_eq]
  cases hk : keyword? o env BlockKeyword.ofName? tag.call.callee with
  | some k =>
    rw [hk] at h honce
    simp only [Option.some.injEq] at honce
    exact blockForm_numbered honce hprogram hinverse hat h
  | none =>
    rw [hk] at h
    simp only [run_bind_ok, run_pure_ok] at h
    obtain ⟨callee, _, hcallee, positional, _, hparams, named, _, hpairs, blocks, _, hblocks, rfl,
      rfl⟩ := h
    -- No part changes the scopes, so the next one is resolved in the same.
    have hat₁ := (expr_outcome .block tag.call.callee hat hcallee).at hat
    have hat₂ := (arguments_outcome tag.call.params hat₁ hparams).at hat₁
    have hat₃ := (namedArguments_outcome tag.call.hash.pairs hat₂ hpairs).at hat₂
    rw [Option.isSome_none, callNames, if_neg Bool.false_ne_true, Content.guids_eq rfl,
      Content.inside]
    exact (((expr_numbered .block tag.call.callee hat hcallee).seq
      (arguments_numbered tag.call.params hat₁ hparams)).seq
        (namedArguments_numbered tag.call.hash.pairs hat₂ hpairs)).seq
          (namedBranches_numbered hprogram hinverse hat₃ hblocks)

/-! ### Elements -/

theorem componentName_numbered {tag name : String} {p q : Progress}
    (h : (componentName o tag).run p = .ok name q) : Numbered [] [] p q := by
  obtain ⟨hsymbols, hcursors⟩ := componentName_same h
  exact .of_upvars (congrArg Symbols.upvars hsymbols) hcursors

/-- The head of a tag that invokes a component. -/
theorem componentCallee_numbered {tag : StartTag} {span : Span} {e : Expr} {p q : Progress}
    (hat : At o env p) (h : (componentCallee o tag span).run p = .ok e q) :
    Numbered (tagNames o env.declared tag) [] p q := by
  obtain ⟨v, rfl, hruns⟩ := componentCallee_runs h
  rw [tagNames]
  cases hruns with
  | argument harg hslot =>
    simp only [harg, Bool.true_or, if_true]
    exact programSlot_numbered hslot
  | this harg hthis =>
    simp only [hthis, beq_self_eq_true, Bool.or_true, Bool.true_or, if_true]
    exact .refl p
  | bare harg hthis hbound hv =>
    rw [hat.lookup, Scopes.find?_isSome] at hbound
    simp only [harg, beq_false_of_ne hthis, Bool.false_or]
    -- A tag that is looked up as a bare name is bound or stands in a strict template.
    have hnumbered := resolveName_numbered hat hv
    cases hcontains : env.declared.contains (tagPath tag.name).1 with
    | true => simpa only [hcontains, if_true] using hnumbered
    | false =>
      rw [hcontains, Bool.or_false] at hbound
      simpa only [hcontains, hbound, if_true] using hnumbered
  | free harg hthis hfree hname hupvar =>
    obtain ⟨rfl, -⟩ := componentName_outcome hat hname
    rw [hat.lookup, Scopes.find?_isSome, Bool.or_eq_false_iff] at hfree
    simp only [harg, beq_false_of_ne hthis, Bool.false_or]
    rw [hfree.1, hfree.2]
    exact (componentName_numbered hname).seq (free_numbered hupvar)

theorem component_numbered {tag : StartTag} {span : Span} {children : List Statement}
    {blocks : Walk (List (NamedBlock Content))} {p q : Progress} {c : Content}
    (hsplat : ∀ attr ∈ tag.attributes, PlainSplat attr)
    (hname : isBlockName tag.name = false) (hinvokes : invokes o env tag = true)
    (hblocks : ∀ {p q : Progress} {bs : List (NamedBlock Content)}, At o env p →
      blocks.run p = .ok bs q →
      Numbered (placedNames o (placedWithin o (tag.blockParams ++ env.declared) children))
        (guidsOf (namedBlocksWithin bs)) p q)
    (hat : At o env p) (h : (component o tag span blocks).run p = .ok c q) :
    Numbered (placedNames o (placed o env.declared (.element tag children span))) c.guids p q := by
  simp only [component, run_bind_ok, run_pure_ok] at h
  obtain ⟨callee, _, hcallee, value, _, hattrs, modifiers, _, hmodifiers, bs, _, hbs, rfl, rfl⟩ := h
  obtain ⟨head, -, hout⟩ := componentCallee_outcome hat hcallee
  have hat₁ := hout.at hat
  have hat₂ := (componentAttrs_outcome tag.attributes hat₁ hattrs).at hat₁
  have hat₃ := (mapM_outcome modifierOf_outcome tag.modifiers hat₂ hmodifiers).at hat₂
  rw [invokes_eq] at hinvokes
  rw [placed, placedNames_cons, ownNames, childrenNames, hname, hinvokes, Content.guids_eq rfl,
    Content.inside]
  exact (((componentCallee_numbered hat hcallee).seq
    (componentAttrs_numbered hsplat hat₁ hattrs)).seq (modifiers_numbered hat₂ hmodifiers)).seq
      (hblocks hat₃ hbs)

theorem plainElement_numbered {tag : StartTag} {span : Span} {children : List Statement}
    {body : Walk (List Content)} {p q : Progress} {c : Content}
    (hsplat : ∀ attr ∈ tag.attributes, PlainSplat attr)
    (hname : isBlockName tag.name = false) (hplain : invokes o env tag = false)
    (hbody : ∀ {p q : Progress} {cs : List Content}, At o env p → body.run p = .ok cs q →
      Numbered (placedNames o (placedWithin o env.declared children)) (guidsOf (contentsWithin cs))
        p q)
    (hat : At o env p) (h : (plainElement o tag span body).run p = .ok c q) :
    Numbered (placedNames o (placed o env.declared (.element tag children span))) c.guids p q := by
  obtain ⟨attrs, modifiers, cs, _, _, hattrs, hmodifiers, hcs, rfl⟩ := plainElement_runs h
  have hat₁ := (mapM_outcome elementAttr_outcome tag.attributes hat hattrs).at hat
  have hat₂ := (mapM_outcome modifierOf_outcome tag.modifiers hat₁ hmodifiers).at hat₁
  have hattributes : Numbered (attributeNames o env.declared tag.attributes) [] _ _ :=
    mapM_numbered (fun hat h => (elementAttr_outcome hat h).at hat) tag.attributes
      (fun attr hmem _ _ _ hat h => elementAttr_numbered (hsplat attr hmem) hat h) hat hattrs
  rw [invokes_eq] at hplain
  rw [placed, placedNames_cons, ownNames, childrenNames, hname, hplain, Content.guids_eq rfl,
    Content.inside]
  exact (hattributes.seq (modifiers_numbered hat₁ hmodifiers)).seq (hbody hat₂ hcs)

/-! ### Statements -/

/-- No `...attributes` of a tag has a dynamic value. -/
def PlainSplats : Statement → Prop
  | .element tag _ _ => ∀ attr ∈ tag.attributes, PlainSplat attr
  | _ => True

instance (attr : Template.Attr) : Decidable (PlainSplat attr) :=
  inferInstanceAs (Decidable (_ → _))

instance : (s : Statement) → Decidable (PlainSplats s)
  | .element tag _ _ => inferInstanceAs (Decidable (∀ attr ∈ tag.attributes, PlainSplat attr))
  | .mustache _ | .block _ _ _ | .partialCall _ | .comment _ | .mustacheComment _ | .text _ =>
    inferInstanceAs (Decidable True)

/-- A statement of which the walk comes to every name. -/
structure Visited (o : Settings) (s : List String × Statement) : Prop where
  once : ReadsOnce o s.1 s.2
  splats : PlainSplats s.2
  closes : ClosesAlone s.2

/-- A block: its scope is open while its body is resolved, and closed after. -/
theorem inBlock_numbered {params : List String} {children : List Statement} {span : Span}
    {p q : Progress} {b : Block Content}
    (hbody : ∀ {env' : Scopes} {p q : Progress} {cs : List Content},
      env'.declared = params ++ env.declared → At o env' p →
      (statements o children).run p = .ok cs q →
      Numbered (placedNames o (placedWithin o env'.declared children)) (guidsOf (contentsWithin cs))
        p q)
    (hat : At o env p)
    (h : (inBlock params fun slots => return ⟨slots, ← statements o children, span⟩).run p
      = .ok b q) :
    Numbered (placedNames o (placedWithin o (params ++ env.declared) children))
      (guidsOf (blockWithin b)) p q := by
  obtain ⟨slots, s, cs, r, hslots, hcs, rfl, rfl⟩ := inBlock_runs h
  have hopen : Symbols.Opened p.symbols params slots s := Symbols.openBlock_opened hslots
  have hdeclared := Scopes.declared_cons env hopen.length
  have hinner := hbody hdeclared (hat.openBlock hopen) hcs
  rw [hdeclared] at hinner
  rw [blockWithin]
  -- Opening a block adds slots, and closing it takes its scope away; upvars stay.
  have hupvars : s.upvars = p.symbols.upvars := by
    rw [← Symbols.openBlock_upvars p.symbols params, hslots]
  exact ⟨hinner.upvars.trans (by rw [hupvars]), hinner.cursors, hinner.guids⟩

mutual

/-- A statement. -/
theorem statement_numbered (s : Statement) {env : Scopes} {p q : Progress} {c : Content}
    (hvisited : ∀ x ∈ placed o env.declared s, Visited o x) (hat : At o env p)
    (h : (statement o s).run p = .ok c q) :
    Numbered (placedNames o (placed o env.declared s)) c.guids p q := by
  match s with
  | .text node =>
    rw [statement] at h
    obtain ⟨rfl, rfl⟩ := run_pure_ok.mp h
    rw [placed, Content.guids_eq rfl, Content.inside]
    exact .refl p
  | .comment comment =>
    rw [statement] at h
    obtain ⟨rfl, rfl⟩ := run_pure_ok.mp h
    rw [placed, Content.guids_eq rfl, Content.inside]
    exact .refl p
  | .mustacheComment comment =>
    rw [statement] at h
    obtain ⟨rfl, rfl⟩ := run_pure_ok.mp h
    rw [placed, Content.guids_eq rfl, Content.inside]
    exact .refl p
  | .partialCall tag =>
    rw [statement] at h
    exact (run_throw_ok.mp h).elim
  | .mustache tag =>
    rw [statement] at h
    rw [placed] at hvisited ⊢
    rw [placedNames_cons]
    have hnumbered := appendTag_numbered (hvisited _ List.mem_cons_self).once hat h
    exact (List.append_nil _).symm ▸ hnumbered
  | .block tag program none =>
    rw [statement] at h
    rw [placed] at hvisited
    obtain ⟨hself, hinner⟩ := List.forall_mem_cons.mp hvisited
    obtain ⟨hprogram, -⟩ := List.forall_mem_append.mp hinner
    exact blockTag_numbered hself.once
      ⟨⟨rfl, block_outcome program⟩, block_numbered program hprogram⟩ .none hat h
  | .block tag program (some inverse) =>
    rw [statement] at h
    rw [placed] at hvisited
    obtain ⟨hself, hinner⟩ := List.forall_mem_cons.mp hvisited
    obtain ⟨hprogram, hinverse⟩ := List.forall_mem_append.mp hinner
    rw [otherPlaced] at hinverse
    exact blockTag_numbered hself.once
      ⟨⟨rfl, block_outcome program⟩, block_numbered program hprogram⟩
      (.some ⟨⟨rfl, block_outcome inverse⟩, block_numbered inverse hinverse⟩) hat h
  | .element tag children span =>
    obtain ⟨hname, invoked, r, hinvoked, hruns⟩ := element_runs h
    obtain ⟨rfl, hinvokes⟩ := isComponent_ok hat hinvoked
    rw [placed, childrenNames, hname, ← invokes_eq, hinvokes] at hvisited
    obtain ⟨hself, hchildren⟩ := List.forall_mem_cons.mp hvisited
    have hsplat : ∀ attr ∈ tag.attributes, PlainSplat attr := hself.splats
    rcases hruns with ⟨rfl, blocks, hblocks, hrun⟩ | ⟨rfl, hrun⟩
    · rw [Bool.or_true, if_pos rfl] at hchildren
      refine component_numbered hsplat hname hinvokes (fun {p q bs} hat hbs => ?_) hat hrun
      cases hblocks hbs with
      | named hnamed hparams h =>
        -- A component that is given named blocks declares nothing itself.
        rw [hparams, List.nil_append] at hchildren ⊢
        exact namedBlocks_numbered tag.name [] children hchildren hat h
      | alone hnamed hclosing =>
        obtain rfl := hself.closes hclosing
        rw [placedWithin, namedBlocksWithin]
        exact .refl p
      | default hnamed hclosing hblock =>
        rw [namedBlocksWithin, namedBlocksWithin, List.append_nil]
        refine inBlock_numbered (fun {env' p q cs} henv hat h => ?_) hat hblock
        exact statements_numbered children (henv ▸ hchildren) hat h
    · exact plainElement_numbered hsplat hname hinvokes
        (fun hat h => statements_numbered children hchildren hat h) hat hrun

theorem statements_numbered (ss : List Statement) {env : Scopes} {p q : Progress}
    {cs : List Content} (hvisited : ∀ x ∈ placedWithin o env.declared ss, Visited o x)
    (hat : At o env p) (h : (statements o ss).run p = .ok cs q) :
    Numbered (placedNames o (placedWithin o env.declared ss)) (guidsOf (contentsWithin cs))
      p q := by
  match ss with
  | [] =>
    rw [statements] at h
    obtain ⟨rfl, rfl⟩ := run_pure_ok.mp h
    rw [placedWithin, contentsWithin]
    exact .refl p
  | s :: rest =>
    rw [statements] at h
    simp only [run_bind_ok, run_pure_ok] at h
    obtain ⟨c, _, hc, cs, _, hcs, rfl, rfl⟩ := h
    rw [placedWithin] at hvisited ⊢
    obtain ⟨hfirst, hrest⟩ := List.forall_mem_append.mp hvisited
    have hat₁ := (statement_outcome s hat hc).at hat
    rw [placedNames_append, contentsWithin, ← List.cons_append, guidsOf_append]
    exact (statement_numbered s hfirst hat hc).seq (statements_numbered rest hrest hat₁ hcs)

theorem block_numbered (t : Template.Block Statement) {env : Scopes}
    (hvisited : ∀ x ∈ blockPlaced o env.declared t, Visited o x) {p q : Progress}
    {b : Block Content} (hat : At o env p) (h : (block o t).run p = .ok b q) :
    Numbered (placedNames o (blockPlaced o env.declared t)) (guidsOf (blockWithin b)) p q := by
  match t with
  | ⟨body, params, chained, span⟩ =>
    rw [block] at h
    rw [blockPlaced] at hvisited ⊢
    refine inBlock_numbered (fun {env' p q cs} henv hat h => ?_) hat h
    exact statements_numbered body (henv ▸ hvisited) hat h

theorem namedBlocks_numbered (component : String) (seen : List String) (ss : List Statement)
    {env : Scopes} {p q : Progress} {bs : List (NamedBlock Content)}
    (hvisited : ∀ x ∈ placedWithin o env.declared ss, Visited o x) (hat : At o env p)
    (h : (namedBlocks o component seen ss).run p = .ok bs q) :
    Numbered (placedNames o (placedWithin o env.declared ss)) (guidsOf (namedBlocksWithin bs))
      p q := by
  match ss with
  | [] =>
    unfold namedBlocks at h
    obtain ⟨rfl, rfl⟩ := run_pure_ok.mp h
    rw [placedWithin, namedBlocksWithin]
    exact .refl p
  | .element tag children span :: rest =>
    unfold namedBlocks at h
    simp only [run_ite_ok, run_bind_ok, run_throw_ok, run_pure_ok, and_false, or_false] at h
    obtain ⟨htag, name, _, hname, b, _, hb, bs, _, hbs, rfl, rfl⟩ := h
    obtain ⟨rfl, -, -, hattributes, hmodifiers, -⟩ := namedBlockName_ok hname
    rw [placedWithin, placed, childrenNames, htag, Bool.true_or, if_pos rfl] at hvisited ⊢
    obtain ⟨hfirst, hrest⟩ := List.forall_mem_append.mp hvisited
    obtain ⟨-, hchildren⟩ := List.forall_mem_cons.mp hfirst
    have hblock := inBlock_outcome false (fun hat h => statements_outcome children hat h) hat hb
    have hat₁ := hblock.at hat
    -- The tag of a named block has no names of its own.
    have hown : ownNames o env.declared (.element tag children span) = [] := by
      simp [ownNames, htag, hattributes, hmodifiers, attributeNames, modifierNames]
    rw [List.cons_append, placedNames_cons, hown, List.nil_append, placedNames_append,
      namedBlocksWithin, guidsOf_append]
    refine Numbered.seq ?_ (namedBlocks_numbered component (name :: seen) rest hrest hat₁ hbs)
    refine inBlock_numbered (fun {env' p q cs} henv hat h => ?_) hat hb
    exact statements_numbered children (henv ▸ hchildren) hat h
  | .text _ :: rest | .comment _ :: rest | .mustacheComment _ :: rest =>
    unfold namedBlocks at h
    simp only [run_ite_ok, run_throw_ok, and_false, or_false] at h
    obtain ⟨-, h⟩ := h
    rw [placedWithin, placed] at hvisited ⊢
    obtain ⟨-, hrest⟩ := List.forall_mem_append.mp hvisited
    exact namedBlocks_numbered component seen rest hrest hat h
  | .partialCall _ :: rest | .mustache _ :: rest | .block _ _ _ :: rest =>
    unfold namedBlocks at h
    simp [run_throw_ok, isBetweenBlocks] at h

end

end

/-! ### Templates -/

/-- In a template that was parsed a tag that closes itself has no children. -/
theorem closesAlone_of_close {ss : List Statement} (h : Template.Close ss) :
    ∀ s ∈ Template.statementsWithin ss, ClosesAlone s := by
  intro s hs
  have hcloses := h s hs
  cases s with
  | element tag children span =>
    intro hself
    rcases hcloses with hempty | hopens
    · exact hempty
    · exact absurd hself (by simp [hopens.2])
  | mustache _ | partialCall _ | comment _ | mustacheComment _ | text _ | block _ _ _ =>
    exact trivial

/-- The upvars of a template are its free names in the order of their first use,
and its cursors are numbered in the order of their blocks. -/
theorem resolve_numbers {source : Source} {mode : Markup.Mode} {t : Template}
    {warnings : List Diagnostic} {o : Settings} {body : Body} {p : Progress}
    (hparse : Template.parse source mode = .ok (t, warnings))
    (hsplat : ∀ s ∈ Template.statementsWithin t.body, PlainSplats s)
    (honce : ∀ s ∈ placedWithin o [] t.body, ReadsOnce o s.1 s.2)
    (h : t.resolve o = (.ok body, p)) :
    p.symbols.upvars = (freeNames o t).eraseDups ∧
      guidsOf (contentsWithin body.body)
        = (List.range (guidsOf (contentsWithin body.body)).length).map cursorText := by
  -- What is assumed of all statements holds of each where it is placed.
  have hvisited : ∀ x ∈ placedWithin o [] t.body, Visited o x := by
    intro x hx
    have hmem : x.2 ∈ Template.statementsWithin t.body := by
      rw [← placedWithin_snd o []]
      exact List.mem_map_of_mem hx
    exact ⟨honce x hx, hsplat x.2 hmem,
      closesAlone_of_close (Template.parse_closes hparse) x.2 hmem⟩
  rw [Template.resolve] at h
  split at h
  · next contents q hrun =>
    obtain ⟨rfl, rfl⟩ : (⟨contents, t.span⟩ : Body) = body ∧ q = p := by simpa using h
    have hnumbered := statements_numbered t.body hvisited (start_at o) hrun
    constructor
    · rw [← foldl_note]
      exact hnumbered.upvars
    · rw [List.range_eq_range']
      exact hnumbered.guids
  · simp at h

/-- A component with an argument, in a cursor under the name that the argument reads. -/
def cursorSource : Source :=
  ⟨"\x7b\x7b#in-element b\x7d\x7d<A @a=\x7b\x7bb\x7d\x7d/>\x7b\x7b/in-element\x7d\x7d", ""⟩

/-- The tokens of `cursorSource`. -/
def cursorTokens : List Mustache.Token :=
  [⟨.openBlock false, ⟨0, 3⟩⟩, ⟨.id "in-element", ⟨3, 13⟩⟩, ⟨.id "b", ⟨14, 15⟩⟩,
    ⟨.close false, ⟨15, 17⟩⟩, ⟨.content "<A @a=", ⟨17, 23⟩⟩, ⟨.open false false, ⟨23, 25⟩⟩,
    ⟨.id "b", ⟨25, 26⟩⟩, ⟨.close false, ⟨26, 28⟩⟩, ⟨.content "/>", ⟨28, 30⟩⟩,
    ⟨.openEndBlock false, ⟨30, 33⟩⟩, ⟨.id "in-element", ⟨33, 43⟩⟩, ⟨.close false, ⟨43, 45⟩⟩,
    ⟨.eof, ⟨45, 45⟩⟩]

/-- The template that is written there. -/
def cursorTemplate : Template where
  body :=
    [.block ⟨⟨.path ⟨.var "in-element", [], "in-element", ⟨3, 13⟩⟩,
          [.path ⟨.var "b", [], "b", ⟨14, 15⟩⟩], ⟨[], ⟨15, 15⟩⟩⟩, {}, {}, {}, ⟨0, 45⟩⟩
      { body :=
          [.element
            { name := "A"
              selfClosing := true
              attributes := [⟨"@a", .mustache ⟨⟨.path ⟨.var "b", [], "b", ⟨25, 26⟩⟩, [],
                ⟨[], ⟨26, 26⟩⟩⟩, false, {}, ⟨23, 28⟩⟩, ⟨20, 28⟩⟩] }
            [] ⟨17, 30⟩]
        span := ⟨17, 30⟩ }
      none]
  span := ⟨0, 45⟩

theorem resolve_numbers_cursor :
    ∃ body p, Template.parse cursorSource .precompile = .ok (cursorTemplate, []) ∧
      cursorTemplate.resolve {} = (.ok body, p) ∧ freeNames {} cursorTemplate = ["b", "A", "b"] ∧
      p.symbols.upvars = ["b", "A"] ∧ guidsOf (contentsWithin body.body) = ["%cursor:0%"] := by
  have hparse : Template.parse cursorSource .precompile = .ok (cursorTemplate, []) := by
    have hlex : Mustache.lex cursorSource.text = cursorTokens := by decide +kernel
    have hprogram : Mustache.parseProgram cursorTokens = .ok _ := rfl
    rw [Template.parse, hlex, hprogram]
    -- Only the texts are run; the statements are laid open before.
    show Template.build cursorSource .precompile
      ⟨[.block _ ⟨[.content _, .mustache _, .content _], _, _, _⟩ none], _, _, _⟩ = _
    simp only [Template.build, Template.Builder.program, Template.Builder.nodes,
      Template.Builder.node]
    with_unfolding_all rfl
  have hsplat : ∀ s ∈ Template.statementsWithin cursorTemplate.body, PlainSplats s := by
    decide +kernel
  have honce : ∀ s ∈ placedWithin {} [] cursorTemplate.body, ReadsOnce {} s.1 s.2 := by
    decide +kernel
  have hnames : freeNames {} cursorTemplate = ["b", "A", "b"] := by decide +kernel
  have hcount : (cursorTemplate.resolve {}).1.toOption.map
      (fun body => (guidsOf (contentsWithin body.body)).length) = some 1 := by decide +kernel
  obtain ⟨body, hbody, hcount⟩ := ok_of_map_toOption hcount
  have hresolve : cursorTemplate.resolve {} = (.ok body, (cursorTemplate.resolve {}).2) := by
    rw [← hbody]
  obtain ⟨hupvars, hguids⟩ := resolve_numbers hparse hsplat honce hresolve
  rw [hnames] at hupvars
  rw [hcount] at hguids
  exact ⟨body, _, hparse, hresolve, hnames, hupvars, hguids⟩

end TemplateCompiler.Resolved
