/-
The walk agrees with lexical scoping.

The walk keeps a table of open scopes; the rules of `ResolvesStatement` pass the
scopes down the tree.  Both come to the same:

* `statement_outcome`, `statements_outcome`, `block_outcome` — one statement, a
  list of them, and a block in a scope of its own;
* `resolve_agrees` — a whole template.

The same induction shows that no two blocks share a slot: `Content.blockParams`
lists the slots of the parameters of every block, and each step of the walk adds
only slots that were not given before it.
-/
import TemplateCompiler.Proofs.Resolved.Runs
import TemplateCompiler.Proofs.Resolved.Values

namespace TemplateCompiler.Resolved

open Template (Hash Call MustacheTag BlockTag StartTag Statement)

/-! ### The parameters of all blocks -/

mutual

/-- The slots of the parameters of every block in a piece of content. -/
def Content.blockParams : Content → List (List Nat)
  | .text _ _ | .comment _ _ | .hiddenComment _ _ | .append _ _ _ => []
  | .yield _ _ _ | .debugger _ _ | .partialCall _ _ _ => []
  | .invokeBlock _ _ blocks _ | .invokeDynamic _ _ blocks _ => namedBlockParams blocks
  | .invokeComponent _ _ _ blocks _ => namedBlockParams blocks
  | .element _ _ body _ => contentParams body
  | .branch _ block inverse _ | .each _ _ block inverse _ | .withValue _ block inverse _ =>
    blockParams block ++ otherParams inverse
  | .letValues _ block _ | .inElement _ _ _ block _ | .withDynamicVars _ block _ =>
    blockParams block

/-- The slots of the parameters of every block in content. -/
def contentParams : List Content → List (List Nat)
  | [] => []
  | c :: rest => c.blockParams ++ contentParams rest

/-- The slots of the parameters of a block and of every block in it. -/
def blockParams : Block Content → List (List Nat)
  | ⟨params, body, _⟩ => params :: contentParams body

/-- The slots of the parameters of blocks with names and of every block in
them. -/
def namedBlockParams : List (NamedBlock Content) → List (List Nat)
  | [] => []
  | ⟨_, block, _⟩ :: rest => blockParams block ++ namedBlockParams rest

/-- The slots of the parameters of a block that may be missing. -/
def otherParams : Option (Block Content) → List (List Nat)
  | none => []
  | some block => blockParams block

end

section

variable {o : Settings} {env : Scopes}

/-! ### Tags among content -/

theorem appendForm_outcome {k : AppendKeyword} {tag : MustacheTag} {p q : Progress} {c : Content}
    (hat : At o env p) (h : (appendForm o k tag).run p = .ok c q) :
    Outcome o (fun F => ResolvesAppendForm o F env tag k c) c.blockParams p q := by
  cases appendForm_runs h with
  | yield htakes hto hslot hparams =>
    have h₁ := namedBlock_outcome hat hslot
    have h₂ := arguments_outcome tag.call.params (h₁.at hat) hparams
    exact (h₁.seq h₂).imp fun F hF => .yield htakes hto hF.1 hF.2
  | partialCall hloose htakes hparams htarget heval =>
    have h₁ := expr_outcome .argument _ hat htarget
    have h₂ := markEval_outcome (h₁.at hat) heval
    exact (h₁.seq h₂).imp fun F hF => .partialCall hloose htakes hparams hF.1
  | debugger htakes hparams heval =>
    exact (markEval_outcome hat heval).imp fun F _ => .debugger htakes hparams
  | component hvalue => exact (dynamicCall_outcome hat hvalue).imp fun F hF => .component hF
  | value hvalue =>
    exact (keywordCall_outcome _ _ tag.span tag.call hat hvalue).imp fun F hF => .value hF

theorem appendTag_outcome {tag : MustacheTag} {p q : Progress} {c : Content}
    (hat : At o env p) (h : (appendTag o tag).run p = .ok c q) :
    Outcome o (fun F => ResolvesAppend o F env tag c) c.blockParams p q := by
  obtain ⟨name, _, hname, h⟩ := run_bind_ok.mp h
  obtain ⟨rfl, hkeyword⟩ := keywordName?_ok hat hname
  rw [hkeyword] at h
  cases hk : keyword? o env AppendKeyword.ofName? tag.call.callee with
  | some k =>
    rw [hk] at h
    exact (appendForm_outcome hat h).imp fun F hF => .keyword hk hF
  | none =>
    rw [hk] at h
    simp only [run_ite_ok, run_bind_ok, run_pure_ok] at h
    rcases h with ⟨hbare, value, _, hvalue, rfl, rfl⟩ | ⟨-, value, _, hvalue, rfl, rfl⟩
    · rw [Bool.and_eq_true, List.isEmpty_iff, List.isEmpty_iff] at hbare
      exact (expr_outcome _ tag.call.callee hat hvalue).imp fun F hF =>
        .bare hk hbare.1 hbare.2 hF
    · exact (callOf_outcome _ tag.span tag.call hat hvalue).imp fun F hF => .call hk hF

/-! ### Blocks -/

/-- A branch resolves a block of the template, wherever the walk is. -/
structure Branch.Meets (o : Settings) (env : Scopes) (branch : Branch)
    (t : Template.Block Statement) : Prop where
  span : branch.span = t.span
  outcome : ∀ {p q : Progress} {b : Block Content}, At o env p →
    branch.resolve.run p = .ok b q →
    Outcome o (fun F => ResolvesBlock o F env t b) (blockParams b) p q

/-- The other branch of a block, if there is one. -/
inductive OtherMeets (o : Settings) (env : Scopes) :
    Option Branch → Option (Template.Block Statement) → Prop
  | none : OtherMeets o env none none
  | some {branch : Branch} {t : Template.Block Statement} (h : branch.Meets o env t) :
    OtherMeets o env (some branch) (some t)

theorem otherBlock_outcome {inverse : Option Branch} {t : Option (Template.Block Statement)}
    {p q : Progress} {other : Option (Block Content)} (hmeets : OtherMeets o env inverse t)
    (hat : At o env p) (h : (otherBlock inverse).run p = .ok other q) :
    Outcome o (fun F => ResolvesOther o F env t other) (otherParams other) p q := by
  cases hmeets with
  | none =>
    obtain ⟨rfl, rfl⟩ := run_pure_ok.mp h
    exact Outcome.rfl hat fun F => .none
  | some hmeets =>
    simp only [otherBlock, run_bind_ok, run_pure_ok] at h
    obtain ⟨b, _, hb, rfl, rfl⟩ := h
    exact (hmeets.outcome hat hb).imp fun F hF => .some hF

theorem namedBranches_outcome {program : Branch} {inverse : Option Branch}
    {t : Template.Block Statement} {tOther : Option (Template.Block Statement)} {p q : Progress}
    {blocks : List (NamedBlock Content)} (hprogram : program.Meets o env t)
    (hinverse : OtherMeets o env inverse tOther) (hat : At o env p)
    (h : (namedBranches program inverse).run p = .ok blocks q) :
    ∃ block other, blocks = branchBlocks t tOther block other ∧
      Outcome o (fun F => ResolvesBlock o F env t block ∧ ResolvesOther o F env tOther other)
        (namedBlockParams blocks) p q := by
  simp only [namedBranches, run_bind_ok] at h
  obtain ⟨block, r, hblock, h⟩ := h
  have h₁ := hprogram.outcome hat hblock
  cases hinverse with
  | none =>
    obtain ⟨rfl, rfl⟩ := run_pure_ok.mp h
    refine ⟨block, none, by rw [hprogram.span]; rfl, ?_⟩
    exact (h₁.seq (Outcome.rfl (h₁.at hat) fun F => ResolvesOther.none))
  | some hinverse =>
    simp only [run_bind_ok, run_pure_ok] at h
    obtain ⟨other, _, hother, rfl, rfl⟩ := h
    have h₂ := hinverse.outcome (h₁.at hat) hother
    refine ⟨block, some other, by rw [hprogram.span, hinverse.span]; rfl, ?_⟩
    have hseq := (h₁.seq h₂).imp fun F hF => And.intro hF.1 (ResolvesOther.some hF.2)
    simpa only [namedBlockParams, List.append_nil] using hseq

/-- A block with a keyword: its values are resolved before its branches. -/
theorem blockForm_outcome {k : BlockKeyword} {tag : BlockTag} {program : Branch}
    {inverse : Option Branch} {t : Template.Block Statement}
    {tOther : Option (Template.Block Statement)} {p q : Progress} {c : Content}
    (hprogram : program.Meets o env t) (hinverse : OtherMeets o env inverse tOther)
    (hat : At o env p) (h : (blockForm o k tag program inverse).run p = .ok c q) :
    ∃ block other, Outcome o (fun F => ResolvesBlock o F env t block ∧
      ResolvesOther o F env tOther other ∧
      ResolvesBlockForm o F env tag t tOther block other k c) c.blockParams p q := by
  cases blockForm_runs h with
  | branch htakes hparams hcondition hblock hother =>
    have h₁ := expr_outcome .argument _ hat hcondition
    have h₂ := hprogram.outcome (h₁.at hat) hblock
    have h₃ := otherBlock_outcome hinverse (h₂.at (h₁.at hat)) hother
    exact ⟨_, _, (h₁.seq (h₂.seq h₃)).imp fun F hF =>
      ⟨hF.2.1, hF.2.2, .branch htakes hparams hF.1⟩⟩
  | each htakes hparams hvalue hkey hblock hother =>
    have h₁ := expr_outcome .argument _ hat hvalue
    have h₂ := optionalNamed_outcome (h₁.at hat) hkey
    have h₃ := hprogram.outcome (h₂.at (h₁.at hat)) hblock
    have h₄ := otherBlock_outcome hinverse (h₃.at (h₂.at (h₁.at hat))) hother
    exact ⟨_, _, ((h₁.seq h₂).seq (h₃.seq h₄)).imp fun F hF =>
      ⟨hF.2.1, hF.2.2, .each htakes hparams hF.1.1 hF.1.2⟩⟩
  | withValue htakes hparams hvalue hblock hother =>
    have h₁ := expr_outcome .argument _ hat hvalue
    have h₂ := hprogram.outcome (h₁.at hat) hblock
    have h₃ := otherBlock_outcome hinverse (h₂.at (h₁.at hat)) hother
    exact ⟨_, _, (h₁.seq (h₂.seq h₃)).imp fun F hF =>
      ⟨hF.2.1, hF.2.2, .withValue htakes hparams hF.1⟩⟩
  | letValues htakes hnone hparams hblock =>
    subst hnone
    cases hinverse
    have h₁ := arguments_outcome tag.call.params hat hparams
    have h₂ := hprogram.outcome (h₁.at hat) hblock
    exact ⟨_, none, (h₁.seq h₂).imp fun F hF => ⟨hF.2, .none, .letValues htakes rfl hF.1⟩⟩
  | inElement htakes hnone hparams hguid hdestination hinsert hblock =>
    subst hnone
    cases hinverse
    have h₁ := nextCursor_outcome hat hguid
    have h₂ := expr_outcome .argument _ (h₁.at hat) hdestination
    have h₃ := optionalNamed_outcome (h₂.at (h₁.at hat)) hinsert
    have h₄ := hprogram.outcome (h₃.at (h₂.at (h₁.at hat))) hblock
    exact ⟨_, none, (h₁.seq ((h₂.seq h₃).seq h₄)).imp fun F hF =>
      ⟨hF.2.2, .none, .inElement htakes rfl hparams hF.2.1.1 hF.2.1.2⟩⟩
  | component hvalue hblocks =>
    have h₁ := dynamicCall_outcome hat hvalue
    obtain ⟨block, other, rfl, h₂⟩ := namedBranches_outcome hprogram hinverse (h₁.at hat) hblocks
    exact ⟨block, other, (h₁.seq h₂).imp fun F hF => ⟨hF.2.1, hF.2.2, .component hF.1⟩⟩
  | withDynamicVars hparams hnone hpairs hblock =>
    subst hnone
    cases hinverse
    have h₁ := namedArguments_outcome tag.call.hash.pairs hat hpairs
    have h₂ := hprogram.outcome (h₁.at hat) hblock
    exact ⟨_, none, (h₁.seq h₂).imp fun F hF =>
      ⟨hF.2, .none, .withDynamicVars hparams rfl hF.1⟩⟩

theorem blockTag_outcome {tag : BlockTag} {program : Branch} {inverse : Option Branch}
    {t : Template.Block Statement} {tOther : Option (Template.Block Statement)} {p q : Progress}
    {c : Content} (hprogram : program.Meets o env t) (hinverse : OtherMeets o env inverse tOther)
    (hat : At o env p) (h : (blockTag o tag program inverse).run p = .ok c q) :
    Outcome o (fun F => ResolvesStatement o F env (.block tag t tOther) c) c.blockParams p q := by
  obtain ⟨name, _, hname, h⟩ := run_bind_ok.mp h
  obtain ⟨rfl, hkeyword⟩ := keywordName?_ok hat hname
  rw [hkeyword] at h
  cases hk : keyword? o env BlockKeyword.ofName? tag.call.callee with
  | some k =>
    rw [hk] at h
    obtain ⟨block, other, hout⟩ := blockForm_outcome hprogram hinverse hat h
    exact hout.imp fun F hF => .blockForm hk hF.1 hF.2.1 hF.2.2
  | none =>
    rw [hk] at h
    simp only [run_bind_ok, run_pure_ok] at h
    obtain ⟨callee, _, hcallee, positional, _, hparams, named, _, hpairs, blocks, _, hblocks, rfl,
      rfl⟩ := h
    -- The callee, its arguments and the branches, one after the other.
    have h₁ := expr_outcome .block tag.call.callee hat hcallee
    have h₂ := arguments_outcome tag.call.params (h₁.at hat) hparams
    have h₃ := namedArguments_outcome tag.call.hash.pairs (h₂.at (h₁.at hat)) hpairs
    obtain ⟨block, other, rfl, h₄⟩ :=
      namedBranches_outcome hprogram hinverse (h₃.at (h₂.at (h₁.at hat))) hblocks
    exact (((h₁.seq h₂).seq h₃).seq h₄).imp fun F hF =>
      .invokeBlock hk hF.1.1.1 hF.1.1.2 hF.1.2 hF.2.1 hF.2.2

/-! ### Elements -/

theorem isComponent_ok {tag : StartTag} {span : Span} {b : Bool} {p q : Progress}
    (hat : At o env p) (h : (isComponent o tag span).run p = .ok b q) :
    p = q ∧ invokes o env tag = b := by
  have hscope : tagInScope o p.symbols (tagPath tag.name).1 =
      (isArgumentName (tagPath tag.name).1 || (tagPath tag.name).1 == "this" ||
        o.binds env (tagPath tag.name).1) := by
    rw [tagInScope, hat.isBound]
  simp only [isComponent, run_bind_ok, run_getSymbols_ok, run_ite_ok, run_throw_ok, run_pure_ok,
    false_and, exists_false, and_false, false_or] at h
  obtain ⟨_, _, ⟨rfl, rfl⟩, h⟩ := h
  rw [hscope] at h
  rw [invokes]
  rcases h with ⟨hin, rfl, rfl⟩ | ⟨hout, -, -, rfl, rfl⟩
  · exact ⟨rfl, by simp [hin]⟩
  · exact ⟨rfl, by simp only [Bool.eq_false_iff.mpr hout, Bool.false_or]⟩

theorem componentCallee_outcome {tag : StartTag} {span : Span} {e : Expr} {p q : Progress}
    (hat : At o env p) (h : (componentCallee o tag span).run p = .ok e q) :
    ∃ head, e = .path head (tagPath tag.name).2 (tagSpan tag span) ∧
      Outcome o (fun F => ResolvesTag o F env (tagPath tag.name).1 (tagSpan tag span) head) []
        p q := by
  obtain ⟨head, rfl, hruns⟩ := componentCallee_runs h
  refine ⟨head, rfl, ?_⟩
  cases hruns with
  | argument harg hslot => exact (argument_outcome hat hslot).imp fun F hF => .argument harg hF
  | this harg hthis => exact Outcome.rfl hat fun F => .this harg hthis
  | bare harg hthis hbound hv =>
    obtain ⟨reference, rfl, hout⟩ := resolveName_outcome hat hv
    refine hout.imp fun F hF => ?_
    cases hF with
    | bound hfind => exact .bound harg hthis hfind
    | provided hfind hstrict hlocal hupvar => exact .provided harg hthis hfind hstrict hlocal hupvar
    | loose hfind hloose =>
      -- A tag that is looked up as a bare name is bound or stands in a strict template.
      simp [hat.lookup, hfind, hloose] at hbound
  | free harg hthis hfree hname hupvar =>
    obtain ⟨rfl, h₁⟩ := componentName_outcome hat hname
    simp only [hat.lookup, Bool.or_eq_false_iff, Option.isSome_eq_false_iff,
      Option.isNone_iff_eq_none] at hfree
    have h₂ := free_outcome hfree.1 (h₁.at hat) hupvar
    exact (h₁.seq h₂).imp fun F hF => .free harg hthis hfree.2 hfree.1 hF.2

theorem namedBlockName_ok {seen : List String} {tag : StartTag} {span : Span} {name : String}
    {p q : Progress} (h : (namedBlockName seen tag span).run p = .ok name q) :
    p = q ∧ name = Symbols.blockName (String.ofList tag.name.toList.tail) ∧
      tag.name.toList.tail.head?.any Char.isLower = true ∧ tag.attributes = [] ∧
      tag.modifiers = [] ∧ name ∉ seen := by
  simp only [namedBlockName, run_bind_ok, run_ite_ok, run_throw_ok, run_pure_ok, false_and,
    exists_false, and_false, false_or] at h
  obtain ⟨hlower, hempty, hseen, rfl, rfl⟩ := h
  simp only [String.toList_ofList, Bool.not_eq_eq_eq_not, Bool.not_true, Bool.or_eq_true, not_or,
    Bool.not_eq_false] at hlower hempty
  exact ⟨rfl, rfl, hlower, List.isEmpty_iff.mp hempty.1, List.isEmpty_iff.mp hempty.2,
    fun hmem => hseen (List.contains_iff_mem.mpr hmem)⟩

theorem component_outcome {tag : StartTag} {span : Span} {children : List Statement}
    {blocks : Walk (List (NamedBlock Content))} {p q : Progress} {c : Content}
    (hname : isBlockName tag.name = false) (hinvokes : invokes o env tag = true)
    (hblocks : ∀ {p q : Progress} {bs : List (NamedBlock Content)}, At o env p →
      blocks.run p = .ok bs q →
      Outcome o (fun F => ResolvesChildren o F env tag children span bs) (namedBlockParams bs) p q)
    (hat : At o env p) (h : (component o tag span blocks).run p = .ok c q) :
    Outcome o (fun F => ResolvesStatement o F env (.element tag children span) c) c.blockParams
      p q := by
  simp only [component, run_bind_ok, run_pure_ok] at h
  obtain ⟨callee, _, hcallee, value, _, hattrs, modifiers, _, hmodifiers, bs, _, hbs, rfl, rfl⟩ := h
  obtain ⟨head, rfl, h₁⟩ := componentCallee_outcome hat hcallee
  have h₂ := componentAttrs_outcome tag.attributes (h₁.at hat) hattrs
  have h₃ := mapM_outcome modifierOf_outcome tag.modifiers (h₂.at (h₁.at hat)) hmodifiers
  have h₄ := hblocks (h₃.at (h₂.at (h₁.at hat))) hbs
  exact (((h₁.seq h₂).seq h₃).seq h₄).imp fun F hF =>
    .component hname hinvokes hF.1.1.1 hF.1.1.2 hF.1.2 hF.2

theorem plainElement_outcome {tag : StartTag} {span : Span} {children : List Statement}
    {body : Walk (List Content)} {p q : Progress} {c : Content}
    (hname : isBlockName tag.name = false) (hplain : invokes o env tag = false)
    (hbody : ∀ {p q : Progress} {cs : List Content}, At o env p → body.run p = .ok cs q →
      Outcome o (fun F => ResolvesStatements o F env children cs) (contentParams cs) p q)
    (hat : At o env p) (h : (plainElement o tag span body).run p = .ok c q) :
    Outcome o (fun F => ResolvesStatement o F env (.element tag children span) c) c.blockParams
      p q := by
  obtain ⟨attrs, modifiers, cs, _, _, hattrs, hmodifiers, hcs, rfl⟩ := plainElement_runs h
  have h₁ := mapM_outcome elementAttr_outcome tag.attributes hat hattrs
  have h₂ := mapM_outcome modifierOf_outcome tag.modifiers (h₁.at hat) hmodifiers
  have h₃ := hbody (h₂.at (h₁.at hat)) hcs
  exact ((h₁.seq h₂).seq h₃).imp fun F hF => .element hname hplain hF.1.1 hF.1.2 hF.2

/-! ### Statements -/

/-- Inside a block its own parameters are found before any name around it. -/
theorem At.openBlock {params : List String} {slots : List Nat} {p : Progress} {s : Symbols}
    (hat : At o env p) (hopen : Symbols.Opened p.symbols params slots s) :
    At o (params.zip slots :: env) { p with symbols := s } := by
  refine ⟨fun name => ?_, hopen.sound hat.slots, hopen.templateLocals.trans hat.locals,
    hat.registered⟩
  rw [hopen.lookup, hat.lookup]
  simp only [Scopes.find?, List.findSome?_cons]
  cases (params.zip slots).lookup name <;> rfl

/-- A block: its scope is open while its body is resolved, and closed after. -/
theorem inBlock_outcome {params : List String} {children : List Statement} {span : Span}
    (chained : Bool) {p q : Progress} {b : Block Content}
    (hbody : ∀ {env : Scopes} {p q : Progress} {cs : List Content}, At o env p →
      (statements o children).run p = .ok cs q →
      Outcome o (fun F => ResolvesStatements o F env children cs) (contentParams cs) p q)
    (hat : At o env p)
    (h : (inBlock params fun slots => return ⟨slots, ← statements o children, span⟩).run p
      = .ok b q) :
    Outcome o (fun F => ResolvesBlock o F env ⟨children, params, chained, span⟩ b)
      (blockParams b) p q := by
  obtain ⟨slots, s, cs, r, hslots, hcs, rfl, rfl⟩ := inBlock_runs h
  have hopen : Symbols.Opened p.symbols params slots s := Symbols.openBlock_opened hslots
  have hout := hbody (hat.openBlock hopen) hcs
  -- Closing the block gives the scopes around it back as they were.
  have hsym : p.symbols.Advances r.symbols.closeBlock :=
    Symbols.Advances.of_opened hopen hout.symbols
  -- The parameters take the first slots, and the blocks inside take later ones.
  have hparams : Fresh p.symbols.names.length s.names.length [slots] := by
    refine ⟨fun slots' hmem slot hslot => ?_, List.pairwise_singleton _ _⟩
    rw [List.mem_singleton.mp hmem] at hslot
    obtain ⟨i, hi, rfl⟩ := List.mem_iff_getElem.mp hslot
    have hi' : i < params.length := hopen.length ▸ hi
    have hentry : (params[i], slots[i]) ∈ params.zip slots :=
      List.mem_iff_getElem.mpr ⟨i, by rw [List.length_zip]; omega, by simp⟩
    exact ⟨hopen.fresh _ hslot, (hopen.holds _ hentry).pos_le.2⟩
  refine ⟨hsym, fun hmode => Symbols.closeBlock_followsMode (hout.mode (hopen.mode hmode)),
    hout.registered, fun F hF => ?_,
    hparams.append hout.fresh hopen.length_le hout.symbols.length_le⟩
  have hgrows : r.symbols.Grows F := ⟨hF.names, hF.upvars⟩
  exact .mk hopen.length
    (fun entry hentry => (hopen.holds entry hentry).grow (hout.symbols.toGrows.trans hgrows))
    (hout.holds F hgrows)

mutual

/-- A statement. -/
theorem statement_outcome (s : Statement) {env : Scopes} {p q : Progress} {c : Content}
    (hat : At o env p) (h : (statement o s).run p = .ok c q) :
    Outcome o (fun F => ResolvesStatement o F env s c) c.blockParams p q := by
  match s with
  | .text node =>
    rw [statement] at h
    obtain ⟨rfl, rfl⟩ := run_pure_ok.mp h
    exact Outcome.rfl hat fun F => .text
  | .comment comment =>
    rw [statement] at h
    obtain ⟨rfl, rfl⟩ := run_pure_ok.mp h
    exact Outcome.rfl hat fun F => .comment
  | .mustacheComment comment =>
    rw [statement] at h
    obtain ⟨rfl, rfl⟩ := run_pure_ok.mp h
    exact Outcome.rfl hat fun F => .hiddenComment
  | .partialCall tag =>
    rw [statement] at h
    exact (run_throw_ok.mp h).elim
  | .mustache tag =>
    rw [statement] at h
    exact (appendTag_outcome hat h).imp fun F hF => .mustache hF
  | .block tag program none =>
    rw [statement] at h
    exact blockTag_outcome ⟨rfl, block_outcome program⟩ .none hat h
  | .block tag program (some inverse) =>
    rw [statement] at h
    exact blockTag_outcome ⟨rfl, block_outcome program⟩ (.some ⟨rfl, block_outcome inverse⟩) hat h
  | .element tag children span =>
    obtain ⟨hname, invoked, r, hinvoked, hruns⟩ := element_runs h
    obtain ⟨rfl, hinvokes⟩ := isComponent_ok hat hinvoked
    -- Whether the tag invokes a component decides what its children become.
    rcases hruns with ⟨rfl, blocks, hblocks, hrun⟩ | ⟨rfl, hrun⟩
    · refine component_outcome hname hinvokes (fun {p q bs} hat hbs => ?_) hat hrun
      cases hblocks hbs with
      | named hnamed hparams h =>
        exact (namedBlocks_outcome tag.name [] children hat h).imp fun F hF =>
          .named hnamed hparams hF
      | alone hnamed hclosing => exact Outcome.rfl hat fun F => .selfClosing hnamed hclosing
      | default hnamed hclosing hblock =>
        have hout :=
          inBlock_outcome false (fun hat h => statements_outcome children hat h) hat hblock
        simpa only [namedBlockParams, List.append_nil] using
          hout.imp fun F hF => ResolvesChildren.default hnamed hclosing hF
    · exact plainElement_outcome hname hinvokes (fun hat h => statements_outcome children hat h) hat
        hrun

theorem statements_outcome (ss : List Statement) {env : Scopes} {p q : Progress}
    {cs : List Content} (hat : At o env p) (h : (statements o ss).run p = .ok cs q) :
    Outcome o (fun F => ResolvesStatements o F env ss cs) (contentParams cs) p q := by
  match ss with
  | [] =>
    rw [statements] at h
    obtain ⟨rfl, rfl⟩ := run_pure_ok.mp h
    exact Outcome.rfl hat fun F => .nil
  | s :: rest =>
    rw [statements] at h
    simp only [run_bind_ok, run_pure_ok] at h
    obtain ⟨c, _, hc, cs, _, hcs, rfl, rfl⟩ := h
    have h₁ := statement_outcome s hat hc
    have h₂ := statements_outcome rest (h₁.at hat) hcs
    exact (h₁.seq h₂).imp fun F hF => .cons hF.1 hF.2

theorem block_outcome (t : Template.Block Statement) {env : Scopes} {p q : Progress}
    {b : Block Content} (hat : At o env p) (h : (block o t).run p = .ok b q) :
    Outcome o (fun F => ResolvesBlock o F env t b) (blockParams b) p q := by
  match t with
  | ⟨body, params, chained, span⟩ =>
    rw [block] at h
    exact inBlock_outcome chained (fun hat h => statements_outcome body hat h) hat h

theorem namedBlocks_outcome (component : String) (seen : List String) (ss : List Statement)
    {env : Scopes} {p q : Progress} {bs : List (NamedBlock Content)} (hat : At o env p)
    (h : (namedBlocks o component seen ss).run p = .ok bs q) :
    Outcome o (fun F => ResolvesNamedBlocks o F env seen ss bs) (namedBlockParams bs) p q := by
  match ss with
  | [] =>
    unfold namedBlocks at h
    obtain ⟨rfl, rfl⟩ := run_pure_ok.mp h
    exact Outcome.rfl hat fun F => .nil
  | .element tag children span :: rest =>
    unfold namedBlocks at h
    simp only [run_ite_ok, run_bind_ok, run_throw_ok, run_pure_ok, and_false, or_false] at h
    obtain ⟨htag, name, _, hname, b, _, hb, bs, _, hbs, rfl, rfl⟩ := h
    obtain ⟨rfl, hname, hlower, hattributes, hmodifiers, hnew⟩ := namedBlockName_ok hname
    have h₁ := inBlock_outcome false (fun hat h => statements_outcome children hat h) hat hb
    -- The blocks that follow may not use the name again.
    have h₂ := namedBlocks_outcome component (name :: seen) rest (h₁.at hat) hbs
    exact (h₁.seq h₂).imp fun F hF =>
      .block htag hname hlower hattributes hmodifiers hnew hF.1 hF.2
  | .text _ :: rest | .comment _ :: rest | .mustacheComment _ :: rest | .partialCall _ :: rest
  | .mustache _ :: rest | .block _ _ _ :: rest =>
    unfold namedBlocks at h
    simp only [run_ite_ok, run_throw_ok, and_false, or_false] at h
    obtain ⟨hbetween, h⟩ := h
    exact (namedBlocks_outcome component seen rest hat h).imp fun F hF => .between hbetween hF

end

end

/-! ### Templates -/

/-- The walk starts outside of all blocks. -/
theorem start_at (o : Settings) : At o [] (start o) where
  lookup _ := rfl
  slots _ hmem := absurd hmem List.not_mem_nil
  locals := rfl
  registered _ hmem := absurd hmem List.not_mem_nil

/-- What the walk of a whole template comes to. -/
theorem resolve_outcome {t : Template} {o : Settings} {body : Body} {p : Progress}
    (h : t.resolve o = (.ok body, p)) :
    Outcome o (fun F => ResolvesStatements o F [] t.body body.body) (contentParams body.body)
      (start o) p := by
  rw [Template.resolve] at h
  split at h
  · next contents q hrun =>
    obtain ⟨rfl, rfl⟩ : (⟨contents, t.span⟩ : Body) = body ∧ q = p := by simpa using h
    exact statements_outcome t.body (start_at o) hrun
  · simp at h

/-- A template is resolved as lexical scoping has it. -/
theorem resolve_agrees (t : Template) (o : Settings) (body : Body) (p : Progress)
    (h : t.resolve o = (.ok body, p)) :
    ResolvesStatements o p.symbols [] t.body body.body :=
  (resolve_outcome h).holds p.symbols (Symbols.Grows.refl _)

/-- A bare name. -/
def bareName (name : String) : Template.Expr := .path ⟨.var name, [], name, .dummy⟩

/-- A tag that writes a bare name. -/
def writeName (name : String) : Statement :=
  .mustache ⟨⟨bareName name, [], ⟨[], .dummy⟩⟩, false, {}, .dummy⟩

/-- A component in a block that declares the same name; the name is written
inside of both, after the component, and after the block. -/
def shadowing : Template where
  body :=
    [.block ⟨⟨bareName "let", [bareName "y"], ⟨[], .dummy⟩⟩, {}, {}, {}, .dummy⟩
      { body :=
          [.element { name := "Foo", blockParams := ["x"] } [writeName "x"] .dummy, writeName "x"]
        params := ["x"], span := .dummy }
      none,
      writeName "x"]
  span := .dummy

theorem resolve_agrees_shadowing :
    ∃ body p, shadowing.resolve {} = (.ok body, p) ∧ p.symbols.names = ["x", "x"] ∧
      p.symbols.upvars = ["y", "Foo", "x"] ∧
      ResolvesStatements {} p.symbols [] shadowing.body body.body := by
  have hok : (shadowing.resolve {}).1.isOk = true := by decide +kernel
  have hnames : (shadowing.resolve {}).2.symbols.names = ["x", "x"] := by decide +kernel
  have hupvars : (shadowing.resolve {}).2.symbols.upvars = ["y", "Foo", "x"] := by decide +kernel
  match hrun : shadowing.resolve {} with
  | (.ok body, p) =>
    rw [hrun] at hnames hupvars
    exact ⟨body, p, rfl, hnames, hupvars, resolve_agrees shadowing {} body p hrun⟩
  | (.error fault, p) =>
    rw [hrun] at hok
    cases hok

end TemplateCompiler.Resolved
