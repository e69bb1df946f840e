/-
What a step of the walk has done when it succeeds.

A step that ends without a fault has passed all of its checks, and its parts have
run one after the other.  For the forms with many checks this is said here once;
what the walk keeps is then shown from the runs of the parts.

* `AppendFormRuns`, `BlockFormRuns` — a tag and a block with a keyword, one rule
  for each keyword;
* `ComponentCalleeRuns` — the head of a tag that invokes a component;
* `ChildrenRun` — what becomes of the children of a component;
* `appendForm_runs`, `blockForm_runs`, `componentCallee_runs`, `element_runs` — every
  step that succeeds is one of these.
-/
import TemplateCompiler.Proofs.Resolved.Steps

namespace TemplateCompiler.Resolved

open Template (Hash MustacheTag BlockTag StartTag Statement)

section

variable {o : Settings} {p q : Progress}

/-! ### Tags among content -/

theorem yieldTarget_ok {hash : Hash Template.Expr} {name : String}
    (h : (yieldTarget hash).run p = .ok name q) : p = q ∧ YieldsTo hash name := by
  rw [yieldTarget] at h
  split at h
  · rename_i hget
    obtain ⟨rfl, rfl⟩ := run_pure_ok.mp h
    exact ⟨rfl, .default hget⟩
  · rename_i key name' span pairSpan hget
    obtain ⟨rfl, rfl⟩ := run_pure_ok.mp h
    exact ⟨rfl, .named hget⟩
  · exact (run_throw_ok.mp h).elim

variable (o) in
/-- A tag with a keyword among content has been resolved. -/
inductive AppendFormRuns (tag : MustacheTag) (p : Progress) :
    AppendKeyword → Content → Progress → Prop
  | yield {name : String} {slot : Nat} {positional : List Expr} {p₁ q : Progress}
    (htakes : Takes ["to"] tag.call.hash) (hto : YieldsTo tag.call.hash name)
    (hslot : (onSymbols (·.namedBlock name)).run p = .ok slot p₁)
    (hparams : (arguments o tag.call.params).run p₁ = .ok positional q) :
    AppendFormRuns tag p .yield (.yield slot positional tag.span) q
  | partialCall {target : Template.Expr} {target' : Expr} {p₁ q : Progress}
    (hloose : o.strict = false) (htakes : Takes [] tag.call.hash)
    (hparams : tag.call.params = [target])
    (htarget : (expr o .argument target).run p = .ok target' p₁)
    (heval : (onSymbols fun s => ((), s.markEval)).run p₁ = .ok () q) :
    AppendFormRuns tag p .partialCall (.partialCall target' q.symbols.visible tag.span) q
  | debugger {q : Progress} (htakes : Takes [] tag.call.hash) (hparams : tag.call.params = [])
    (heval : (onSymbols fun s => ((), s.markEval)).run p = .ok () q) :
    AppendFormRuns tag p .debugger (.debugger q.symbols.visible tag.span) q
  | component {value : Expr × Args Expr} {q : Progress}
    (hvalue : (dynamicCall o (braced "component") tag.span tag.call).run p = .ok value q) :
    AppendFormRuns tag p .component (.invokeDynamic value.1 value.2 [] tag.span) q
  | value {k : CallKeyword} {value : Expr} {q : Progress}
    (hvalue : (keywordCall o k (braced k.name) tag.span tag.call).run p = .ok value q) :
    AppendFormRuns tag p (.value k) (.append value tag.trusting tag.span) q

theorem appendForm_runs {k : AppendKeyword} {tag : MustacheTag} {c : Content}
    (h : (appendForm o k tag).run p = .ok c q) : AppendFormRuns o tag p k c q := by
  -- Checks of what a keyword takes leave the progress as it is.
  cases k with
  | yield =>
    simp only [appendForm, run_bind_ok, run_pure_ok] at h
    obtain ⟨_, _, hnamed, name, _, hname, slot, _, hslot, positional, _, hparams, rfl, rfl⟩ := h
    obtain ⟨rfl, htakes⟩ := checkNamed_ok hnamed
    obtain ⟨rfl, hto⟩ := yieldTarget_ok hname
    exact .yield htakes hto hslot hparams
  | partialCall =>
    simp only [appendForm, run_bind_ok, run_ite_ok, run_throw_ok, false_and, exists_false,
      and_false, false_or] at h
    obtain ⟨hloose, h⟩ := h
    split at h
    · next target hparams =>
      simp only [run_bind_ok, run_getSymbols_ok, run_pure_ok] at h
      obtain ⟨_, _, hnamed, target', _, htarget, _, _, heval, _, _, ⟨rfl, rfl⟩, rfl, rfl⟩ := h
      obtain ⟨rfl, htakes⟩ := checkNamed_ok hnamed
      exact .partialCall (by simpa using hloose) htakes hparams htarget heval
    · exact (run_throw_ok.mp h).elim
  | debugger =>
    simp only [appendForm, run_bind_ok, run_ite_ok, run_throw_ok, run_getSymbols_ok, run_pure_ok,
      false_and, exists_false, and_false, false_or] at h
    obtain ⟨hparams, _, _, hnamed, _, _, heval, _, _, ⟨rfl, rfl⟩, rfl, rfl⟩ := h
    obtain ⟨rfl, htakes⟩ := checkNamed_ok hnamed
    exact .debugger htakes (by simpa using hparams) heval
  | component =>
    simp only [appendForm, run_bind_ok, run_pure_ok] at h
    obtain ⟨value, _, hvalue, rfl, rfl⟩ := h
    exact .component hvalue
  | value k =>
    simp only [appendForm, run_bind_ok, run_pure_ok] at h
    obtain ⟨value, _, hvalue, rfl, rfl⟩ := h
    exact .value hvalue

/-! ### Blocks -/

theorem checkNoInverse_ok {label : String} {inverse : Option Branch} {u : Unit}
    (h : (checkNoInverse label inverse).run p = .ok u q) : p = q ∧ inverse = none := by
  cases inverse with
  | none => exact ⟨(run_pure_ok.mp h).2, rfl⟩
  | some inverse => exact (run_throw_ok.mp h).elim

variable (o) in
/-- A block with a keyword has been resolved: its values before its branches. -/
inductive BlockFormRuns (tag : BlockTag) (program : Branch) (inverse : Option Branch)
    (p : Progress) : BlockKeyword → Content → Progress → Prop
  | branch {negated : Bool} {condition : Template.Expr} {condition' : Expr}
    {block : Block Content} {other : Option (Block Content)} {p₁ p₂ q : Progress}
    (htakes : Takes [] tag.call.hash) (hparams : tag.call.params = [condition])
    (hcondition : (expr o .argument condition).run p = .ok condition' p₁)
    (hblock : program.resolve.run p₁ = .ok block p₂)
    (hother : (otherBlock inverse).run p₂ = .ok other q) :
    BlockFormRuns tag program inverse p (.branch negated)
      (.branch (conditionOf negated condition') block other tag.span) q
  | each {value : Template.Expr} {value' : Expr} {key : Option Expr} {block : Block Content}
    {other : Option (Block Content)} {p₁ p₂ p₃ q : Progress}
    (htakes : Takes ["key"] tag.call.hash) (hparams : tag.call.params = [value])
    (hvalue : (expr o .argument value).run p = .ok value' p₁)
    (hkey : (optionalNamed o "key" tag.call.hash).run p₁ = .ok key p₂)
    (hblock : program.resolve.run p₂ = .ok block p₃)
    (hother : (otherBlock inverse).run p₃ = .ok other q) :
    BlockFormRuns tag program inverse p .each (.each value' key block other tag.span) q
  | withValue {value : Template.Expr} {value' : Expr} {block : Block Content}
    {other : Option (Block Content)} {p₁ p₂ q : Progress}
    (htakes : Takes [] tag.call.hash) (hparams : tag.call.params = [value])
    (hvalue : (expr o .argument value).run p = .ok value' p₁)
    (hblock : program.resolve.run p₁ = .ok block p₂)
    (hother : (otherBlock inverse).run p₂ = .ok other q) :
    BlockFormRuns tag program inverse p .withValue (.withValue value' block other tag.span) q
  | letValues {positional : List Expr} {block : Block Content} {p₁ q : Progress}
    (htakes : Takes [] tag.call.hash) (hnone : inverse = none)
    (hparams : (arguments o tag.call.params).run p = .ok positional p₁)
    (hblock : program.resolve.run p₁ = .ok block q) :
    BlockFormRuns tag program inverse p .letValues (.letValues positional block tag.span) q
  | inElement {guid : String} {destination : Template.Expr} {destination' : Expr}
    {insertBefore : Option Expr} {block : Block Content} {p₁ p₂ p₃ q : Progress}
    (htakes : Takes ["insertBefore"] tag.call.hash) (hnone : inverse = none)
    (hparams : tag.call.params = [destination])
    (hguid : nextCursor.run p = .ok guid p₁)
    (hdestination : (expr o .argument destination).run p₁ = .ok destination' p₂)
    (hinsert : (optionalNamed o "insertBefore" tag.call.hash).run p₂ = .ok insertBefore p₃)
    (hblock : program.resolve.run p₃ = .ok block q) :
    BlockFormRuns tag program inverse p .inElement
      (.inElement guid destination' insertBefore block tag.span) q
  | component {label : String} {value : Expr × Args Expr} {blocks : List (NamedBlock Content)}
    {p₁ q : Progress} (hvalue : (dynamicCall o label tag.span tag.call).run p = .ok value p₁)
    (hblocks : (namedBranches program inverse).run p₁ = .ok blocks q) :
    BlockFormRuns tag program inverse p .component
      (.invokeDynamic value.1 value.2 blocks tag.span) q
  | withDynamicVars {named : List (Named Expr)} {block : Block Content} {p₁ q : Progress}
    (hparams : tag.call.params = []) (hnone : inverse = none)
    (hpairs : (namedArguments o tag.call.hash.pairs).run p = .ok named p₁)
    (hblock : program.resolve.run p₁ = .ok block q) :
    BlockFormRuns tag program inverse p .withDynamicVars
      (.withDynamicVars named block tag.span) q

theorem blockForm_runs {k : BlockKeyword} {tag : BlockTag} {program : Branch}
    {inverse : Option Branch} {c : Content}
    (h : (blockForm o k tag program inverse).run p = .ok c q) :
    BlockFormRuns o tag program inverse p k c q := by
  cases k with
  | branch negated =>
    simp only [blockForm] at h
    split at h
    · next condition hparams =>
      simp only [run_bind_ok, run_pure_ok] at h
      obtain ⟨_, _, hnamed, condition', _, hcondition, block, _, hblock, other, _, hother, rfl,
        rfl⟩ := h
      obtain ⟨rfl, htakes⟩ := checkNamed_ok hnamed
      exact .branch htakes hparams hcondition hblock hother
    · exact (run_throw_ok.mp h).elim
  | each =>
    simp only [blockForm] at h
    split at h
    · next value hparams =>
      simp only [run_bind_ok, run_pure_ok] at h
      obtain ⟨_, _, hnamed, value', _, hvalue, key, _, hkey, block, _, hblock, other, _, hother,
        rfl, rfl⟩ := h
      obtain ⟨rfl, htakes⟩ := checkNamed_ok hnamed
      exact .each htakes hparams hvalue hkey hblock hother
    · exact (run_throw_ok.mp h).elim
  | withValue =>
    simp only [blockForm] at h
    split at h
    · next value hparams =>
      simp only [run_bind_ok, run_pure_ok] at h
      obtain ⟨_, _, hnamed, value', _, hvalue, block, _, hblock, other, _, hother, rfl, rfl⟩ := h
      obtain ⟨rfl, htakes⟩ := checkNamed_ok hnamed
      exact .withValue htakes hparams hvalue hblock hother
    · exact (run_throw_ok.mp h).elim
  | letValues =>
    simp only [blockForm, run_bind_ok, run_ite_ok, run_throw_ok, run_pure_ok, false_and,
      exists_false, and_false, false_or] at h
    obtain ⟨-, _, _, hnamed, _, _, hcheck, positional, _, hparams, block, _, hblock, rfl, rfl⟩ := h
    obtain ⟨rfl, htakes⟩ := checkNamed_ok hnamed
    obtain ⟨rfl, hnone⟩ := checkNoInverse_ok hcheck
    exact .letValues htakes hnone hparams hblock
  | inElement =>
    simp only [blockForm] at h
    split at h
    · simp only [run_bind_ok, run_throw_ok, false_and, exists_false] at h
    split at h
    · next destination hparams =>
      simp only [run_bind_ok, run_pure_ok] at h
      obtain ⟨_, _, hnamed, _, _, hcheck, guid, _, hguid, destination', _, hdestination,
        insertBefore, _, hinsert, block, _, hblock, rfl, rfl⟩ := h
      obtain ⟨rfl, htakes⟩ := checkNamed_ok hnamed
      obtain ⟨rfl, hnone⟩ := checkNoInverse_ok hcheck
      exact .inElement htakes hnone hparams hguid hdestination hinsert hblock
    · exact (run_throw_ok.mp h).elim
  | component =>
    simp only [blockForm, run_bind_ok, run_pure_ok] at h
    obtain ⟨value, _, hvalue, blocks, _, hblocks, rfl, rfl⟩ := h
    exact .component hvalue hblocks
  | withDynamicVars =>
    simp only [blockForm, run_bind_ok, run_ite_ok, run_throw_ok, run_pure_ok, false_and,
      exists_false, and_false, false_or] at h
    obtain ⟨hparams, -, _, _, hcheck, named, _, hpairs, block, _, hblock, rfl, rfl⟩ := h
    obtain ⟨rfl, hnone⟩ := checkNoInverse_ok hcheck
    exact .withDynamicVars (by simpa using hparams) hnone hpairs hblock

/-- A block in a scope of its own: its parameters are declared, its body is
resolved, and its scope is closed. -/
theorem inBlock_runs {params : List String} {children : List Statement} {span : Span}
    {b : Block Content}
    (h : (inBlock params fun slots => return ⟨slots, ← statements o children, span⟩).run p
      = .ok b q) :
    ∃ slots s cs r, p.symbols.openBlock params = (slots, s) ∧
      (statements o children).run { p with symbols := s } = .ok cs r ∧
      b = ⟨slots, cs, span⟩ ∧ q = { r with symbols := r.symbols.closeBlock } := by
  simp only [inBlock, run_bind_ok, run_onSymbols_ok, run_pure_ok] at h
  obtain ⟨slots, _, ⟨hslots, rfl⟩, _, _, ⟨cs, r, hcs, rfl, rfl⟩, _, _, ⟨-, rfl⟩, rfl, rfl⟩ := h
  exact ⟨slots, _, cs, r, Prod.ext hslots rfl, hcs, rfl, rfl⟩

/-! ### Elements -/

/-- A name that is registered leaves symbols and cursors as they are. -/
theorem componentName_same {tag name : String} (h : (componentName o tag).run p = .ok name q) :
    q.symbols = p.symbols ∧ q.cursorCount = p.cursorCount := by
  rw [componentName] at h
  split at h
  · obtain ⟨-, rfl⟩ := run_pure_ok.mp h
    exact ⟨rfl, rfl⟩
  · obtain ⟨_, _, hget, h⟩ := run_bind_ok.mp h
    obtain ⟨rfl, rfl⟩ := run_get_ok.mp hget
    split at h
    · obtain ⟨-, rfl⟩ := run_pure_ok.mp h
      exact ⟨rfl, rfl⟩
    · obtain ⟨_, _, hset, h⟩ := run_bind_ok.mp h
      obtain ⟨-, rfl⟩ := run_pure_ok.mp h
      obtain rfl := run_set_ok.mp hset
      exact ⟨rfl, rfl⟩

variable (o) in
/-- The head of a tag that invokes a component has been resolved.  An argument,
`this`, a bound name and a free name are tried in this order. -/
inductive ComponentCalleeRuns (tag : StartTag) (span : Span) (head : String) (p : Progress) :
    Variable → Progress → Prop
  | argument {slot : Nat} {q : Progress} (harg : isArgumentName head = true)
    (hslot : (onSymbols (·.argument head)).run p = .ok slot q) :
    ComponentCalleeRuns tag span head p ⟨head, .argument slot, tagSpan tag span⟩ q
  | this (harg : isArgumentName head = false) (hthis : head = "this") :
    ComponentCalleeRuns tag span head p ⟨head, .this, tagSpan tag span⟩ p
  | bare {simple : Bool} {v : Variable} {q : Progress} (harg : isArgumentName head = false)
    (hthis : head ≠ "this") (hbound : (o.strict || (p.symbols.lookup? head).isSome) = true)
    (hv : (resolveName o .component simple tag.name head (tagSpan tag span)).run p = .ok v q) :
    ComponentCalleeRuns tag span head p v q
  | free {name : String} {upvar : Nat} {p₁ q : Progress} (harg : isArgumentName head = false)
    (hthis : head ≠ "this") (hfree : (o.strict || (p.symbols.lookup? head).isSome) = false)
    (hname : (componentName o head).run p = .ok name p₁)
    (hupvar : (onSymbols (·.free name)).run p₁ = .ok upvar q) :
    ComponentCalleeRuns tag span head p
      ⟨name, .free upvar (.loose { component := true } false), tagSpan tag span⟩ q

theorem componentCallee_runs {tag : StartTag} {span : Span} {e : Expr}
    (h : (componentCallee o tag span).run p = .ok e q) :
    ∃ v, e = .path v (tagPath tag.name).2 (tagSpan tag span) ∧
      ComponentCalleeRuns o tag span (tagPath tag.name).1 p v q := by
  simp only [componentCallee, run_ite_ok, run_bind_ok, run_getSymbols_ok, run_pure_ok] at h
  obtain ⟨_, _, ⟨rfl, rfl⟩, h⟩ := h
  rcases h with ⟨harg, slot, _, hslot, _, _, ⟨rfl, rfl⟩, rfl, rfl⟩ | ⟨harg, h⟩
  · exact ⟨_, rfl, .argument harg hslot⟩
  replace harg : isArgumentName (tagPath tag.name).1 = false := by simpa using harg
  rcases h with ⟨hthis, _, _, ⟨rfl, rfl⟩, rfl, rfl⟩ | ⟨hthis, h⟩
  · exact ⟨_, rfl, .this harg (by simpa using hthis)⟩
  replace hthis : (tagPath tag.name).1 ≠ "this" := by simpa using hthis
  rcases h with ⟨hbound, v, _, hv, rfl, rfl⟩ |
    ⟨hfree, name, _, hname, upvar, _, hupvar, _, _, ⟨rfl, rfl⟩, rfl, rfl⟩
  · exact ⟨_, rfl, .bare harg hthis hbound hv⟩
  · exact ⟨_, rfl, .free harg hthis (Bool.eq_false_iff.mpr hfree) hname hupvar⟩

/-- An element of the markup: its attributes, its modifiers, and what is in it. -/
theorem plainElement_runs {tag : StartTag} {span : Span} {body : Walk (List Content)} {c : Content}
    (h : (plainElement o tag span body).run p = .ok c q) :
    ∃ attrs modifiers cs p₁ p₂, (tag.attributes.mapM (elementAttr o)).run p = .ok attrs p₁ ∧
      (tag.modifiers.mapM (modifierOf o)).run p₁ = .ok modifiers p₂ ∧ body.run p₂ = .ok cs q ∧
      c = .element tag.name ⟨attrs, modifiers⟩ cs span := by
  simp only [plainElement] at h
  split at h
  · simp only [run_bind_ok, run_throw_ok, false_and, exists_false] at h
  simp only [run_bind_ok, run_ite_ok, run_throw_ok, run_pure_ok, false_and, exists_false,
    and_false, false_or] at h
  obtain ⟨-, attrs, _, hattrs, modifiers, _, hmodifiers, cs, _, hcs, rfl, rfl⟩ := h
  exact ⟨attrs, modifiers, cs, _, _, hattrs, hmodifiers, hcs, rfl⟩

variable (o) in
/-- The children of a component have become blocks with names, or there are none,
or all of them are one default block. -/
inductive ChildrenRun (tag : StartTag) (children : List Statement) (span : Span) (p : Progress) :
    List (NamedBlock Content) → Progress → Prop
  | named {blocks : List (NamedBlock Content)} {q : Progress}
    (hnamed : children.any isNamedBlock = true) (hparams : tag.blockParams = [])
    (hblocks : (namedBlocks o tag.name [] children).run p = .ok blocks q) :
    ChildrenRun tag children span p blocks q
  | alone (hnamed : children.any isNamedBlock = false) (hclosing : tag.selfClosing = true) :
    ChildrenRun tag children span p [] p
  | default {block : Block Content} {q : Progress}
    (hnamed : children.any isNamedBlock = false) (hclosing : tag.selfClosing = false)
    (hblock : (inBlock tag.blockParams fun slots =>
      return ⟨slots, ← statements o children, span⟩).run p = .ok block q) :
    ChildrenRun tag children span p [⟨"default", block, span⟩] q

/-- An element is a component with what its children become, or one of the markup. -/
theorem element_runs {tag : StartTag} {children : List Statement} {span : Span} {c : Content}
    (h : (statement o (.element tag children span)).run p = .ok c q) :
    isBlockName tag.name = false ∧ ∃ invoked p₁,
      (isComponent o tag span).run p = .ok invoked p₁ ∧
      ((invoked = true ∧ ∃ blocks : Walk (List (NamedBlock Content)),
          (∀ {p q : Progress} {bs : List (NamedBlock Content)}, blocks.run p = .ok bs q →
            ChildrenRun o tag children span p bs q) ∧
          (component o tag span blocks).run p₁ = .ok c q) ∨
        (invoked = false ∧
          (plainElement o tag span (statements o children)).run p₁ = .ok c q)) := by
  rw [statement] at h
  simp only [run_bind_ok, run_ite_ok, run_throw_ok, false_and, exists_false, and_false,
    false_or] at h
  obtain ⟨hname, invoked, r, hinvoked, h⟩ := h
  refine ⟨by simpa using hname, invoked, r, hinvoked, ?_⟩
  rcases h with ⟨hcomponent, h⟩ | ⟨hplain, h⟩
  · refine .inl ⟨hcomponent, _, fun {p q bs} hblocks => ?_, h⟩
    simp only [run_ite_ok, run_bind_ok, run_throw_ok, run_pure_ok] at hblocks
    -- With named blocks among its children it takes no others, and no block parameters.
    rcases hblocks with ⟨hnamed, ⟨hparams, hblocks⟩ | ⟨-, hthrow⟩⟩ | ⟨hnamed, hblocks⟩
    · exact .named hnamed (List.isEmpty_iff.mp hparams) hblocks
    · exact hthrow.elim
    replace hnamed : children.any isNamedBlock = false := by simpa using hnamed
    rcases hblocks with ⟨hclosing, rfl, rfl⟩ | ⟨hclosing, b, _, hblock, rfl, rfl⟩
    · exact .alone hnamed hclosing
    · exact .default hnamed (by simpa using hclosing) hblock
  · exact .inr ⟨by simpa using hplain, h⟩

end

end TemplateCompiler.Resolved
