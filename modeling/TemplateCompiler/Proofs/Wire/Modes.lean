/-
The opcodes of strict and of loose programs.

The mode of a template shows in the program it is compiled to: by the opcodes
that read free names, and by the statements that only a loose template may use.

* `Program.values`, `Program.opcodes` — every value of a program, and the number
  at the head of every array of it;
* `Resolved.Body.encode_free` — a program reads a free name as the resolved
  template does;
* `Resolved.StrictProgram`, `Resolved.LooseProgram` — what the mode promises;
* `Resolved.resolve_respects_mode` — a template that resolves keeps the promise
  of its mode.
-/
import TemplateCompiler.Proofs.Resolved.Modes
import TemplateCompiler.Proofs.Wire.Scoping

namespace TemplateCompiler.Wire

/-! ### Values and statements of a program -/

mutual

/-- All that is inside of a value. -/
def Expr.inside : Expr → List Expr
  | .literal _ | .getSymbol _ _ | .getFree _ _ _ | .hasBlock _ | .hasBlockParams _ => []
  | .call callee params hash | .curry callee _ params hash =>
    callee :: (callee.inside ++ exprsWithin params ++ entriesWithin hash)
  | .concat params | .log params => exprsWithin params
  | .not value | .getDynamicVar value => value :: value.inside
  | .ifInline condition truthy falsy =>
    condition :: condition.inside ++ truthy :: truthy.inside ++ optionWithin falsy

/-- Values and all that is inside of them. -/
def exprsWithin : List Expr → List Expr
  | [] => []
  | e :: rest => e :: (e.inside ++ exprsWithin rest)

/-- Values with names and all that is inside of them. -/
def entriesWithin : List (Entry Expr) → List Expr
  | [] => []
  | entry :: rest => entry.value :: (entry.value.inside ++ entriesWithin rest)

/-- A value that may be missing and all that is inside of it. -/
def optionWithin : Option Expr → List Expr
  | none => []
  | some e => e :: e.inside

end

/-- The opcodes that a value itself is written with. -/
def Expr.opcodes : Expr → List Opcode
  | .literal .undefined => [.undefined]
  | .literal _ => []
  | .getSymbol _ _ => [.getSymbol]
  | .getFree opcode _ _ => [opcode]
  | .call _ _ _ => [.call]
  | .concat _ => [.concat]
  | .hasBlock _ => [.hasBlock, .getSymbol]
  | .hasBlockParams _ => [.hasBlockParams, .getSymbol]
  | .curry _ _ _ _ => [.curry]
  | .not _ => [.not]
  | .ifInline _ _ _ => [.ifInline]
  | .getDynamicVar _ => [.getDynamicVar]
  | .log _ => [.log]

/-- The values that stand in a statement itself. -/
def Statement.exprs : Statement → List Expr
  | .comment _ | .openElement _ _ | .flushElement | .closeElement | .staticAttr _ _ _ _ => []
  | .attrSplat _ | .debugger _ => []
  | .append value _ | .dynamicAttr _ value _ _ _ | .partialCall value _ => [value]
  | .modifier callee params hash | .block callee params hash _
  | .invokeComponent callee params hash _ => callee :: (params ++ hash.map Entry.value)
  | .component tag _ hash _ => tag :: hash.map Entry.value
  | .yield _ params | .letValues params _ => params
  | .inElement _ _ destination insertBefore => destination :: insertBefore.toList
  | .branch value _ _ | .withValue value _ _ => [value]
  | .each value key _ _ => value :: key.toList
  | .withDynamicVars hash _ => hash.map Entry.value

mutual

/-- All that is inside of a statement. -/
def Statement.inside : Statement → List Statement
  | .comment _ | .openElement _ _ | .flushElement | .closeElement | .staticAttr _ _ _ _ => []
  | .append _ _ | .modifier _ _ _ | .dynamicAttr _ _ _ _ _ | .attrSplat _ | .yield _ _ => []
  | .partialCall _ _ | .debugger _ => []
  | .block _ _ _ blocks | .invokeComponent _ _ _ blocks => blocksWithin blocks
  | .component _ params _ blocks => statementsWithin params ++ blocksWithin blocks
  | .branch _ block inverse | .each _ _ block inverse | .withValue _ block inverse =>
    blockWithin block ++ otherWithin inverse
  | .inElement block _ _ _ | .letValues _ block | .withDynamicVars _ block => blockWithin block

/-- Statements and all that is inside of them. -/
def statementsWithin : List Statement → List Statement
  | [] => []
  | s :: rest => s :: (s.inside ++ statementsWithin rest)

/-- All that is inside of a block. -/
def blockWithin : Block Statement → List Statement
  | ⟨statements, _⟩ => statementsWithin statements

/-- All that is inside of blocks with names. -/
def blocksWithin : List (Entry (Block Statement)) → List Statement
  | [] => []
  | entry :: rest => blockWithin entry.value ++ blocksWithin rest

/-- All that is inside of a block that may be missing. -/
def otherWithin : Option (Block Statement) → List Statement
  | none => []
  | some block => blockWithin block

end

namespace Program

/-- Every value of a program. -/
def values (p : Program) : List Expr :=
  (statementsWithin p.statements).flatMap fun s => exprsWithin s.exprs

/-- The opcode of every array of a program that has one. -/
def opcodes (p : Program) : List Opcode :=
  (statementsWithin p.statements).map Statement.opcode ++ p.values.flatMap Expr.opcodes

end Program

theorem mem_exprsWithin {w : Expr} {es : List Expr} :
    w ∈ exprsWithin es ↔ ∃ e ∈ es, w ∈ e :: e.inside := by
  induction es with
  | nil => simp [exprsWithin]
  | cons e rest ih => simp [exprsWithin, ih, or_assoc]

theorem statementsWithin_append (a b : List Statement) :
    statementsWithin (a ++ b) = statementsWithin a ++ statementsWithin b := by
  induction a with
  | nil => simp [statementsWithin]
  | cons s rest ih => simp only [List.cons_append, statementsWithin, ih, List.append_assoc]

/-- Statements with nothing inside of them. -/
theorem statementsWithin_eq_self {ss : List Statement} (h : ∀ s ∈ ss, s.inside = []) :
    statementsWithin ss = ss := by
  induction ss with
  | nil => simp [statementsWithin]
  | cons s rest ih =>
    rw [statementsWithin, h s List.mem_cons_self, ih fun s hs => h s (List.mem_cons_of_mem _ hs),
      List.nil_append]

/-! ### Opcodes of lookups -/

/-- Whether an opcode reads a free name, as its number says. -/
def readsFree (op : Opcode) : Prop := op.code = 31 ∨ 34 ≤ op.code ∧ op.code ≤ 39

/-- No statement reads a free name by its own opcode. -/
theorem Statement.not_readsFree (s : Statement) : ¬readsFree s.opcode := by
  cases s <;> simp only [Statement.opcode] <;> (repeat' split) <;> simp [readsFree, Opcode.code]

/-- The opcodes of a value are those of no lookup and of no partial, unless the
value is a free name. -/
theorem Expr.opcodes_cases {e : Expr} {op : Opcode} (h : op ∈ e.opcodes) :
    (∃ upvar tail, e = .getFree op upvar tail) ∨ (¬readsFree op ∧ op ≠ .partialCall) := by
  cases e with
  | getFree opcode upvar tail =>
    obtain rfl := List.mem_singleton.mp h
    exact .inl ⟨upvar, tail, rfl⟩
  | literal value =>
    cases value <;> simp [Expr.opcodes] at h
    subst h
    exact .inr ⟨by simp [readsFree, Opcode.code], by simp⟩
  | hasBlock | hasBlockParams =>
    simp only [Expr.opcodes, List.mem_cons, List.not_mem_nil, or_false] at h
    rcases h with rfl | rfl <;> exact .inr ⟨by simp [readsFree, Opcode.code], by simp⟩
  | getSymbol | call | concat | curry | not | ifInline | getDynamicVar | log =>
    obtain rfl := List.mem_singleton.mp h
    exact .inr ⟨by simp [readsFree, Opcode.code], by simp⟩

end TemplateCompiler.Wire

namespace TemplateCompiler.Opcode

theorem code_of_isStrict {r : Resolution} (h : r.isStrict = true) : (ofResolution r).code = 31 := by
  cases r with
  | strict => rfl
  | loose registries fallback => cases h

theorem code_of_loose {r : Resolution} (h : r.isStrict = false) :
    34 ≤ (ofResolution r).code ∧ (ofResolution r).code ≤ 39 := by
  cases r with
  | strict => cases h
  | loose registries fallback =>
    rw [ofResolution]
    repeat' split
    all_goals decide

end TemplateCompiler.Opcode

namespace TemplateCompiler.Resolved

open Wire (exprsWithin entriesWithin optionWithin statementsWithin)

/-! ### Free names of encoded values -/

/-- Whatever reads a free name among the values stands for one of the variables,
and reads it as the variable is looked up. -/
def ReadFrom (vs : List Variable) (ws : List Wire.Expr) : Prop :=
  ∀ op upvar tail, .getFree op upvar tail ∈ ws →
    ∃ v ∈ vs, ∃ resolution, v.reference = .free upvar resolution ∧ op = .ofResolution resolution

theorem ReadFrom.nil (vs : List Variable) : ReadFrom vs [] := by
  intro op upvar tail hmem
  cases hmem

theorem ReadFrom.append {vs vs' : List Variable} {ws ws' : List Wire.Expr} (h : ReadFrom vs ws)
    (h' : ReadFrom vs' ws') : ReadFrom (vs ++ vs') (ws ++ ws') := by
  intro op upvar tail hmem
  rcases List.mem_append.mp hmem with hmem | hmem
  · obtain ⟨v, hv, hread⟩ := h op upvar tail hmem
    exact ⟨v, List.mem_append_left _ hv, hread⟩
  · obtain ⟨v, hv, hread⟩ := h' op upvar tail hmem
    exact ⟨v, List.mem_append_right _ hv, hread⟩

/-- A value that reads no free name itself. -/
theorem ReadFrom.cons {vs : List Variable} {w : Wire.Expr} {ws : List Wire.Expr}
    (hw : ∀ op upvar tail, w ≠ .getFree op upvar tail) (h : ReadFrom vs ws) :
    ReadFrom vs (w :: ws) := by
  intro op upvar tail hmem
  rcases List.mem_cons.mp hmem with hmem | hmem
  · exact absurd hmem.symm (hw op upvar tail)
  · exact h op upvar tail hmem

theorem Reference.encode_readFrom (v : Variable) (tail : List String) :
    ReadFrom [v] (v.reference.encode tail :: (v.reference.encode tail).inside) := by
  cases hreference : v.reference with
  | this | blockParam | argument =>
    rw [Reference.encode, Wire.Expr.inside]
    exact .cons (by simp) (.nil _)
  | free upvar resolution =>
    rw [Reference.encode, Wire.Expr.inside]
    intro op upvar' tail' hmem
    obtain ⟨rfl, rfl, rfl⟩ := Wire.Expr.getFree.inj (List.mem_singleton.mp hmem)
    exact ⟨v, List.mem_singleton_self _, resolution, hreference, rfl⟩

mutual

/-- The free names of an encoded value are those of the value. -/
theorem Expr.encode_readFrom (e : Expr) : ReadFrom e.variables (e.encode :: e.encode.inside) := by
  match e with
  | .literal _ _ | .hasBlock _ _ | .hasBlockParams _ _ =>
    rw [Expr.encode, Wire.Expr.inside]
    exact .cons (by simp) (.nil _)
  | .path head tail span =>
    rw [Expr.encode, Expr.variables]
    exact Reference.encode_readFrom head tail
  | .call callee ⟨positional, named, _⟩ span =>
    rw [Expr.encode, Expr.variables, Wire.Expr.inside, ← List.cons_append, ← List.cons_append]
    exact .cons (by simp) ((callee.encode_readFrom.append (encodeExprs_readFrom positional)).append
      (encodeNamed_readFrom named))
  | .interpolate parts span =>
    rw [Expr.encode, Expr.variables, Wire.Expr.inside]
    exact .cons (by simp) (encodeExprs_readFrom parts)
  | .curry definition kind ⟨positional, named, _⟩ span =>
    rw [Expr.encode, Expr.variables, Wire.Expr.inside, ← List.cons_append, ← List.cons_append]
    exact .cons (by simp)
      ((definition.encode_readFrom.append (encodeExprs_readFrom positional)).append
        (encodeNamed_readFrom named))
  | .not value | .getDynamicVar value =>
    rw [Expr.encode, Expr.variables, Wire.Expr.inside]
    exact .cons (by simp) value.encode_readFrom
  | .ifInline condition truthy falsy span =>
    rw [Expr.encode, Expr.variables, Wire.Expr.inside]
    exact .cons (by simp) ((condition.encode_readFrom.append truthy.encode_readFrom).append
      (encodeOption_readFrom falsy))
  | .log ⟨positional, named, _⟩ =>
    -- The names of what is logged are not written.
    rw [Expr.encode, Expr.variables, Wire.Expr.inside, ← List.append_nil (exprsWithin _)]
    refine .cons (by simp) ((encodeExprs_readFrom positional).append fun op upvar tail hmem => ?_)
    cases hmem

theorem encodeExprs_readFrom (es : List Expr) :
    ReadFrom (exprsVariables es) (exprsWithin (encodeExprs es)) := by
  match es with
  | [] =>
    rw [encodeExprs, exprsWithin]
    exact .nil _
  | e :: rest =>
    rw [encodeExprs, exprsVariables, exprsWithin, ← List.cons_append]
    exact e.encode_readFrom.append (encodeExprs_readFrom rest)

theorem encodeNamed_readFrom (named : List (Named Expr)) :
    ReadFrom (namedVariables named) (entriesWithin (encodeNamed named)) := by
  match named with
  | [] =>
    rw [encodeNamed, entriesWithin]
    exact .nil _
  | ⟨name, value, span⟩ :: rest =>
    rw [encodeNamed, namedVariables, entriesWithin, ← List.cons_append]
    exact value.encode_readFrom.append (encodeNamed_readFrom rest)

theorem encodeOption_readFrom (e : Option Expr) :
    ReadFrom (optionVariables e) (optionWithin (encodeOption e)) := by
  match e with
  | none =>
    rw [encodeOption, optionWithin]
    exact .nil _
  | some e =>
    rw [encodeOption, optionVariables, optionWithin]
    exact e.encode_readFrom

end

/-! ### Statements and the content that writes them -/

/-- A statement is written by a piece of content: its values are encoded from
there, and it is a partial only if the content is one. -/
structure Content.Writes (c : Content) (s : Wire.Statement) : Prop where
  exprs : ∀ w ∈ s.exprs, ∃ e ∈ c.exprs, w = e.encode
  partialCall : s.opcode = .partialCall → c.isPartial = true

/-- Every statement is written by some piece of the content. -/
def AllWritten (cs : List Content) (ss : List Wire.Statement) : Prop :=
  ∀ s ∈ ss, ∃ c ∈ cs, c.Writes s

theorem AllWritten.nil (cs : List Content) : AllWritten cs [] := by
  intro s hs
  cases hs

theorem AllWritten.append {cs cs' : List Content} {ss ss' : List Wire.Statement}
    (h : AllWritten cs ss) (h' : AllWritten cs' ss') : AllWritten (cs ++ cs') (ss ++ ss') := by
  intro s hs
  rcases List.mem_append.mp hs with hs | hs
  · obtain ⟨c, hc, hwrites⟩ := h s hs
    exact ⟨c, List.mem_append_left _ hc, hwrites⟩
  · obtain ⟨c, hc, hwrites⟩ := h' s hs
    exact ⟨c, List.mem_append_right _ hc, hwrites⟩

/-- Statements that a piece of content writes itself, before what is inside of
it. -/
theorem AllWritten.cons {c : Content} {cs : List Content} {own ss : List Wire.Statement}
    (hown : ∀ s ∈ own, c.Writes s) (h : AllWritten cs ss) : AllWritten (c :: cs) (own ++ ss) := by
  have hc : AllWritten [c] own := fun s hs => ⟨c, List.mem_singleton_self _, hown s hs⟩
  exact hc.append h

theorem encodeExprs_eq (es : List Expr) : encodeExprs es = es.map Expr.encode := by
  induction es with
  | nil => rw [encodeExprs, List.map_nil]
  | cons e rest ih => rw [encodeExprs, List.map_cons, ih]

theorem encodeNamed_values (named : List (Named Expr)) :
    (encodeNamed named).map Wire.Entry.value = (named.map Named.value).map Expr.encode := by
  induction named with
  | nil => simp [encodeNamed]
  | cons n rest ih => simp only [encodeNamed, List.map_cons, ih]

theorem encodeOption_toList (e : Option Expr) :
    (encodeOption e).toList = e.toList.map Expr.encode := by
  cases e <;> simp [encodeOption]

/-- The values of a call are encoded from its callee and arguments. -/
theorem encode_application (callee : Expr) (args : Args Expr) :
    callee.encode :: (encodeExprs args.positional ++ (encodeNamed args.named).map Wire.Entry.value)
      = (callee :: args.exprs).map Expr.encode := by
  rw [Args.exprs, List.map_cons, List.map_append, encodeExprs_eq, encodeNamed_values]

/-- A statement whose values are all those of the content, and that is no
partial. -/
theorem Content.Writes.of_exprs {c : Content} {s : Wire.Statement}
    (hexprs : s.exprs = c.exprs.map Expr.encode) (hopcode : s.opcode ≠ .partialCall) :
    c.Writes s := by
  refine ⟨fun w hw => ?_, fun h => absurd h hopcode⟩
  rw [hexprs] at hw
  obtain ⟨e, he, rfl⟩ := List.mem_map.mp hw
  exact ⟨e, he, rfl⟩

/-- What is written of attributes and modifiers. -/
theorem ElementParams.encode_written {p : ElementParams} (onComponent : Bool) {c : Content}
    (hsub : ∀ e ∈ p.exprs, e ∈ c.exprs) :
    ∀ s ∈ p.encode onComponent, s.inside = [] ∧ c.Writes s := by
  intro s hs
  rcases ElementParams.mem_encode hs with ⟨a, ha, hencode⟩ | ⟨m, hm, rfl⟩
  · obtain ⟨slot, span, rfl, rfl⟩ | ⟨name, text, space, rfl⟩ |
      ⟨name, value, trusting, span, space, rfl, rfl⟩ := Attr.encode_cases hencode
    · exact ⟨by rw [Wire.Statement.inside], by simp [Wire.Statement.exprs],
        by simp [Wire.Statement.opcode]⟩
    · refine ⟨by rw [Wire.Statement.inside], by simp [Wire.Statement.exprs], fun h => ?_⟩
      cases onComponent <;> simp [Wire.Statement.opcode] at h
    · have hvalue : value ∈ c.exprs := by
        refine hsub value (List.mem_append_left _ (List.mem_flatMap.mpr ⟨_, ha, ?_⟩))
        exact List.mem_singleton_self _
      refine ⟨by rw [Wire.Statement.inside], fun w hw => ?_, fun h => ?_⟩
      · exact ⟨value, hvalue, List.mem_singleton.mp hw⟩
      · cases onComponent <;> cases trusting <;> simp [Wire.Statement.opcode] at h
  · refine ⟨by rw [Modifier.encode, Wire.Statement.inside], fun w hw => ?_,
      by simp [Modifier.encode, Wire.Statement.opcode]⟩
    rw [Modifier.encode, Wire.Statement.exprs, encode_application] at hw
    obtain ⟨e, he, rfl⟩ := List.mem_map.mp hw
    exact ⟨e, hsub e (List.mem_append_right _ (List.mem_flatMap.mpr ⟨m, hm, he⟩)), rfl⟩

theorem ElementParams.encode_within {p : ElementParams} (onComponent : Bool) {c : Content}
    (hsub : ∀ e ∈ p.exprs, e ∈ c.exprs) :
    ∀ s ∈ statementsWithin (p.encode onComponent), c.Writes s := by
  have hwritten := ElementParams.encode_written onComponent hsub
  rw [Wire.statementsWithin_eq_self fun s hs => (hwritten s hs).1]
  exact fun s hs => (hwritten s hs).2

/-- One statement that stands for a whole piece of content. -/
theorem AllWritten.single {c : Content} {s : Wire.Statement} (hs : c.Writes s)
    (h : AllWritten c.inside s.inside) : AllWritten (c :: c.inside) (statementsWithin [s]) := by
  rw [statementsWithin, statementsWithin, List.append_nil]
  have hown : ∀ s' ∈ [s], c.Writes s' := List.forall_mem_singleton.mpr hs
  exact .cons hown h

mutual

/-- Every statement that is encoded is written by some piece of the content. -/
theorem Content.encode_written (c : Content) :
    AllWritten (c :: c.inside) (statementsWithin c.encode) := by
  match c with
  | .text chars span =>
    rw [Content.encode]
    refine .single (.of_exprs ?_ (by simp [Wire.Statement.opcode])) ?_
    · simp [Wire.Statement.exprs, Content.exprs, Expr.encode]
    · rw [Wire.Statement.inside]
      exact .nil _
  | .comment text span =>
    rw [Content.encode]
    refine .single (.of_exprs rfl (by simp [Wire.Statement.opcode])) ?_
    rw [Wire.Statement.inside]
    exact .nil _
  | .hiddenComment text span =>
    rw [Content.encode, statementsWithin]
    exact .nil _
  | .append value trusting span =>
    rw [Content.encode]
    refine .single (.of_exprs rfl (by cases trusting <;> simp [Wire.Statement.opcode])) ?_
    rw [Wire.Statement.inside]
    exact .nil _
  | .invokeBlock callee args blocks span | .invokeDynamic callee args blocks span =>
    rw [Content.encode]
    refine .single (.of_exprs ?_ (by simp [Wire.Statement.opcode])) ?_
    · rw [Wire.Statement.exprs, Content.exprs, encode_application]
    · rw [Wire.Statement.inside, Content.inside]
      exact encodeBlocks_written blocks
  | .invokeComponent callee params args blocks span =>
    rw [Content.encode, statementsWithin, statementsWithin, List.append_nil, Wire.Statement.inside,
      Content.inside, ← List.cons_append]
    refine .cons (List.forall_mem_cons.mpr ⟨⟨fun w hw => ?_, by simp [Wire.Statement.opcode]⟩, ?_⟩)
      (encodeBlocks_written blocks)
    · rw [Wire.Statement.exprs, encodeNamed_values, ← List.map_cons] at hw
      obtain ⟨e, he, rfl⟩ := List.mem_map.mp hw
      refine ⟨e, ?_, rfl⟩
      rcases List.mem_cons.mp he with rfl | he
      · exact List.mem_cons_self
      · exact List.mem_cons_of_mem _ (List.mem_append_right _ he)
    · exact ElementParams.encode_within true fun e he =>
        List.mem_cons_of_mem _ (List.mem_append_left _ he)
  | .element tag params body span =>
    -- The element itself writes its start, its attributes, a flush and its end; the body stands
    -- between them.
    have hbare : ∀ s : Wire.Statement, s.exprs = [] → s.opcode ≠ .partialCall →
        (Content.element tag params body span).Writes s := fun s hexprs hopcode =>
      ⟨by simp [hexprs], fun h => absurd h hopcode⟩
    have hparams := ElementParams.encode_within (p := params) false
      (c := .element tag params body span) fun e he => he
    have hstart : ∀ s ∈ statementsWithin
        (.openElement tag params.hasSplat :: (params.encode false ++ [.flushElement])),
        (Content.element tag params body span).Writes s := by
      rw [statementsWithin, Wire.Statement.inside, List.nil_append, Wire.statementsWithin_append]
      refine List.forall_mem_cons.mpr
        ⟨hbare _ rfl ?_, List.forall_mem_append.mpr ⟨hparams, ?_⟩⟩
      · cases params.hasSplat <;> simp [Wire.Statement.opcode]
      · simpa [statementsWithin, Wire.Statement.inside] using
          hbare .flushElement rfl (by simp [Wire.Statement.opcode])
    have hend : AllWritten [Content.element tag params body span]
        (statementsWithin [.closeElement]) := by
      intro s hs
      obtain rfl : s = .closeElement := by simpa [statementsWithin, Wire.Statement.inside] using hs
      exact ⟨_, List.mem_singleton_self _, hbare _ rfl (by simp [Wire.Statement.opcode])⟩
    have hrun : (Content.element tag params body span).encode
        = (.openElement tag params.hasSplat :: (params.encode false ++ [.flushElement]))
          ++ (encodeContents body ++ [.closeElement]) := by
      simp [Content.encode]
    rw [hrun, Wire.statementsWithin_append, Wire.statementsWithin_append, Content.inside]
    intro s hs
    obtain ⟨c, hc, hwrites⟩ := AllWritten.cons hstart
      ((encodeContents_written body).append hend) s hs
    refine ⟨c, ?_, hwrites⟩
    simp only [List.mem_cons, List.mem_append, List.not_mem_nil, or_false] at hc ⊢
    tauto
  | .branch value block inverse span | .withValue value block inverse span =>
    rw [Content.encode]
    refine .single (.of_exprs rfl (by simp [Wire.Statement.opcode])) ?_
    rw [Wire.Statement.inside, Content.inside]
    exact (encodeBlock_written block).append (encodeOther_written inverse)
  | .each value key block inverse span =>
    rw [Content.encode]
    refine .single (.of_exprs ?_ (by simp [Wire.Statement.opcode])) ?_
    · rw [Wire.Statement.exprs, Content.exprs, encodeOption_toList, List.map_cons]
    · rw [Wire.Statement.inside, Content.inside]
      exact (encodeBlock_written block).append (encodeOther_written inverse)
  | .letValues positional block span =>
    rw [Content.encode]
    refine .single (.of_exprs (encodeExprs_eq positional) (by simp [Wire.Statement.opcode])) ?_
    rw [Wire.Statement.inside, Content.inside]
    exact encodeBlock_written block
  | .inElement guid destination insertBefore block span =>
    rw [Content.encode]
    refine .single (.of_exprs ?_ (by simp [Wire.Statement.opcode])) ?_
    · rw [Wire.Statement.exprs, Content.exprs, encodeOption_toList, List.map_cons]
    · rw [Wire.Statement.inside, Content.inside]
      exact encodeBlock_written block
  | .withDynamicVars named block span =>
    rw [Content.encode]
    refine .single (.of_exprs (encodeNamed_values named) (by simp [Wire.Statement.opcode])) ?_
    rw [Wire.Statement.inside, Content.inside]
    exact encodeBlock_written block
  | .yield target positional span =>
    rw [Content.encode]
    refine .single (.of_exprs (encodeExprs_eq positional) (by simp [Wire.Statement.opcode])) ?_
    rw [Wire.Statement.inside]
    exact .nil _
  | .debugger eval span =>
    rw [Content.encode]
    refine .single (.of_exprs rfl (by simp [Wire.Statement.opcode])) ?_
    rw [Wire.Statement.inside]
    exact .nil _
  | .partialCall target eval span =>
    rw [Content.encode]
    refine .single ⟨fun w hw => ⟨target, List.mem_singleton_self _, List.mem_singleton.mp hw⟩,
      fun _ => rfl⟩ ?_
    rw [Wire.Statement.inside]
    exact .nil _

theorem encodeContents_written (cs : List Content) :
    AllWritten (contentsWithin cs) (statementsWithin (encodeContents cs)) := by
  match cs with
  | [] =>
    rw [encodeContents, statementsWithin]
    exact .nil _
  | c :: rest =>
    rw [encodeContents, contentsWithin, Wire.statementsWithin_append, ← List.cons_append]
    exact c.encode_written.append (encodeContents_written rest)

theorem encodeBlock_written (b : Block Content) :
    AllWritten (blockWithin b) (Wire.blockWithin (encodeBlock b)) := by
  match b with
  | ⟨params, body, span⟩ =>
    rw [encodeBlock, blockWithin, Wire.blockWithin]
    exact encodeContents_written body

theorem encodeBlocks_written (blocks : List (NamedBlock Content)) :
    AllWritten (namedBlocksWithin blocks) (Wire.blocksWithin (encodeBlocks blocks)) := by
  match blocks with
  | [] =>
    rw [encodeBlocks, Wire.blocksWithin]
    exact .nil _
  | ⟨name, block, span⟩ :: rest =>
    rw [encodeBlocks, namedBlocksWithin, Wire.blocksWithin]
    exact (encodeBlock_written block).append (encodeBlocks_written rest)

theorem encodeOther_written (b : Option (Block Content)) :
    AllWritten (otherWithin b) (Wire.otherWithin (encodeOther b)) := by
  match b with
  | none =>
    rw [encodeOther, Wire.otherWithin]
    exact .nil _
  | some block =>
    rw [encodeOther, otherWithin, Wire.otherWithin]
    exact encodeBlock_written block

end

/-! ### Programs -/

/-- A value of a program stands in a value of the content. -/
theorem Body.mem_values {b : Body} {symbols : Symbols} {w : Wire.Expr}
    (h : w ∈ (b.encode symbols).values) :
    ∃ c ∈ contentsWithin b.body, ∃ e ∈ c.exprs, w ∈ e.encode :: e.encode.inside := by
  obtain ⟨s, hs, hw⟩ := List.mem_flatMap.mp h
  obtain ⟨c, hc, hwrites⟩ := encodeContents_written b.body s hs
  obtain ⟨w', hw', hwithin⟩ := Wire.mem_exprsWithin.mp hw
  obtain ⟨e, he, rfl⟩ := hwrites.exprs w' hw'
  exact ⟨c, hc, e, he, hwithin⟩

/-- A free name is read with the opcode of a variable in the template. -/
theorem Body.encode_free {b : Body} {symbols : Symbols} {strict : Bool}
    (hmode : FollowMode strict (contentsWithin b.body)) {op : Opcode} {upvar : Nat}
    {tail : List String} (h : .getFree op upvar tail ∈ (b.encode symbols).values) :
    ∃ resolution : Resolution, resolution.isStrict = strict ∧ op = .ofResolution resolution := by
  obtain ⟨c, hc, e, he, hwithin⟩ := Body.mem_values h
  obtain ⟨v, hv, resolution, hfree, rfl⟩ := e.encode_readFrom op upvar tail hwithin
  exact ⟨resolution, (hmode c hc).exprs e he v hv upvar resolution hfree, rfl⟩

/-- An opcode of a program is that of a free name, or it reads no free name. -/
theorem Body.opcodes_cases {b : Body} {symbols : Symbols} {op : Opcode}
    (h : op ∈ (b.encode symbols).opcodes) :
    (∃ upvar tail, .getFree op upvar tail ∈ (b.encode symbols).values) ∨
      (¬Wire.readsFree op ∧
        (op = .partialCall → ∃ c ∈ contentsWithin b.body, c.isPartial = true)) := by
  rcases List.mem_append.mp h with h | h
  · obtain ⟨s, hs, rfl⟩ := List.mem_map.mp h
    obtain ⟨c, hc, hwrites⟩ := encodeContents_written b.body s hs
    exact .inr ⟨s.not_readsFree, fun hpartial => ⟨c, hc, hwrites.partialCall hpartial⟩⟩
  · obtain ⟨w, hw, hop⟩ := List.mem_flatMap.mp h
    rcases Wire.Expr.opcodes_cases hop with ⟨upvar, tail, rfl⟩ | ⟨hfree, hpartial⟩
    · exact .inl ⟨upvar, tail, hw⟩
    · exact .inr ⟨hfree, fun heq => absurd heq hpartial⟩

theorem Body.variables_followMode {b : Body} {strict : Bool}
    (hmode : FollowMode strict (contentsWithin b.body)) :
    ∀ v ∈ b.variables, v.FollowsMode strict := by
  intro v hv
  obtain ⟨c, hc, hv⟩ := List.mem_flatMap.mp hv
  obtain ⟨e, he, hv⟩ := List.mem_flatMap.mp hv
  exact (hmode c hc).exprs e he v hv

/-- What a strict template is resolved and compiled to. -/
structure StrictProgram (o : Settings) (b : Body) (symbols : Symbols) : Prop where
  /-- Surrounding code provides every free name. -/
  resolutions : ∀ v ∈ b.variables, ∀ upvar resolution,
    v.reference = .free upvar resolution → resolution = .strict
  upvars : symbols.upvars = symbols.usedLocals
  nodup : symbols.upvars.Nodup
  provided : ∀ name ∈ symbols.upvars, name ∈ o.locals
  /-- Every free name is read with opcode 31. -/
  reads : ∀ op upvar tail, .getFree op upvar tail ∈ (b.encode symbols).values → op.code = 31
  /-- The opcodes that look names up in registries do not occur. -/
  opcodes : ∀ op ∈ (b.encode symbols).opcodes, ¬(34 ≤ op.code ∧ op.code ≤ 39)
  partials : Opcode.partialCall ∉ (b.encode symbols).opcodes

/-- What a loose template is resolved and compiled to. -/
structure LooseProgram (b : Body) (symbols : Symbols) : Prop where
  /-- Surrounding code provides no free name. -/
  resolutions : ∀ v ∈ b.variables, ∀ upvar resolution,
    v.reference = .free upvar resolution → resolution ≠ .strict
  opcodes : ∀ op ∈ (b.encode symbols).opcodes, op.code ≠ 31
  /-- Names that surrounding code would provide are not asked for. -/
  unused : symbols.usedLocals = []

theorem strictProgram_of_followsMode {o : Settings} {b : Body} {symbols : Symbols}
    (hsymbols : symbols.FollowsMode true) (hlocals : symbols.templateLocals = o.locals)
    (hmode : FollowMode true (contentsWithin b.body)) : StrictProgram o b symbols where
  resolutions v hv upvar resolution hfree := by
    have hstrict := Body.variables_followMode hmode v hv upvar resolution hfree
    cases resolution with
    | strict => rfl
    | loose registries fallback => cases hstrict
  upvars := (hsymbols.provided rfl).1
  nodup := (hsymbols.provided rfl).2.1
  provided := by
    rw [← hlocals]
    exact (hsymbols.provided rfl).2.2
  reads op upvar tail hmem := by
    obtain ⟨resolution, hstrict, rfl⟩ := Body.encode_free hmode hmem
    exact Opcode.code_of_isStrict hstrict
  -- A loose opcode would read a free variable, and these are all strict.
  opcodes op hop hloose := by
    rcases Body.opcodes_cases hop with ⟨upvar, tail, hmem⟩ | ⟨hfree, -⟩
    · obtain ⟨resolution, hstrict, rfl⟩ := Body.encode_free hmode hmem
      rw [Opcode.code_of_isStrict hstrict] at hloose
      omega
    · exact hfree (.inr hloose)
  partials hop := by
    rcases Body.opcodes_cases hop with ⟨upvar, tail, hmem⟩ | ⟨-, hpartial⟩
    · obtain ⟨resolution, hstrict, heq⟩ := Body.encode_free hmode hmem
      have hcode := Opcode.code_of_isStrict hstrict
      rw [← heq] at hcode
      exact absurd hcode (by decide)
    · obtain ⟨c, hc, hisPartial⟩ := hpartial rfl
      exact absurd ((hmode c hc).partialCall hisPartial) (by decide)

theorem looseProgram_of_followsMode {b : Body} {symbols : Symbols}
    (hsymbols : symbols.FollowsMode false)
    (hmode : FollowMode false (contentsWithin b.body)) : LooseProgram b symbols where
  resolutions v hv upvar resolution hfree := by
    have hloose := Body.variables_followMode hmode v hv upvar resolution hfree
    rintro rfl
    cases hloose
  opcodes op hop hcode := by
    rcases Body.opcodes_cases hop with ⟨upvar, tail, hmem⟩ | ⟨hfree, -⟩
    · obtain ⟨resolution, hloose, rfl⟩ := Body.encode_free hmode hmem
      have hrange := Opcode.code_of_loose hloose
      omega
    · exact hfree (.inl hcode)
  unused := hsymbols.unused rfl

/-- A template that resolves is looked up as its mode demands, and so is the
program that it is compiled to. -/
theorem resolve_respects_mode (t : Template) (o : Settings) (body : Body) (p : Progress)
    (h : t.resolve o = (.ok body, p)) :
    (o.strict = true → StrictProgram o body p.symbols) ∧
      (o.strict = false → LooseProgram body p.symbols) := by
  have hsymbols := resolve_symbols_followMode h
  have hmode := resolve_followsMode h
  have hlocals := (resolve_outcome h).symbols.templateLocals
  constructor
  · intro hstrict
    rw [hstrict] at hsymbols hmode
    exact strictProgram_of_followsMode hsymbols (by simpa [start, hstrict] using hlocals) hmode
  · intro hloose
    rw [hloose] at hsymbols hmode
    exact looseProgram_of_followsMode hsymbols hmode

/-- A component around a call, and after it a block that asks for the same name. -/
def providing : Template where
  body :=
    [.element { name := "Foo" }
      [.mustache ⟨⟨bareName "bar", [bareName "baz"], ⟨[], .dummy⟩⟩, false, {}, .dummy⟩] .dummy,
    .block ⟨⟨bareName "if", [bareName "baz"], ⟨[], .dummy⟩⟩, {}, {}, {}, .dummy⟩
      { body := [writeName "baz"], params := [], span := .dummy } none]
  span := .dummy

/-- The names that surrounding code provides. -/
def provided : List String := ["baz", "qux", "bar", "Foo"]

theorem resolve_respects_mode_providing :
    (∃ body p, providing.resolve { strict := true, locals := provided } = (.ok body, p) ∧
      p.symbols.usedLocals = ["Foo", "bar", "baz"] ∧
      StrictProgram { strict := true, locals := provided } body p.symbols) ∧
    ∃ body p, providing.resolve { locals := provided } = (.ok body, p) ∧
      p.symbols.upvars = ["Foo", "bar", "baz"] ∧ LooseProgram body p.symbols := by
  constructor
  -- Names that the code around provides, as upvars of their own.
  · have hok : (providing.resolve { strict := true, locals := provided }).1.isOk = true := by
      decide +kernel
    have hused : (providing.resolve { strict := true, locals := provided }).2.symbols.usedLocals
        = ["Foo", "bar", "baz"] := by decide +kernel
    match hrun : providing.resolve { strict := true, locals := provided } with
    | (.ok body, p) =>
      rw [hrun] at hused
      exact ⟨body, p, rfl, hused, (resolve_respects_mode providing _ body p hrun).1 rfl⟩
    | (.error fault, p) =>
      rw [hrun] at hok
      cases hok
  · have hok : (providing.resolve { locals := provided }).1.isOk = true := by decide +kernel
    have hupvars : (providing.resolve { locals := provided }).2.symbols.upvars
        = ["Foo", "bar", "baz"] := by decide +kernel
    match hrun : providing.resolve { locals := provided } with
    | (.ok body, p) =>
      rw [hrun] at hupvars
      exact ⟨body, p, rfl, hupvars, (resolve_respects_mode providing _ body p hrun).2 rfl⟩
    | (.error fault, p) =>
      rw [hrun] at hok
      cases hok

end TemplateCompiler.Resolved
