/-
The JSON form of a program determines it.

Statements and values are written as arrays by position, some of them with a
missing last item or with `null` for a missing one.  The number at the head of an
array says what it holds, and nothing but a missing key of a loop and a missing
last value of an inline condition is written as something else is.

* `Program.fill` — a program in which these two are spelled out as `null`;
* `Expr.kind`, `Statement.kind` — what the head of an array tells;
* `Expr.toJson_inj`, `statementsJson_inj` — values and statements with the same
  JSON form are equal once filled.
-/
import TemplateCompiler.Proofs.Json.Unambiguity
import TemplateCompiler.Proofs.Number.Integers
import TemplateCompiler.Proofs.Wire.Modes

namespace TemplateCompiler.Wire

open Template (Literal)

/-! ### Missing parts spelled out -/

mutual

/-- A value in which a missing last value of a condition is `null`. -/
def Expr.fill : Expr → Expr
  | .literal value => .literal value
  | .getSymbol slot tail => .getSymbol slot tail
  | .getFree opcode upvar tail => .getFree opcode upvar tail
  | .call callee params hash => .call callee.fill (fillExprs params) (fillEntries hash)
  | .concat parts => .concat (fillExprs parts)
  | .hasBlock slot => .hasBlock slot
  | .hasBlockParams slot => .hasBlockParams slot
  | .curry definition kind params hash =>
    .curry definition.fill kind (fillExprs params) (fillEntries hash)
  | .not value => .not value.fill
  | .ifInline condition truthy falsy => .ifInline condition.fill truthy.fill (fillMissing falsy)
  | .getDynamicVar name => .getDynamicVar name.fill
  | .log params => .log (fillExprs params)

/-- Fills values. -/
def fillExprs : List Expr → List Expr
  | [] => []
  | e :: rest => e.fill :: fillExprs rest

/-- Fills values with names. -/
def fillEntries : List (Entry Expr) → List (Entry Expr)
  | [] => []
  | entry :: rest => ⟨entry.name, entry.value.fill⟩ :: fillEntries rest

/-- Fills a value; if it is missing, it is `null`. -/
def fillMissing : Option Expr → Option Expr
  | none => some (.literal .null)
  | some e => some e.fill

end

mutual

/-- A statement in which a missing key of a loop is `null`. -/
def Statement.fill : Statement → Statement
  | .append value trusting => .append value.fill trusting
  | .comment text => .comment text
  | .modifier callee params hash => .modifier callee.fill (fillExprs params) (fillEntries hash)
  | .block callee params hash blocks =>
    .block callee.fill (fillExprs params) (fillEntries hash) (fillBlocks blocks)
  | .component tag params hash blocks =>
    .component tag.fill (fillStatements params) (fillEntries hash) (fillBlocks blocks)
  | .openElement tag splat => .openElement tag splat
  | .flushElement => .flushElement
  | .closeElement => .closeElement
  | .staticAttr name value space onComponent => .staticAttr name value space onComponent
  | .dynamicAttr name value space trusting onComponent =>
    .dynamicAttr name value.fill space trusting onComponent
  | .attrSplat slot => .attrSplat slot
  | .yield target params => .yield target (fillExprs params)
  | .partialCall target eval => .partialCall target.fill eval
  | .debugger eval => .debugger eval
  | .inElement block guid destination insertBefore =>
    .inElement (fillBlock block) guid destination.fill (insertBefore.map Expr.fill)
  | .branch condition block inverse => .branch condition.fill (fillBlock block) (fillOther inverse)
  | .each value key block inverse =>
    .each value.fill (fillMissing key) (fillBlock block) (fillOther inverse)
  | .withValue value block inverse => .withValue value.fill (fillBlock block) (fillOther inverse)
  | .letValues positional block => .letValues (fillExprs positional) (fillBlock block)
  | .withDynamicVars hash block => .withDynamicVars (fillEntries hash) (fillBlock block)
  | .invokeComponent definition params hash blocks =>
    .invokeComponent definition.fill (fillExprs params) (fillEntries hash) (fillBlocks blocks)

/-- Fills statements. -/
def fillStatements : List Statement → List Statement
  | [] => []
  | s :: rest => s.fill :: fillStatements rest

/-- Fills a block. -/
def fillBlock : Block Statement → Block Statement
  | ⟨statements, params⟩ => ⟨fillStatements statements, params⟩

/-- Fills blocks with names. -/
def fillBlocks : List (Entry (Block Statement)) → List (Entry (Block Statement))
  | [] => []
  | entry :: rest => ⟨entry.name, fillBlock entry.value⟩ :: fillBlocks rest

/-- Fills a block that may be missing. -/
def fillOther : Option (Block Statement) → Option (Block Statement)
  | none => none
  | some block => some (fillBlock block)

end

/-- A program in which a missing key of a loop and a missing last value of an inline
condition are `null`. -/
def Program.fill (p : Program) : Program := { p with statements := fillStatements p.statements }

/-! ### Parts of arrays -/

theorem nat_inj {m n : Nat} (h : Json.nat m = Json.nat n) : m = n :=
  Int.ofNat.inj (Json.int.inj h)

theorem strings_inj {a b : List String} (h : Json.strings a = Json.strings b) : a = b :=
  List.map_injective_iff.mpr (fun _ _ h => Json.str.inj h) (Json.arr.inj h)

theorem slotsJson_inj {a b : List Nat} (h : slotsJson a = slotsJson b) : a = b :=
  List.map_injective_iff.mpr (fun _ _ h => nat_inj h) (Json.arr.inj h)

theorem arrayOrNull_inj {a b : List Json} (h : arrayOrNull a = arrayOrNull b) : a = b := by
  cases a with
  | nil =>
    cases b with
    | nil => rfl
    | cons => cases h
  | cons =>
    cases b with
    | nil => cases h
    | cons => exact Json.arr.inj h

theorem tailJson_inj {a b : List String} (h : tailJson a = tailJson b) : a = b := by
  cases a with
  | nil =>
    cases b with
    | nil => rfl
    | cons => cases h
  | cons =>
    cases b with
    | nil => cases h
    | cons => exact strings_inj (List.cons.inj h).1

theorem tagged_inj {op op' : Opcode} {a b : List Json} (h : tagged op a = tagged op' b) :
    op.code = op'.code ∧ a = b := by
  obtain ⟨hop, hitems⟩ := List.cons.inj (Json.arr.inj h)
  exact ⟨nat_inj hop, hitems⟩

theorem pairJson_inj {names names' : List String} {values values' : List Json}
    (h : pairJson names values = pairJson names' values') : names = names' ∧ values = values' := by
  simp only [pairJson, Json.arr.injEq, List.cons.injEq, and_true] at h
  exact ⟨strings_inj h.1, h.2⟩

/-- As many names as values are told from no names at all. -/
theorem hashJson_inj {names names' : List String} {values values' : List Json}
    (hlength : names.length = values.length) (hlength' : names'.length = values'.length)
    (h : hashJson names values = hashJson names' values') : names = names' ∧ values = values' := by
  cases names with
  | nil =>
    cases names' with
    | nil =>
      exact ⟨rfl, (List.length_eq_zero_iff.mp hlength.symm).trans
        (List.length_eq_zero_iff.mp hlength'.symm).symm⟩
    | cons => cases h
  | cons =>
    cases names' with
    | nil => cases h
    | cons => exact pairJson_inj h

theorem space_inj {a b : Option String} (h : a.toList.map Json.str = b.toList.map Json.str) :
    a = b := by
  cases a <;> cases b <;> simp_all

/-! ### Values that are written plainly -/

/-- An integer that doubles hold exactly, as all smaller ones. -/
def IsSafeInteger (x : Binary64) : Prop := ∃ n, x.toInt? = some n ∧ n.natAbs ≤ maxSafeInteger

/-- A number is a safe integer, and a free name is read by an opcode of lookups. -/
structure Expr.IsPlain (e : Expr) : Prop where
  number : ∀ x, e = .literal (.number x) → IsSafeInteger x
  free : ∀ op upvar tail, e = .getFree op upvar tail → readsFree op

/-- A value is plain, and so is all that is inside of it. -/
def Expr.AllPlain (e : Expr) : Prop := ∀ w ∈ e :: e.inside, w.IsPlain

/-- The values that stand in a value itself. -/
def Expr.operands : Expr → List Expr
  | .literal _ | .getSymbol _ _ | .getFree _ _ _ | .hasBlock _ | .hasBlockParams _ => []
  | .call callee params hash | .curry callee _ params hash =>
    callee :: (params ++ hash.map Entry.value)
  | .concat params | .log params => params
  | .not value | .getDynamicVar value => [value]
  | .ifInline condition truthy falsy => condition :: truthy :: falsy.toList

theorem mem_entriesWithin {w : Expr} {hash : List (Entry Expr)} :
    w ∈ entriesWithin hash ↔ ∃ entry ∈ hash, w ∈ entry.value :: entry.value.inside := by
  induction hash with
  | nil => simp [entriesWithin]
  | cons entry rest ih => simp [entriesWithin, ih, or_assoc]

theorem Expr.AllPlain.operands {e : Expr} (h : e.AllPlain) : ∀ w ∈ e.operands, w.AllPlain := by
  intro w hw v hv
  -- What is inside of an operand is inside of the value.
  refine h v (List.mem_cons_of_mem _ ?_)
  cases e with
  | literal | getSymbol | getFree | hasBlock | hasBlockParams => cases hw
  | call callee params hash | curry callee kind params hash =>
    simp only [Expr.operands, List.mem_cons, List.mem_append, List.mem_map] at hw
    rw [Expr.inside, ← List.cons_append, ← List.cons_append]
    rcases hw with rfl | hw | ⟨entry, hentry, rfl⟩
    · exact List.mem_append_left _ (List.mem_append_left _ hv)
    · exact List.mem_append_left _ (List.mem_append_right _ (mem_exprsWithin.mpr ⟨w, hw, hv⟩))
    · exact List.mem_append_right _ (mem_entriesWithin.mpr ⟨entry, hentry, hv⟩)
  | concat params | log params =>
    rw [Expr.inside]
    exact mem_exprsWithin.mpr ⟨w, hw, hv⟩
  | not value | getDynamicVar value =>
    rw [Expr.inside]
    rwa [List.mem_singleton.mp hw] at hv
  | ifInline condition truthy falsy =>
    simp only [Expr.operands, List.mem_cons, Option.mem_toList] at hw
    rw [Expr.inside]
    rcases hw with rfl | rfl | hw
    · exact List.mem_append_left _ (List.mem_append_left _ hv)
    · exact List.mem_append_left _ (List.mem_append_right _ hv)
    · rw [Option.mem_def.mp hw]
      exact List.mem_append_right _ hv

theorem Expr.AllPlain.self {e : Expr} (h : e.AllPlain) : e.IsPlain := h e List.mem_cons_self

/-- What a literal is written as. -/
def literalKind : Literal → Json.Kind
  | .string _ => .string
  | .number _ => .number
  | .boolean _ => .bool
  | .null => .null
  | .undefined => .array

theorem literalJson_kind (v : Literal) : (literalJson v).kind = literalKind v := by
  cases v with
  | number x =>
    rw [literalJson]
    split
    · split <;> rfl
    · rfl
  | string | boolean | null | undefined => rfl

theorem literalJson_number {x : Binary64} (h : IsSafeInteger x) :
    ∃ n, x.toInt? = some n ∧ literalJson (.number x) = .int n := by
  obtain ⟨n, hn, hle⟩ := h
  exact ⟨n, hn, by simp only [literalJson, hn, if_pos hle]⟩

theorem literalJson_inj {v v' : Literal} (hv : (Expr.literal v).IsPlain)
    (hv' : (Expr.literal v').IsPlain) (h : literalJson v = literalJson v') : v = v' := by
  have hkind : literalKind v = literalKind v' := by
    rw [← literalJson_kind, ← literalJson_kind, h]
  cases v with
  | string text =>
    cases v' with
    | string text' => rw [Json.str.inj h]
    | _ => cases hkind
  | number x =>
    cases v' with
    | number x' =>
      -- Plain numbers are integers, so the text of a number is that of one integer.
      obtain ⟨n, hn, hjson⟩ := literalJson_number (hv.number x rfl)
      obtain ⟨n', hn', hjson'⟩ := literalJson_number (hv'.number x' rfl)
      rw [hjson, hjson'] at h
      obtain rfl := Json.int.inj h
      rw [Binary64.toInt?_injective hn hn']
    | _ => cases hkind
  | boolean b =>
    cases v' with
    | boolean b' => rw [Json.bool.inj h]
    | _ => cases hkind
  | null =>
    cases v' with
    | null => rfl
    | _ => cases hkind
  | undefined =>
    cases v' with
    | undefined => rfl
    | _ => cases hkind

/-! ### What the head of an array tells -/

/-- Every opcode. -/
def allOpcodes : List Opcode :=
  [.append, .trustingAppend, .comment, .modifier, .block, .component, .openElement,
    .openElementWithSplat, .flushElement, .closeElement, .staticAttr, .dynamicAttr, .componentAttr,
    .attrSplat, .yield, .partialCall, .trustingDynamicAttr, .trustingComponentAttr,
    .staticComponentAttr, .debugger, .undefined, .call, .concat, .getSymbol, .getStrictFree,
    .getFreeAsComponentOrHelperOrThis, .getFreeAsComponentOrHelper, .getFreeAsHelperOrThis,
    .getFreeAsHelper, .getFreeAsModifier, .getFreeAsComponent, .inElement, .branch, .each,
    .withValue, .letValues, .withDynamicVars, .invokeComponent, .hasBlock, .hasBlockParams, .curry,
    .not, .ifInline, .getDynamicVar, .log]

theorem find?_code (op : Opcode) : allOpcodes.find? (fun op' => op'.code == op.code) = some op := by
  cases op <;> rfl

/-- No two opcodes have the same number. -/
theorem code_inj {op op' : Opcode} (h : op.code = op'.code) : op = op' := by
  have hfind := find?_code op
  rw [h, find?_code op'] at hfind
  exact (Option.some.inj hfind).symm

/-- The opcode of a value; all lookups count as one, and a literal counts as the one
that is an array. -/
def Expr.kind : Expr → Opcode
  | .literal _ => .undefined
  | .getSymbol _ _ => .getSymbol
  | .getFree _ _ _ => .getStrictFree
  | .call _ _ _ => .call
  | .concat _ => .concat
  | .hasBlock _ => .hasBlock
  | .hasBlockParams _ => .hasBlockParams
  | .curry _ _ _ _ => .curry
  | .not _ => .not
  | .ifInline _ _ _ => .ifInline
  | .getDynamicVar _ => .getDynamicVar
  | .log _ => .log

/-- The number of the opcode of the values with a JSON form. -/
def kindOfJson : Json → Nat
  -- The six loose lookups have the numbers 34 to 39, the strict one has 31.
  | .arr (.int n :: _) => if 34 ≤ n ∧ n ≤ 39 then 31 else n.toNat
  -- Only literals are no arrays; `undefined` has the number 27.
  | _ => 27

theorem Expr.toJson_kind {e : Expr} (he : e.IsPlain) : kindOfJson e.toJson = e.kind.code := by
  cases e with
  | literal value =>
    rw [Expr.toJson]
    cases value with
    | number x =>
      obtain ⟨n, -, hjson⟩ := literalJson_number (he.number x rfl)
      rw [hjson]
      rfl
    | string | boolean | null | undefined => rfl
  | getFree op upvar tail =>
    rw [Expr.toJson]
    show (if 34 ≤ (op.code : Int) ∧ (op.code : Int) ≤ 39 then 31 else (op.code : Int).toNat) = 31
    rcases he.free op upvar tail rfl with hop | hop
    · rw [hop]
      rfl
    · rw [if_pos (by omega)]
  | getSymbol | call | concat | hasBlock | hasBlockParams | curry | not | ifInline | getDynamicVar
  | log =>
    rw [Expr.toJson]
    rfl

theorem Expr.kind_eq {e e' : Expr} (he : e.IsPlain) (he' : e'.IsPlain)
    (h : e.toJson = e'.toJson) : e.kind = e'.kind := by
  apply code_inj
  rw [← Expr.toJson_kind he, ← Expr.toJson_kind he', h]

theorem length_entriesJson (hash : List (Entry Expr)) :
    (hash.map Entry.name).length = (entriesJson hash).length := by
  induction hash with
  | nil => rw [entriesJson, List.map_nil, List.length_nil, List.length_nil]
  | cons entry rest ih =>
    rw [entriesJson, List.map_cons, List.length_cons, List.length_cons, ih]

/-- Named arguments with the same JSON form have the same names and values. -/
theorem argsJson_inj {hash hash' : List (Entry Expr)} (h : argsJson hash = argsJson hash') :
    hash.map Entry.name = hash'.map Entry.name ∧ entriesJson hash = entriesJson hash' :=
  hashJson_inj (length_entriesJson hash) (length_entriesJson hash') h

theorem curriedKind_inj {k k' : CurriedKind} (h : Json.nat k.code = Json.nat k'.code) : k = k' := by
  have hcode := nat_inj h
  cases k <;> cases k' <;> first | rfl | cases hcode

/-- Only `null` is written as a missing value is. -/
theorem Expr.fill_of_toJson_null {e : Expr} (h : e.toJson = .null) : e.fill = .literal .null := by
  cases e with
  | literal value =>
    rw [Expr.toJson] at h
    have hkind := literalJson_kind value
    rw [h] at hkind
    cases value with
    | null => rw [Expr.fill]
    | _ => cases hkind
  | _ =>
    rw [Expr.toJson] at h
    cases h

/-! ### Values -/

mutual

/-- Values with the same JSON form are equal once filled. -/
theorem Expr.toJson_inj (e e' : Expr) (he : e.AllPlain) (he' : e'.AllPlain)
    (h : e.toJson = e'.toJson) : e.fill = e'.fill := by
  -- The opcode tells the kind, so both values are made by one constructor.
  have hkind := Expr.kind_eq he.self he'.self h
  have hops := he.operands
  have hops' := he'.operands
  match e with
  | .literal value =>
    cases e' with
    | literal value' =>
      rw [Expr.toJson, Expr.toJson] at h
      rw [literalJson_inj he.self he'.self h]
    | _ => cases hkind
  | .getSymbol slot tail =>
    cases e' with
    | getSymbol slot' tail' =>
      rw [Expr.toJson, Expr.toJson] at h
      obtain ⟨hslot, htail⟩ := List.cons.inj (tagged_inj h).2
      rw [nat_inj hslot, tailJson_inj htail]
    | _ => cases hkind
  | .getFree op upvar tail =>
    cases e' with
    | getFree op' upvar' tail' =>
      rw [Expr.toJson, Expr.toJson] at h
      obtain ⟨hop, hitems⟩ := tagged_inj h
      obtain ⟨hupvar, htail⟩ := List.cons.inj hitems
      rw [code_inj hop, nat_inj hupvar, tailJson_inj htail]
    | _ => cases hkind
  | .call callee params hash =>
    cases e' with
    | call callee' params' hash' =>
      simp only [Expr.operands, List.forall_mem_cons, List.forall_mem_append,
        List.forall_mem_map] at hops hops'
      rw [Expr.toJson, Expr.toJson] at h
      have hitems := (tagged_inj h).2
      simp only [List.cons.injEq, and_true] at hitems
      have hargs := argsJson_inj hitems.2.2
      rw [Expr.fill, Expr.fill, callee.toJson_inj callee' hops.1 hops'.1 hitems.1,
        exprsJson_inj params params' hops.2.1 hops'.2.1 (arrayOrNull_inj hitems.2.1),
        entriesJson_inj hash hash' hops.2.2 hops'.2.2 hargs.1 hargs.2]
    | _ => cases hkind
  | .concat parts =>
    cases e' with
    | concat parts' =>
      rw [Expr.toJson, Expr.toJson] at h
      have hitems := (tagged_inj h).2
      simp only [List.cons.injEq, and_true] at hitems
      rw [Expr.fill, Expr.fill, exprsJson_inj parts parts' hops hops' (Json.arr.inj hitems)]
    | _ => cases hkind
  | .hasBlock slot =>
    cases e' with
    | hasBlock slot' =>
      rw [Expr.toJson, Expr.toJson] at h
      have hslot := (tagged_inj (List.cons.inj (tagged_inj h).2).1).2
      rw [nat_inj (List.cons.inj hslot).1]
    | _ => cases hkind
  | .hasBlockParams slot =>
    cases e' with
    | hasBlockParams slot' =>
      rw [Expr.toJson, Expr.toJson] at h
      have hslot := (tagged_inj (List.cons.inj (tagged_inj h).2).1).2
      rw [nat_inj (List.cons.inj hslot).1]
    | _ => cases hkind
  | .curry definition kind params hash =>
    cases e' with
    | curry definition' kind' params' hash' =>
      simp only [Expr.operands, List.forall_mem_cons, List.forall_mem_append,
        List.forall_mem_map] at hops hops'
      rw [Expr.toJson, Expr.toJson] at h
      have hitems := (tagged_inj h).2
      simp only [List.cons.injEq, and_true] at hitems
      have hargs := argsJson_inj hitems.2.2.2
      rw [Expr.fill, Expr.fill, definition.toJson_inj definition' hops.1 hops'.1 hitems.1,
        curriedKind_inj hitems.2.1,
        exprsJson_inj params params' hops.2.1 hops'.2.1 (arrayOrNull_inj hitems.2.2.1),
        entriesJson_inj hash hash' hops.2.2 hops'.2.2 hargs.1 hargs.2]
    | _ => cases hkind
  | .not value =>
    cases e' with
    | not value' =>
      simp only [Expr.operands, List.forall_mem_singleton] at hops hops'
      rw [Expr.toJson, Expr.toJson] at h
      rw [Expr.fill, Expr.fill,
        value.toJson_inj value' hops hops' (List.cons.inj (tagged_inj h).2).1]
    | _ => cases hkind
  | .ifInline condition truthy falsy =>
    cases e' with
    | ifInline condition' truthy' falsy' =>
      simp only [Expr.operands, List.forall_mem_cons, Option.mem_toList] at hops hops'
      rw [Expr.toJson, Expr.toJson] at h
      have hitems := (tagged_inj h).2
      simp only [List.cons.injEq, and_true] at hitems
      rw [Expr.fill, Expr.fill, condition.toJson_inj condition' hops.1 hops'.1 hitems.1,
        truthy.toJson_inj truthy' hops.2.1 hops'.2.1 hitems.2.1,
        optionJson_inj falsy falsy' hops.2.2 hops'.2.2 hitems.2.2]
    | _ => cases hkind
  | .getDynamicVar name =>
    cases e' with
    | getDynamicVar name' =>
      simp only [Expr.operands, List.forall_mem_singleton] at hops hops'
      rw [Expr.toJson, Expr.toJson] at h
      rw [Expr.fill, Expr.fill,
        name.toJson_inj name' hops hops' (List.cons.inj (tagged_inj h).2).1]
    | _ => cases hkind
  | .log params =>
    cases e' with
    | log params' =>
      rw [Expr.toJson, Expr.toJson] at h
      have hitems := (tagged_inj h).2
      simp only [List.cons.injEq, and_true] at hitems
      rw [Expr.fill, Expr.fill, exprsJson_inj params params' hops hops' (arrayOrNull_inj hitems)]
    | _ => cases hkind
termination_by structural e

theorem exprsJson_inj (es es' : List Expr) (hes : ∀ e ∈ es, e.AllPlain)
    (hes' : ∀ e ∈ es', e.AllPlain) (h : exprsJson es = exprsJson es') :
    fillExprs es = fillExprs es' := by
  match es with
  | [] =>
    cases es' with
    | nil => rfl
    | cons e' rest' =>
      rw [exprsJson, exprsJson] at h
      cases h
  | e :: rest =>
    cases es' with
    | nil =>
      rw [exprsJson, exprsJson] at h
      cases h
    | cons e' rest' =>
      rw [exprsJson, exprsJson] at h
      rw [List.forall_mem_cons] at hes hes'
      obtain ⟨he, hrest⟩ := List.cons.inj h
      rw [fillExprs, fillExprs, e.toJson_inj e' hes.1 hes'.1 he,
        exprsJson_inj rest rest' hes.2 hes'.2 hrest]
termination_by structural es

theorem entriesJson_inj (hash hash' : List (Entry Expr))
    (hh : ∀ entry ∈ hash, entry.value.AllPlain) (hh' : ∀ entry ∈ hash', entry.value.AllPlain)
    (hnames : hash.map Entry.name = hash'.map Entry.name)
    (h : entriesJson hash = entriesJson hash') : fillEntries hash = fillEntries hash' := by
  match hash with
  | [] =>
    cases hash' with
    | nil => rfl
    | cons entry' rest' => cases hnames
  | ⟨name, value⟩ :: rest =>
    cases hash' with
    | nil => cases hnames
    | cons entry' rest' =>
      obtain ⟨name', value'⟩ := entry'
      rw [entriesJson, entriesJson] at h
      rw [List.forall_mem_cons] at hh hh'
      obtain ⟨hvalue, hrest⟩ := List.cons.inj h
      obtain ⟨hname, hothers⟩ := List.cons.inj hnames
      obtain rfl : name = name' := hname
      rw [fillEntries, fillEntries, value.toJson_inj value' hh.1 hh'.1 hvalue,
        entriesJson_inj rest rest' hh.2 hh'.2 hothers hrest]
termination_by structural hash

theorem optionJson_inj (e e' : Option Expr) (he : ∀ w ∈ e, w.AllPlain)
    (he' : ∀ w ∈ e', w.AllPlain) (h : optionJson e = optionJson e') :
    fillMissing e = fillMissing e' := by
  match e with
  | none =>
    cases e' with
    | none => rfl
    | some w' =>
      rw [optionJson, optionJson] at h
      rw [fillMissing, fillMissing, Expr.fill_of_toJson_null h.symm]
  | some w =>
    cases e' with
    | none =>
      rw [optionJson, optionJson] at h
      rw [fillMissing, fillMissing, Expr.fill_of_toJson_null h]
    | some w' =>
      rw [optionJson, optionJson] at h
      rw [fillMissing, fillMissing, w.toJson_inj w' (he w rfl) (he' w' rfl) h]
termination_by structural e

end

/-! ### Statements -/

/-- All values in the statements are plain. -/
def AllPlain (ss : List Statement) : Prop := ∀ s ∈ ss, ∀ e ∈ s.exprs, e.AllPlain

theorem allPlain_cons {s : Statement} {ss : List Statement} :
    AllPlain (s :: ss) ↔ (∀ e ∈ s.exprs, e.AllPlain) ∧ AllPlain ss :=
  List.forall_mem_cons

theorem allPlain_append {ss ss' : List Statement} :
    AllPlain (ss ++ ss') ↔ AllPlain ss ∧ AllPlain ss' :=
  List.forall_mem_append

/-- The opcode of a statement, but for what it says beside the kind of statement. -/
def Statement.kind : Statement → Opcode
  | .append _ _ => .append
  | .openElement _ _ => .openElement
  | .staticAttr _ _ _ _ => .staticAttr
  | .dynamicAttr _ _ _ _ _ => .dynamicAttr
  | s => s.opcode

/-- The kind of the statements with an opcode. -/
def kindOfOpcode : Opcode → Opcode
  | .trustingAppend => .append
  | .openElementWithSplat => .openElement
  | .staticComponentAttr => .staticAttr
  | .trustingDynamicAttr | .componentAttr | .trustingComponentAttr => .dynamicAttr
  | op => op

theorem Statement.kindOfOpcode_opcode (s : Statement) : kindOfOpcode s.opcode = s.kind := by
  cases s with
  | append value flag | openElement tag flag | staticAttr name value space flag =>
    cases flag <;> rfl
  | dynamicAttr name value space trusting onComponent =>
    cases trusting <;> cases onComponent <;> rfl
  | _ => rfl

theorem length_blocksJson (blocks : List (Entry (Block Statement))) :
    (blocks.map Entry.name).length = (blocksJson blocks).length := by
  induction blocks with
  | nil => rw [blocksJson, List.map_nil, List.length_nil, List.length_nil]
  | cons entry rest ih =>
    rw [blocksJson, List.map_cons, List.length_cons, List.length_cons, ih]

/-- A callee and its arguments with the same JSON form. -/
theorem call_inj {callee callee' : Expr} {params params' : List Expr}
    {hash hash' : List (Entry Expr)}
    (hes : ∀ e ∈ callee :: (params ++ hash.map Entry.value), e.AllPlain)
    (hes' : ∀ e ∈ callee' :: (params' ++ hash'.map Entry.value), e.AllPlain)
    (hcallee : callee.toJson = callee'.toJson)
    (hparams : arrayOrNull (exprsJson params) = arrayOrNull (exprsJson params'))
    (hargs : argsJson hash = argsJson hash') :
    callee.fill = callee'.fill ∧ fillExprs params = fillExprs params' ∧
      fillEntries hash = fillEntries hash' := by
  simp only [List.forall_mem_cons, List.forall_mem_append, List.forall_mem_map] at hes hes'
  obtain ⟨hnames, hvalues⟩ := argsJson_inj hargs
  exact ⟨callee.toJson_inj callee' hes.1 hes'.1 hcallee,
    exprsJson_inj params params' hes.2.1 hes'.2.1 (arrayOrNull_inj hparams),
    entriesJson_inj hash hash' hes.2.2 hes'.2.2 hnames hvalues⟩

/-- A value at the end of an array is told from none. -/
theorem insertBefore_inj {e e' : Option Expr}
    (h : (match e with | none => [] | some e => [e.toJson])
      = (match e' with | none => [] | some e => [e.toJson]))
    (he : ∀ w ∈ e, w.AllPlain) (he' : ∀ w ∈ e', w.AllPlain) :
    e.map Expr.fill = e'.map Expr.fill := by
  cases e with
  | none =>
    cases e' with
    | none => rfl
    | some => cases h
  | some e =>
    cases e' with
    | none => cases h
    | some e' =>
      rw [Option.map_some, Option.map_some,
        e.toJson_inj e' (he e rfl) (he' e' rfl) (List.cons.inj h).1]

theorem blockJson_ne_null (b : Block Statement) : blockJson b ≠ .null := by
  obtain ⟨statements, params⟩ := b
  rw [blockJson]
  exact Json.noConfusion

mutual

/-- Statements with the same opcode and operands are equal once filled. -/
theorem Statement.operands_inj (s s' : Statement) (hs : AllPlain (s :: s.inside))
    (hs' : AllPlain (s' :: s'.inside)) (hop : s.opcode = s'.opcode)
    (h : s.operands = s'.operands) : s.fill = s'.fill := by
  -- Flags are told by the opcode, all other parts by the operands.
  have hkind : s.kind = s'.kind := by
    rw [← s.kindOfOpcode_opcode, ← s'.kindOfOpcode_opcode, hop]
  rw [allPlain_cons] at hs hs'
  obtain ⟨hes, hin⟩ := hs
  obtain ⟨hes', hin'⟩ := hs'
  match s with
  | .append value trusting =>
    cases s' with
    | append value' trusting' =>
      simp only [Statement.exprs, List.forall_mem_singleton] at hes hes'
      simp only [Statement.operands, List.cons.injEq, and_true] at h
      have htrusting : trusting = trusting' := by
        cases trusting <;> cases trusting' <;> first | rfl | cases hop
      rw [Statement.fill, Statement.fill, value.toJson_inj value' hes hes' h, htrusting]
    | _ => cases hkind
  | .comment text =>
    cases s' with
    | comment text' =>
      simp only [Statement.operands, List.cons.injEq, and_true] at h
      rw [Json.str.inj h]
    | _ => cases hkind
  | .modifier callee params hash =>
    cases s' with
    | modifier callee' params' hash' =>
      simp only [Statement.operands, List.cons.injEq, and_true] at h
      obtain ⟨hcallee, hparams, hhash⟩ := call_inj hes hes' h.1 h.2.1 h.2.2
      rw [Statement.fill, Statement.fill, hcallee, hparams, hhash]
    | _ => cases hkind
  | .block callee params hash blocks =>
    cases s' with
    | block callee' params' hash' blocks' =>
      simp only [Statement.inside] at hin hin'
      simp only [Statement.operands, List.cons.injEq, and_true] at h
      obtain ⟨hcallee, hparams, hhash⟩ := call_inj hes hes' h.1 h.2.1 h.2.2.1
      have hblocks := pairJson_inj h.2.2.2
      rw [Statement.fill, Statement.fill, hcallee, hparams, hhash,
        blocksJson_inj blocks blocks' hin hin' hblocks.1 hblocks.2]
    | _ => cases hkind
  | .component tag params hash blocks =>
    cases s' with
    | component tag' params' hash' blocks' =>
      simp only [Statement.exprs, List.forall_mem_cons, List.forall_mem_map] at hes hes'
      simp only [Statement.inside, allPlain_append] at hin hin'
      simp only [Statement.operands, List.cons.injEq, and_true] at h
      have hargs := argsJson_inj h.2.2.1
      have hblocks := pairJson_inj h.2.2.2
      rw [Statement.fill, Statement.fill, tag.toJson_inj tag' hes.1 hes'.1 h.1,
        statementsJson_inj params params' hin.1 hin'.1 (arrayOrNull_inj h.2.1),
        entriesJson_inj hash hash' hes.2 hes'.2 hargs.1 hargs.2,
        blocksJson_inj blocks blocks' hin.2 hin'.2 hblocks.1 hblocks.2]
    | _ => cases hkind
  | .openElement tag splat =>
    cases s' with
    | openElement tag' splat' =>
      simp only [Statement.operands, List.cons.injEq, and_true] at h
      have hsplat : splat = splat' := by
        cases splat <;> cases splat' <;> first | rfl | cases hop
      rw [Json.str.inj h, hsplat]
    | _ => cases hkind
  | .flushElement =>
    cases s' with
    | flushElement => rfl
    | _ => cases hkind
  | .closeElement =>
    cases s' with
    | closeElement => rfl
    | _ => cases hkind
  | .staticAttr name value space onComponent =>
    cases s' with
    | staticAttr name' value' space' onComponent' =>
      simp only [Statement.operands, List.cons.injEq] at h
      have hflag : onComponent = onComponent' := by
        cases onComponent <;> cases onComponent' <;> first | rfl | cases hop
      rw [Json.str.inj h.1, Json.str.inj h.2.1, space_inj h.2.2, hflag]
    | _ => cases hkind
  | .dynamicAttr name value space trusting onComponent =>
    cases s' with
    | dynamicAttr name' value' space' trusting' onComponent' =>
      simp only [Statement.exprs, List.forall_mem_singleton] at hes hes'
      simp only [Statement.operands, List.cons.injEq] at h
      have hflags : trusting = trusting' ∧ onComponent = onComponent' := by
        cases trusting <;> cases onComponent <;> cases trusting' <;> cases onComponent' <;>
          first | exact ⟨rfl, rfl⟩ | cases hop
      rw [Statement.fill, Statement.fill, Json.str.inj h.1,
        value.toJson_inj value' hes hes' h.2.1, space_inj h.2.2, hflags.1, hflags.2]
    | _ => cases hkind
  | .attrSplat slot =>
    cases s' with
    | attrSplat slot' =>
      simp only [Statement.operands, List.cons.injEq, and_true] at h
      rw [nat_inj h]
    | _ => cases hkind
  | .yield target params =>
    cases s' with
    | yield target' params' =>
      simp only [Statement.exprs] at hes hes'
      simp only [Statement.operands, List.cons.injEq, and_true] at h
      rw [Statement.fill, Statement.fill, nat_inj h.1,
        exprsJson_inj params params' hes hes' (arrayOrNull_inj h.2)]
    | _ => cases hkind
  | .partialCall target eval =>
    cases s' with
    | partialCall target' eval' =>
      simp only [Statement.exprs, List.forall_mem_singleton] at hes hes'
      simp only [Statement.operands, List.cons.injEq, and_true] at h
      rw [Statement.fill, Statement.fill, target.toJson_inj target' hes hes' h.1,
        slotsJson_inj h.2]
    | _ => cases hkind
  | .debugger eval =>
    cases s' with
    | debugger eval' =>
      simp only [Statement.operands, List.cons.injEq, and_true] at h
      rw [slotsJson_inj h]
    | _ => cases hkind
  | .inElement block guid destination insertBefore =>
    cases s' with
    | inElement block' guid' destination' insertBefore' =>
      simp only [Statement.exprs, List.forall_mem_cons, Option.mem_toList] at hes hes'
      simp only [Statement.inside] at hin hin'
      simp only [Statement.operands, List.cons.injEq] at h
      rw [Statement.fill, Statement.fill, blockJson_inj block block' hin hin' h.1,
        Json.str.inj h.2.1, destination.toJson_inj destination' hes.1 hes'.1 h.2.2.1,
        insertBefore_inj h.2.2.2 hes.2 hes'.2]
    | _ => cases hkind
  | .branch condition block inverse =>
    cases s' with
    | branch condition' block' inverse' =>
      simp only [Statement.exprs, List.forall_mem_singleton] at hes hes'
      simp only [Statement.inside, allPlain_append] at hin hin'
      simp only [Statement.operands, List.cons.injEq, and_true] at h
      rw [Statement.fill, Statement.fill, condition.toJson_inj condition' hes hes' h.1,
        blockJson_inj block block' hin.1 hin'.1 h.2.1,
        otherJson_inj inverse inverse' hin.2 hin'.2 h.2.2]
    | _ => cases hkind
  | .each value key block inverse =>
    cases s' with
    | each value' key' block' inverse' =>
      simp only [Statement.exprs, List.forall_mem_cons, Option.mem_toList] at hes hes'
      simp only [Statement.inside, allPlain_append] at hin hin'
      simp only [Statement.operands, List.cons.injEq, and_true] at h
      rw [Statement.fill, Statement.fill, value.toJson_inj value' hes.1 hes'.1 h.1,
        optionJson_inj key key' hes.2 hes'.2 h.2.1,
        blockJson_inj block block' hin.1 hin'.1 h.2.2.1,
        otherJson_inj inverse inverse' hin.2 hin'.2 h.2.2.2]
    | _ => cases hkind
  | .withValue value block inverse =>
    cases s' with
    | withValue value' block' inverse' =>
      simp only [Statement.exprs, List.forall_mem_singleton] at hes hes'
      simp only [Statement.inside, allPlain_append] at hin hin'
      simp only [Statement.operands, List.cons.injEq, and_true] at h
      rw [Statement.fill, Statement.fill, value.toJson_inj value' hes hes' h.1,
        blockJson_inj block block' hin.1 hin'.1 h.2.1,
        otherJson_inj inverse inverse' hin.2 hin'.2 h.2.2]
    | _ => cases hkind
  | .letValues positional block =>
    cases s' with
    | letValues positional' block' =>
      simp only [Statement.exprs] at hes hes'
      simp only [Statement.inside] at hin hin'
      simp only [Statement.operands, List.cons.injEq, and_true] at h
      rw [Statement.fill, Statement.fill,
        exprsJson_inj positional positional' hes hes' (Json.arr.inj h.1),
        blockJson_inj block block' hin hin' h.2]
    | _ => cases hkind
  | .withDynamicVars hash block =>
    cases s' with
    | withDynamicVars hash' block' =>
      simp only [Statement.exprs, List.forall_mem_map] at hes hes'
      simp only [Statement.inside] at hin hin'
      simp only [Statement.operands, List.cons.injEq, and_true] at h
      have hargs := argsJson_inj h.1
      rw [Statement.fill, Statement.fill,
        entriesJson_inj hash hash' hes hes' hargs.1 hargs.2,
        blockJson_inj block block' hin hin' h.2]
    | _ => cases hkind
  | .invokeComponent definition params hash blocks =>
    cases s' with
    | invokeComponent definition' params' hash' blocks' =>
      simp only [Statement.inside] at hin hin'
      simp only [Statement.operands, List.cons.injEq, and_true] at h
      obtain ⟨hcallee, hparams, hhash⟩ := call_inj hes hes' h.1 h.2.1 h.2.2.1
      have hblocks := hashJson_inj (length_blocksJson blocks) (length_blocksJson blocks') h.2.2.2
      rw [Statement.fill, Statement.fill, hcallee, hparams, hhash,
        blocksJson_inj blocks blocks' hin hin' hblocks.1 hblocks.2]
    | _ => cases hkind
termination_by structural s

/-- Statements with the same JSON form are equal once filled. -/
theorem statementsJson_inj (ss ss' : List Statement) (hss : AllPlain (statementsWithin ss))
    (hss' : AllPlain (statementsWithin ss')) (h : statementsJson ss = statementsJson ss') :
    fillStatements ss = fillStatements ss' := by
  match ss with
  | [] =>
    cases ss' with
    | nil => rfl
    | cons s' rest' =>
      rw [statementsJson, statementsJson] at h
      cases h
  | s :: rest =>
    cases ss' with
    | nil =>
      rw [statementsJson, statementsJson] at h
      cases h
    | cons s' rest' =>
      rw [statementsJson, statementsJson] at h
      rw [statementsWithin, ← List.cons_append, allPlain_append] at hss hss'
      obtain ⟨hhead, hrest⟩ := List.cons.inj h
      obtain ⟨hop, hoperands⟩ := tagged_inj hhead
      rw [fillStatements, fillStatements,
        s.operands_inj s' hss.1 hss'.1 (code_inj hop) hoperands,
        statementsJson_inj rest rest' hss.2 hss'.2 hrest]
termination_by structural ss

theorem blockJson_inj (b b' : Block Statement) (hb : AllPlain (blockWithin b))
    (hb' : AllPlain (blockWithin b')) (h : blockJson b = blockJson b') :
    fillBlock b = fillBlock b' := by
  match b with
  | ⟨ss, params⟩ =>
    obtain ⟨ss', params'⟩ := b'
    rw [blockWithin] at hb hb'
    simp only [blockJson, Json.arr.injEq, List.cons.injEq, and_true] at h
    rw [fillBlock, fillBlock, statementsJson_inj ss ss' hb hb' h.1, slotsJson_inj h.2]
termination_by structural b

theorem blocksJson_inj (blocks blocks' : List (Entry (Block Statement)))
    (hblocks : AllPlain (blocksWithin blocks)) (hblocks' : AllPlain (blocksWithin blocks'))
    (hnames : blocks.map Entry.name = blocks'.map Entry.name)
    (h : blocksJson blocks = blocksJson blocks') : fillBlocks blocks = fillBlocks blocks' := by
  match blocks with
  | [] =>
    cases blocks' with
    | nil => rfl
    | cons => cases hnames
  | ⟨name, block⟩ :: rest =>
    cases blocks' with
    | nil => cases hnames
    | cons entry' rest' =>
      obtain ⟨name', block'⟩ := entry'
      rw [blocksJson, blocksJson] at h
      rw [blocksWithin, allPlain_append] at hblocks hblocks'
      obtain ⟨hblock, hrest⟩ := List.cons.inj h
      obtain ⟨hname, hothers⟩ := List.cons.inj hnames
      obtain rfl : name = name' := hname
      rw [fillBlocks, fillBlocks, blockJson_inj block block' hblocks.1 hblocks'.1 hblock,
        blocksJson_inj rest rest' hblocks.2 hblocks'.2 hothers hrest]
termination_by structural blocks

theorem otherJson_inj (b b' : Option (Block Statement)) (hb : AllPlain (otherWithin b))
    (hb' : AllPlain (otherWithin b')) (h : otherJson b = otherJson b') :
    fillOther b = fillOther b' := by
  match b with
  | none =>
    cases b' with
    | none => rfl
    | some block' =>
      rw [otherJson, otherJson] at h
      exact absurd h.symm (blockJson_ne_null block')
  | some block =>
    cases b' with
    | none =>
      rw [otherJson, otherJson] at h
      exact absurd h (blockJson_ne_null block)
    | some block' =>
      rw [otherJson, otherJson] at h
      rw [otherWithin] at hb hb'
      rw [fillOther, fillOther, blockJson_inj block block' hb hb' h]
termination_by structural b

end

end TemplateCompiler.Wire
