/-
Programs are told apart by their texts.

The text of a program is that of its JSON form, and the JSON form determines the
program (see `statementsJson_inj`).  A text in turn determines the JSON form if it
holds no fractions, and a program holds none if its numbers are integers that
doubles hold exactly.

* `statementsJson_allIntegral` — the JSON form of plain statements holds no
  doubles;
* `Program.text_inj` — programs with the same text are equal once filled;
* `Resolved.text_unambiguous` — the same of encoded templates, for which only the
  numbers have to be known.
-/
import TemplateCompiler.Proofs.Wire.JsonForm

namespace TemplateCompiler.Wire

open Template (Literal)

/-! ### Programs hold no fractions -/

open Json (allIntegral)

theorem strings_isIntegral (values : List String) : (Json.strings values).isIntegral = true := by
  rw [Json.strings, Json.isIntegral]
  induction values with
  | nil => rfl
  | cons value rest ih => rw [List.map_cons, allIntegral, ih]; rfl

theorem slotsJson_isIntegral (slots : List Nat) : (slotsJson slots).isIntegral = true := by
  rw [slotsJson, Json.isIntegral]
  induction slots with
  | nil => rfl
  | cons slot rest ih => rw [List.map_cons, allIntegral, ih]; rfl

theorem tagged_isIntegral (op : Opcode) (items : List Json) :
    (tagged op items).isIntegral = allIntegral items := by
  rw [tagged, Json.isIntegral, allIntegral, Json.nat, Json.isIntegral, Bool.true_and]

theorem arrayOrNull_isIntegral (items : List Json) :
    (arrayOrNull items).isIntegral = allIntegral items := by
  cases items with
  | nil => rfl
  | cons item items => rw [arrayOrNull, Json.isIntegral]; simp

theorem tailJson_allIntegral (tail : List String) : allIntegral (tailJson tail) = true := by
  cases tail with
  | nil => rfl
  | cons name tail =>
    rw [show tailJson (name :: tail) = [.strings (name :: tail)] from rfl, allIntegral,
      strings_isIntegral]
    rfl

theorem pairJson_isIntegral (names : List String) (values : List Json) :
    (pairJson names values).isIntegral = allIntegral values := by
  simp only [pairJson, Json.isIntegral, allIntegral, strings_isIntegral, Bool.true_and,
    Bool.and_true]

theorem hashJson_isIntegral (names : List String) {values : List Json}
    (h : allIntegral values = true) : (hashJson names values).isIntegral = true := by
  rw [hashJson]
  split
  · rfl
  · rw [pairJson_isIntegral, h]

theorem literalJson_isIntegral {v : Literal} (hv : (Expr.literal v).IsPlain) :
    (literalJson v).isIntegral = true := by
  cases v with
  | number x =>
    obtain ⟨n, -, hjson⟩ := literalJson_number (hv.number x rfl)
    rw [hjson]
    rfl
  | string | boolean | null | undefined => rfl

mutual

theorem Expr.toJson_isIntegral (e : Expr) (he : e.AllPlain) : e.toJson.isIntegral = true := by
  -- Numbers stand in literals only, and these are integers.
  have hops := he.operands
  match e with
  | .literal value =>
    rw [Expr.toJson]
    exact literalJson_isIntegral he.self
  | .getSymbol slot tail | .getFree op slot tail =>
    rw [Expr.toJson, tagged_isIntegral, allIntegral, tailJson_allIntegral]
    rfl
  | .hasBlock slot | .hasBlockParams slot =>
    rw [Expr.toJson, tagged_isIntegral]
    rfl
  | .call callee params hash =>
    simp only [Expr.operands, List.forall_mem_cons, List.forall_mem_append,
      List.forall_mem_map] at hops
    simp only [Expr.toJson, tagged_isIntegral, allIntegral, arrayOrNull_isIntegral, Bool.and_true,
      callee.toJson_isIntegral hops.1, exprsJson_allIntegral params hops.2.1,
      hashJson_isIntegral _ (entriesJson_allIntegral hash hops.2.2)]
  | .curry callee kind params hash =>
    simp only [Expr.operands, List.forall_mem_cons, List.forall_mem_append,
      List.forall_mem_map] at hops
    simp only [Expr.toJson, tagged_isIntegral, allIntegral, arrayOrNull_isIntegral, Bool.and_true,
      Json.nat, Json.isIntegral, callee.toJson_isIntegral hops.1,
      exprsJson_allIntegral params hops.2.1,
      hashJson_isIntegral _ (entriesJson_allIntegral hash hops.2.2)]
  | .concat params | .log params =>
    simp only [Expr.toJson, tagged_isIntegral, allIntegral, arrayOrNull_isIntegral, Bool.and_true,
      Json.isIntegral, exprsJson_allIntegral params hops]
  | .not value | .getDynamicVar value =>
    simp only [Expr.operands, List.forall_mem_singleton] at hops
    simp only [Expr.toJson, tagged_isIntegral, allIntegral, Bool.and_true,
      value.toJson_isIntegral hops]
  | .ifInline condition truthy falsy =>
    simp only [Expr.operands, List.forall_mem_cons, Option.mem_toList] at hops
    simp only [Expr.toJson, tagged_isIntegral, allIntegral, Bool.and_true,
      condition.toJson_isIntegral hops.1, truthy.toJson_isIntegral hops.2.1,
      optionJson_isIntegral falsy hops.2.2]

theorem exprsJson_allIntegral (es : List Expr) (hes : ∀ e ∈ es, e.AllPlain) :
    allIntegral (exprsJson es) = true := by
  match es with
  | [] => rfl
  | e :: rest =>
    rw [List.forall_mem_cons] at hes
    rw [exprsJson, allIntegral, e.toJson_isIntegral hes.1, exprsJson_allIntegral rest hes.2]
    rfl

theorem entriesJson_allIntegral (hash : List (Entry Expr))
    (hh : ∀ entry ∈ hash, entry.value.AllPlain) : allIntegral (entriesJson hash) = true := by
  match hash with
  | [] => rfl
  | ⟨name, value⟩ :: rest =>
    rw [List.forall_mem_cons] at hh
    rw [entriesJson, allIntegral, value.toJson_isIntegral hh.1, entriesJson_allIntegral rest hh.2]
    rfl

theorem optionJson_isIntegral (e : Option Expr) (he : ∀ w ∈ e, w.AllPlain) :
    (optionJson e).isIntegral = true := by
  match e with
  | none => rfl
  | some w =>
    rw [optionJson]
    exact w.toJson_isIntegral (he w rfl)

end

theorem argsJson_isIntegral {hash : List (Entry Expr)}
    (hh : ∀ entry ∈ hash, entry.value.AllPlain) : (argsJson hash).isIntegral = true :=
  hashJson_isIntegral _ (entriesJson_allIntegral hash hh)

mutual

theorem Statement.operands_allIntegral (s : Statement) (hs : AllPlain (s :: s.inside)) :
    allIntegral s.operands = true := by
  rw [allPlain_cons] at hs
  obtain ⟨hes, hin⟩ := hs
  match s with
  | .comment _ | .openElement _ _ | .flushElement | .closeElement | .attrSplat _ =>
    rw [Statement.operands]
    rfl
  | .debugger eval =>
    simp only [Statement.operands, allIntegral, slotsJson_isIntegral, Bool.and_true]
  | .append value _ =>
    simp only [Statement.exprs, List.forall_mem_singleton] at hes
    simp only [Statement.operands, allIntegral, value.toJson_isIntegral hes, Bool.and_true]
  | .partialCall value eval =>
    simp only [Statement.exprs, List.forall_mem_singleton] at hes
    simp only [Statement.operands, allIntegral, value.toJson_isIntegral hes, slotsJson_isIntegral,
      Bool.and_true]
  | .staticAttr name value space _ =>
    cases space <;> rw [Statement.operands] <;> rfl
  | .dynamicAttr name value space _ _ =>
    simp only [Statement.exprs, List.forall_mem_singleton] at hes
    have hvalue := value.toJson_isIntegral hes
    cases space <;>
      simp only [Statement.operands, Option.toList_none, Option.toList_some, List.map_nil,
        List.map_cons, allIntegral, Json.isIntegral, hvalue, Bool.and_true]
  | .modifier callee params hash =>
    simp only [Statement.exprs, List.forall_mem_cons, List.forall_mem_append,
      List.forall_mem_map] at hes
    simp only [Statement.operands, allIntegral, arrayOrNull_isIntegral, Bool.and_true,
      callee.toJson_isIntegral hes.1, exprsJson_allIntegral params hes.2.1,
      argsJson_isIntegral hes.2.2]
  | .block callee params hash blocks =>
    simp only [Statement.exprs, List.forall_mem_cons, List.forall_mem_append,
      List.forall_mem_map] at hes
    simp only [Statement.inside] at hin
    simp only [Statement.operands, allIntegral, arrayOrNull_isIntegral, pairJson_isIntegral,
      Bool.and_true, callee.toJson_isIntegral hes.1, exprsJson_allIntegral params hes.2.1,
      argsJson_isIntegral hes.2.2, blocksJson_allIntegral blocks hin]
  | .component tag params hash blocks =>
    simp only [Statement.exprs, List.forall_mem_cons, List.forall_mem_map] at hes
    simp only [Statement.inside, allPlain_append] at hin
    simp only [Statement.operands, allIntegral, arrayOrNull_isIntegral, pairJson_isIntegral,
      Bool.and_true, tag.toJson_isIntegral hes.1, statementsJson_allIntegral params hin.1,
      argsJson_isIntegral hes.2, blocksJson_allIntegral blocks hin.2]
  | .yield target params =>
    simp only [Statement.operands, allIntegral, arrayOrNull_isIntegral, Json.nat, Json.isIntegral,
      Bool.and_true, exprsJson_allIntegral params hes]
  | .inElement block guid destination insertBefore =>
    simp only [Statement.exprs, List.forall_mem_cons, Option.mem_toList] at hes
    simp only [Statement.inside] at hin
    have hblock := blockJson_isIntegral block hin
    have hdestination := destination.toJson_isIntegral hes.1
    cases insertBefore with
    | none =>
      simp only [Statement.operands, allIntegral, Json.isIntegral, hblock, hdestination,
        Bool.and_true]
    | some e =>
      simp only [Statement.operands, allIntegral, Json.isIntegral, hblock, hdestination,
        e.toJson_isIntegral (hes.2 e rfl), Bool.and_true]
  | .branch value block inverse | .withValue value block inverse =>
    simp only [Statement.exprs, List.forall_mem_singleton] at hes
    simp only [Statement.inside, allPlain_append] at hin
    simp only [Statement.operands, allIntegral, value.toJson_isIntegral hes,
      blockJson_isIntegral block hin.1, otherJson_isIntegral inverse hin.2, Bool.and_true]
  | .each value key block inverse =>
    simp only [Statement.exprs, List.forall_mem_cons, Option.mem_toList] at hes
    simp only [Statement.inside, allPlain_append] at hin
    simp only [Statement.operands, allIntegral, value.toJson_isIntegral hes.1,
      optionJson_isIntegral key hes.2, blockJson_isIntegral block hin.1,
      otherJson_isIntegral inverse hin.2, Bool.and_true]
  | .letValues positional block =>
    simp only [Statement.inside] at hin
    simp only [Statement.operands, allIntegral, Json.isIntegral,
      exprsJson_allIntegral positional hes, blockJson_isIntegral block hin, Bool.and_true]
  | .withDynamicVars hash block =>
    simp only [Statement.exprs, List.forall_mem_map] at hes
    simp only [Statement.inside] at hin
    simp only [Statement.operands, allIntegral, argsJson_isIntegral hes,
      blockJson_isIntegral block hin, Bool.and_true]
  | .invokeComponent definition params hash blocks =>
    simp only [Statement.exprs, List.forall_mem_cons, List.forall_mem_append,
      List.forall_mem_map] at hes
    simp only [Statement.inside] at hin
    simp only [Statement.operands, allIntegral, arrayOrNull_isIntegral, Bool.and_true,
      definition.toJson_isIntegral hes.1, exprsJson_allIntegral params hes.2.1,
      argsJson_isIntegral hes.2.2, hashJson_isIntegral _ (blocksJson_allIntegral blocks hin)]

theorem statementsJson_allIntegral (ss : List Statement) (hss : AllPlain (statementsWithin ss)) :
    allIntegral (statementsJson ss) = true := by
  match ss with
  | [] => rfl
  | s :: rest =>
    rw [statementsWithin, ← List.cons_append, allPlain_append] at hss
    rw [statementsJson, allIntegral, tagged_isIntegral, s.operands_allIntegral hss.1,
      statementsJson_allIntegral rest hss.2]
    rfl

theorem blockJson_isIntegral (b : Block Statement) (hb : AllPlain (blockWithin b)) :
    (blockJson b).isIntegral = true := by
  match b with
  | ⟨ss, params⟩ =>
    rw [blockWithin] at hb
    simp only [blockJson, Json.isIntegral, allIntegral, statementsJson_allIntegral ss hb,
      slotsJson_isIntegral, Bool.and_true]

theorem blocksJson_allIntegral (blocks : List (Entry (Block Statement)))
    (hblocks : AllPlain (blocksWithin blocks)) : allIntegral (blocksJson blocks) = true := by
  match blocks with
  | [] => rfl
  | ⟨name, block⟩ :: rest =>
    rw [blocksWithin, allPlain_append] at hblocks
    rw [blocksJson, allIntegral, blockJson_isIntegral block hblocks.1,
      blocksJson_allIntegral rest hblocks.2]
    rfl

theorem otherJson_isIntegral (b : Option (Block Statement)) (hb : AllPlain (otherWithin b)) :
    (otherJson b).isIntegral = true := by
  match b with
  | none => rfl
  | some block =>
    rw [otherWithin] at hb
    rw [otherJson]
    exact blockJson_isIntegral block hb

end

/-! ### Programs -/

/-- Programs with plain values that have the same text are equal once filled. -/
theorem Program.text_inj {p p' : Program} (hp : AllPlain (statementsWithin p.statements))
    (hp' : AllPlain (statementsWithin p'.statements)) (h : p.text = p'.text) :
    p.fill = p'.fill := by
  have hintegral : ∀ q : Program, AllPlain (statementsWithin q.statements) →
      q.toJson.isIntegral = true := by
    intro q hq
    simp only [Program.toJson, Json.isIntegral, allIntegral, statementsJson_allIntegral _ hq,
      strings_isIntegral, Bool.and_true]
  have hjson := Json.compact_inj (hintegral p hp) (hintegral p' hp') h
  simp only [Program.toJson, Json.arr.injEq, List.cons.injEq, and_true, Json.bool.injEq] at hjson
  obtain ⟨hstatements, hsymbols, heval, hupvars⟩ := hjson
  rw [Program.fill, Program.fill, statementsJson_inj _ _ hp hp' hstatements, strings_inj hsymbols,
    heval, strings_inj hupvars]

end TemplateCompiler.Wire

namespace TemplateCompiler.Resolved

open Wire (IsSafeInteger readsFree)

theorem readsFree_ofResolution (r : Resolution) : readsFree (.ofResolution r) := by
  cases h : r.isStrict with
  | true => exact .inl (Opcode.code_of_isStrict h)
  | false => exact .inr (Opcode.code_of_loose h)

/-- The values of an encoded template are plain if its numbers are. -/
theorem Body.encode_allPlain {b : Body} {symbols : Symbols}
    (h : ∀ x, .literal (.number x) ∈ (b.encode symbols).values → IsSafeInteger x) :
    Wire.AllPlain (Wire.statementsWithin (b.encode symbols).statements) := by
  intro s hs e he w hw
  have hvalue : w ∈ (b.encode symbols).values :=
    List.mem_flatMap.mpr ⟨s, hs, Wire.mem_exprsWithin.mpr ⟨e, he, hw⟩⟩
  refine ⟨fun x hx => h x (hx ▸ hvalue), fun op upvar tail hfree => ?_⟩
  subst hfree
  obtain ⟨c, -, e, -, hwithin⟩ := Body.mem_values hvalue
  obtain ⟨v, -, resolution, -, rfl⟩ := e.encode_readFrom op upvar tail hwithin
  exact readsFree_ofResolution resolution

/-- Encoded templates whose numbers are integers that doubles hold exactly are told
apart by their texts, but for a missing key of a loop or last value of an inline
condition that is the same as `null`. -/
theorem text_unambiguous (b b' : Body) (symbols symbols' : Symbols)
    (hnumbers : ∀ x, .literal (.number x) ∈ (b.encode symbols).values → IsSafeInteger x)
    (hnumbers' : ∀ x, .literal (.number x) ∈ (b'.encode symbols').values → IsSafeInteger x)
    (htext : (b.encode symbols).text = (b'.encode symbols').text) :
    (b.encode symbols).fill = (b'.encode symbols').fill :=
  Wire.Program.text_inj (Body.encode_allPlain hnumbers) (Body.encode_allPlain hnumbers') htext

/-- A loop over a number, with or without a key. -/
def loopOver (key : Option Expr) : Body :=
  { body :=
      [.each (.literal (.number ⟨0x4014000000000000⟩) .dummy) key ⟨[1], [], .dummy⟩ none .dummy]
    span := .dummy }

theorem text_unambiguous_loop :
    ((loopOver none).encode {}).text = "[[[42,5,null,[[],[1]],null]],[],false,[]]" ∧
      ((loopOver none).encode {}).fill
        = ((loopOver (some (.literal .null .dummy))).encode {}).fill := by
  have hfive : IsSafeInteger ⟨0x4014000000000000⟩ := ⟨5, by decide +kernel, by decide⟩
  refine ⟨by decide +kernel, text_unambiguous _ _ _ _ (fun x hx => ?_) (fun x hx => ?_)
    (by decide +kernel)⟩
  · have hvalues : ((loopOver none).encode {}).values
        = [.literal (.number ⟨0x4014000000000000⟩)] := rfl
    rw [hvalues, List.mem_singleton] at hx
    cases hx
    exact hfive
  · have hvalues : ((loopOver (some (.literal .null .dummy))).encode {}).values
        = [.literal (.number ⟨0x4014000000000000⟩), .literal .null] := rfl
    rw [hvalues, List.mem_cons, List.mem_singleton] at hx
    rcases hx with hx | hx
    · cases hx
      exact hfive
    · cases hx

end TemplateCompiler.Resolved
