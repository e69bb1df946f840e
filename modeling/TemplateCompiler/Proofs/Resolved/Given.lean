/-
What is given in a template and what its resolved form carries.

Positional arguments, the values of named arguments, attribute values and
modifiers are given to calls, blocks and elements.  Each of them has a place in
the resolved template: that of a value or a modifier, or that of the block that
it names.

* `Given`, `ownGiven` — what is given in a statement, at every depth of its
  values;
* `Carried`, `Content.carried` — what a piece of content carries;
* `givenIn`, `Body.carried` — the same for a whole template;
* `Represents`, `Stands` — something given is represented by something carried;
* `Kept` — everything given has a representative of its own.

Things given stand with the names around them and things carried with the slots
around them, so that a representative is resolved in the scopes of its own
place.  More can be carried than is given: `yield` and `has-block` name the
default block if they are given no name.
-/
import Mathlib.Data.Multiset.Bind
import TemplateCompiler.Proofs.Resolved.Around

namespace TemplateCompiler.Resolved

open Template (Pair Hash Call MustacheTag BlockTag StartTag ConcatPart AttrValue Statement)

/-! ### What is given -/

/-- What is given to a call, a block or an element. -/
inductive Given where
  /-- A positional argument, or the value of a named one. -/
  | argument (value : Template.Expr)
  | attrValue (value : AttrValue)
  | modifier (m : Template.Modifier)

mutual

/-- All that is given in an expression. -/
def exprGiven : Template.Expr → Multiset Given
  | .literal _ _ | .path _ => 0
  | .sub call _ => callGiven call

/-- Positional arguments and all that is given in them. -/
def argumentsGiven : List Template.Expr → Multiset Given
  | [] => 0
  | param :: rest => (.argument param ::ₘ exprGiven param) + argumentsGiven rest

/-- The values of named arguments and all that is given in them. -/
def pairsGiven : List (Pair Template.Expr) → Multiset Given
  | [] => 0
  | ⟨_, value, _⟩ :: rest => (.argument value ::ₘ exprGiven value) + pairsGiven rest

/-- All that is given in a call. -/
def callGiven : Call Template.Expr → Multiset Given
  | ⟨callee, params, ⟨pairs, _⟩⟩ => exprGiven callee + argumentsGiven params + pairsGiven pairs

end

/-- All that is given in a part of an attribute value. -/
def partGiven : ConcatPart → Multiset Given
  | .text _ => 0
  | .mustache tag => callGiven tag.call

/-- All that is given in an attribute value. -/
def attrValueGiven : AttrValue → Multiset Given
  | .text _ => 0
  | .mustache tag => callGiven tag.call
  | .concat parts _ => (parts.map partGiven).sum

/-- Whether an attribute is written without a value. -/
def isBare : AttrValue → Bool
  | .text node => node.chars.isEmpty
  | _ => false

/-- The value of an attribute and all that is given in it; `...attributes` has no value. -/
def attributeGiven (attr : Template.Attr) : Multiset Given :=
  if isSplatName attr.name && isBare attr.value then 0
  else .attrValue attr.value ::ₘ attrValueGiven attr.value

/-- A modifier and all that is given in it. -/
def modifierGiven (m : Template.Modifier) : Multiset Given := .modifier m ::ₘ callGiven m.call

/-- All that is given in a statement, less what is given in the statements in it. -/
def ownGiven : Statement → Multiset Given
  | .mustache tag => callGiven tag.call
  | .block tag _ _ => callGiven tag.call
  | .partialCall tag => callGiven tag.call
  | .element tag _ _ =>
    (tag.attributes.map attributeGiven).sum + (tag.modifiers.map modifierGiven).sum
  | .comment _ | .mustacheComment _ | .text _ => 0

/-- All that is given in statements in their places, with the names around it. -/
def givenAt (placed : List (List String × Statement)) : Multiset (List String × Given) :=
  Multiset.bind (placed : Multiset (List String × Statement)) fun s =>
    (ownGiven s.2).map (Prod.mk s.1)

/-- All that is given in a template. -/
def givenIn (o : Settings) (t : Template) : Multiset (List String × Given) :=
  givenAt (placedWithin o [] t.body)

section

variable {o : Settings} {env : Scopes}

theorem callGiven_eq (call : Call Template.Expr) :
    callGiven call
      = exprGiven call.callee + argumentsGiven call.params + pairsGiven call.hash.pairs := by
  obtain ⟨callee, params, pairs, span⟩ := call
  rw [callGiven]

/-- A keyword is a bare name, so nothing is given in it. -/
theorem exprGiven_keyword {κ : Type} {table : String → Option κ} {callee : Template.Expr} {k : κ}
    (h : keyword? o env table callee = some k) : exprGiven callee = 0 := by
  cases callee with
  | path p => rw [exprGiven]
  | sub call span => cases h
  | literal value span => cases h

theorem callGiven_keyword {call : Call Template.Expr} (h : exprGiven call.callee = 0) :
    callGiven call = argumentsGiven call.params + pairsGiven call.hash.pairs := by
  rw [callGiven_eq, h, zero_add]

theorem givenAt_nil : givenAt [] = 0 := Multiset.zero_bind _

theorem givenAt_cons (around : List String) (s : Statement)
    (rest : List (List String × Statement)) :
    givenAt ((around, s) :: rest) = (ownGiven s).map (Prod.mk around) + givenAt rest := by
  rw [givenAt, ← Multiset.cons_coe, Multiset.cons_bind]
  rfl

theorem givenAt_append (a b : List (List String × Statement)) :
    givenAt (a ++ b) = givenAt a + givenAt b := by
  rw [givenAt, ← Multiset.coe_add, Multiset.add_bind]
  rfl

end

/-! ### What is carried -/

/-- What a piece of content carries for what was given to it. -/
inductive Carried where
  | value (e : Expr)
  | modifier (m : Modifier)
  /-- A block that is asked about or yielded to. -/
  | block (slot : Nat)

mutual

/-- All that is carried in a value. -/
def Expr.carried : Expr → Multiset Carried
  | .literal _ _ | .path _ _ _ => 0
  | .hasBlock slot _ | .hasBlockParams slot _ => {.block slot}
  | .call callee args _ =>
    callee.carried + (exprsCarried args.positional + namedCarried args.named)
  | .interpolate parts _ => exprsCarried parts
  | .curry definition _ args _ =>
    (.value definition ::ₘ definition.carried)
      + (exprsCarried args.positional + namedCarried args.named)
  | .not value => .value value ::ₘ value.carried
  | .ifInline condition truthy falsy _ =>
    (.value condition ::ₘ condition.carried) + (.value truthy ::ₘ truthy.carried)
      + optionCarried falsy
  | .getDynamicVar name => .value name ::ₘ name.carried
  | .log args => exprsCarried args.positional + namedCarried args.named

/-- Values and all that is carried in them. -/
def exprsCarried : List Expr → Multiset Carried
  | [] => 0
  | e :: rest => (.value e ::ₘ e.carried) + exprsCarried rest

/-- Values with names and all that is carried in them. -/
def namedCarried : List (Named Expr) → Multiset Carried
  | [] => 0
  | named :: rest => (.value named.value ::ₘ named.value.carried) + namedCarried rest

/-- A value that may be missing and all that is carried in it. -/
def optionCarried : Option Expr → Multiset Carried
  | none => 0
  | some e => .value e ::ₘ e.carried

end

/-- All that is carried in arguments. -/
def Args.carried (args : Args Expr) : Multiset Carried :=
  exprsCarried args.positional + namedCarried args.named

/-- The value of an attribute and all that is carried in it. -/
def Attr.carried : Attr → Multiset Carried
  | .attr _ value _ _ => .value value ::ₘ value.carried
  | .splat _ _ => 0

/-- A modifier and all that is carried in it. -/
def Modifier.carried (m : Modifier) : Multiset Carried :=
  .modifier m ::ₘ (m.callee.carried + m.args.carried)

/-- All that is carried in the attributes and modifiers of an element. -/
def ElementParams.carried (p : ElementParams) : Multiset Carried :=
  (p.attrs.map Attr.carried).sum + (p.modifiers.map Modifier.carried).sum

/-- All that a piece of content carries itself. -/
def Content.carried : Content → Multiset Carried
  | .text _ _ | .comment _ _ | .hiddenComment _ _ | .debugger _ _ => 0
  | .append value _ _ => value.carried
  | .partialCall target _ _ => .value target ::ₘ target.carried
  | .yield slot positional _ => .block slot ::ₘ exprsCarried positional
  | .invokeBlock callee args _ _ => callee.carried + args.carried
  | .invokeDynamic callee args _ _ => (.value callee ::ₘ callee.carried) + args.carried
  | .invokeComponent callee params args _ _ => callee.carried + params.carried + namedCarried args
  | .element _ params _ _ => params.carried
  | .branch value _ _ _ | .withValue value _ _ _ => .value value ::ₘ value.carried
  | .each value key _ _ _ => (.value value ::ₘ value.carried) + optionCarried key
  | .letValues positional _ _ => exprsCarried positional
  | .inElement _ destination insertBefore _ _ =>
    (.value destination ::ₘ destination.carried) + optionCarried insertBefore
  | .withDynamicVars named _ _ => namedCarried named

mutual

/-- All that is inside of a piece of content, with the slots around it. -/
def slottedInside (around : List Nat) : Content → List (List Nat × Content)
  | .text _ _ | .comment _ _ | .hiddenComment _ _ | .append _ _ _ => []
  | .yield _ _ _ | .debugger _ _ | .partialCall _ _ _ => []
  | .invokeBlock _ _ blocks _ | .invokeDynamic _ _ blocks _ => namedBlocksSlotted around blocks
  | .invokeComponent _ _ _ blocks _ => namedBlocksSlotted around blocks
  | .element _ _ body _ => slottedWithin around body
  | .branch _ block inverse _ | .each _ _ block inverse _ | .withValue _ block inverse _ =>
    blockSlotted around block ++ otherSlotted around inverse
  | .letValues _ block _ | .inElement _ _ _ block _ | .withDynamicVars _ block _ =>
    blockSlotted around block

/-- Content and all that is inside of it, with the slots around it. -/
def slottedWithin (around : List Nat) : List Content → List (List Nat × Content)
  | [] => []
  | c :: rest => (around, c) :: (slottedInside around c ++ slottedWithin around rest)

/-- All that is inside of a block, whose slots are around it. -/
def blockSlotted (around : List Nat) : Block Content → List (List Nat × Content)
  | ⟨params, body, _⟩ => slottedWithin (params ++ around) body

/-- All that is inside of blocks with names. -/
def namedBlocksSlotted (around : List Nat) : List (NamedBlock Content) → List (List Nat × Content)
  | [] => []
  | named :: rest => blockSlotted around named.block ++ namedBlocksSlotted around rest

/-- All that is inside of a block that may be missing. -/
def otherSlotted (around : List Nat) : Option (Block Content) → List (List Nat × Content)
  | none => []
  | some block => blockSlotted around block

end

/-- All that content in its places carries, with the slots around it. -/
def carriedAt (slotted : List (List Nat × Content)) : Multiset (List Nat × Carried) :=
  Multiset.bind (slotted : Multiset (List Nat × Content)) fun c =>
    c.2.carried.map (Prod.mk c.1)

/-- All that a resolved template carries. -/
def Body.carried (b : Body) : Multiset (List Nat × Carried) := carriedAt (slottedWithin [] b.body)

theorem carriedAt_cons (around : List Nat) (c : Content) (rest : List (List Nat × Content)) :
    carriedAt ((around, c) :: rest) = c.carried.map (Prod.mk around) + carriedAt rest := by
  rw [carriedAt, ← Multiset.cons_coe, Multiset.cons_bind]
  rfl

theorem carriedAt_append (a b : List (List Nat × Content)) :
    carriedAt (a ++ b) = carriedAt a + carriedAt b := by
  rw [carriedAt, ← Multiset.coe_add, Multiset.add_bind]
  rfl

/-! ### Representatives -/

/-- Something given is represented by something carried. -/
inductive Represents (o : Settings) (F : Symbols) (env : Scopes) : Given → Carried → Prop
  | argument {value : Template.Expr} {e : Expr}
    (hvalue : ResolvesExpr o F env .argument value e) :
    Represents o F env (.argument value) (.value e)
  /-- The name of a block stands for the block. -/
  | block {name : String} {span : Span} {slot : Nat}
    (hslot : F.Holds slot ("&" ++ Symbols.blockName name)) :
    Represents o F env (.argument (.literal (.string name) span)) (.block slot)
  | attrValue {value : AttrValue} {e : Expr} (hvalue : ResolvesAttrValue o F env value e) :
    Represents o F env (.attrValue value) (.value e)
  | modifier {m : Template.Modifier} {m' : Modifier} (hmodifier : ResolvesModifier o F env m m') :
    Represents o F env (.modifier m) (.modifier m')

/-- The slots of scopes, those of the innermost block first. -/
def Scopes.declaredSlots (env : Scopes) : List Nat := env.flatten.map Prod.snd

theorem Scopes.declaredSlots_cons {params : List String} {slots : List Nat} (env : Scopes)
    (h : slots.length = params.length) :
    Scopes.declaredSlots (params.zip slots :: env) = slots ++ env.declaredSlots := by
  rw [Scopes.declaredSlots, List.flatten_cons, List.map_append, List.map_snd_zip (Nat.le_of_eq h)]
  rfl

/-- Something given is represented by something carried in the same scopes. -/
def Stands (o : Settings) (F : Symbols) (given : List String × Given)
    (carried : List Nat × Carried) : Prop :=
  ∃ env : Scopes, env.declared = given.1 ∧ env.declaredSlots = carried.1 ∧
    Represents o F env given.2 carried.2

/-- Everything given has a representative of its own among what is carried. -/
def Kept {α β : Type} (R : α → β → Prop) (given : Multiset α) (carried : Multiset β) : Prop :=
  ∃ kept ≤ carried, Multiset.Rel R given kept

section

variable {α β : Type} {R : α → β → Prop} {a b : Multiset α} {c d : Multiset β}

theorem Kept.zero (c : Multiset β) : Kept R 0 c := ⟨0, Multiset.zero_le c, .zero⟩

theorem Kept.mono (h : Kept R a c) (hle : c ≤ d) : Kept R a d := by
  obtain ⟨kept, hkept, hrel⟩ := h
  exact ⟨kept, hkept.trans hle, hrel⟩

theorem Kept.add (h₁ : Kept R a c) (h₂ : Kept R b d) : Kept R (a + b) (c + d) := by
  obtain ⟨kept₁, hle₁, hrel₁⟩ := h₁
  obtain ⟨kept₂, hle₂, hrel₂⟩ := h₂
  exact ⟨kept₁ + kept₂, add_le_add hle₁ hle₂, hrel₁.add hrel₂⟩

theorem Kept.cons {x : α} {y : β} (hxy : R x y) (h : Kept R a c) : Kept R (x ::ₘ a) (y ::ₘ c) := by
  obtain ⟨kept, hle, hrel⟩ := h
  exact ⟨y ::ₘ kept, Multiset.cons_le_cons y hle, .cons hxy hrel⟩

/-- What is kept is not more than what is carried. -/
theorem Kept.card_le (h : Kept R a c) : a.card ≤ c.card := by
  obtain ⟨kept, hle, hrel⟩ := h
  calc a.card = kept.card := Multiset.card_eq_card_of_rel hrel
    _ ≤ c.card := Multiset.card_le_card hle

theorem Kept.map {γ δ : Type} {S : γ → δ → Prop} {f : α → γ} {g : β → δ} (h : Kept R a c)
    (hS : ∀ x y, R x y → S (f x) (g y)) : Kept S (a.map f) (c.map g) := by
  obtain ⟨kept, hle, hrel⟩ := h
  refine ⟨kept.map g, Multiset.map_le_map hle, ?_⟩
  exact Multiset.rel_map.mpr (hrel.mono fun x _ y _ hxy => hS x y hxy)

/-- What is kept of each member is kept of all of them. -/
theorem Kept.sum {γ δ : Type} {S : γ → δ → Prop} {given : γ → Multiset α}
    {carried : δ → Multiset β} {xs : List γ} {ys : List δ} (h : List.Forall₂ S xs ys)
    (hkept : ∀ x ∈ xs, ∀ y, S x y → Kept R (given x) (carried y)) :
    Kept R (xs.map given).sum (ys.map carried).sum := by
  induction h with
  | nil => exact .zero _
  | cons hfirst _ ih =>
    obtain ⟨hx, hrest⟩ := List.forall_mem_cons.mp hkept
    rw [List.map_cons, List.map_cons, List.sum_cons, List.sum_cons]
    exact (hx _ hfirst).add (ih hrest)

end

section

variable {o : Settings} {F : Symbols} {env : Scopes}

/-- What is kept in one place is kept with what is around the place. -/
theorem Kept.at_scopes {given : Multiset Given} {carried : Multiset Carried}
    (h : Kept (Represents o F env) given carried) :
    Kept (Stands o F) (given.map (Prod.mk env.declared))
      (carried.map (Prod.mk env.declaredSlots)) :=
  h.map fun _ _ hrepresents => ⟨env, rfl, rfl, hrepresents⟩

end

end TemplateCompiler.Resolved
