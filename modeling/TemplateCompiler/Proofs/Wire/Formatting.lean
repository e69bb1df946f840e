/-
Formatting does not reach the program.

Where things stand in a template, how tags strip the blanks around them, how a
path is written and what comments in braces say are kept in its tree.  None of it
is seen by the program that the template is compiled to.

* `Template.bare` — a template without all of this;
* `Agree` — two steps of the walk that fail together, or come to the same progress
  with results that cannot be told apart;
* `Template.encode_ignores_formatting` — templates that are the same without their
  formatting resolve together, and to the same program.

Design notes: a template is compared with its bare form, step by step.  What the
two come to has different spans, so the results are compared as they are encoded;
an attribute is encoded by what its value is, and is compared by its parts.
-/
import TemplateCompiler.Proofs.Wire.Modes

namespace TemplateCompiler.Template

/-! ### Templates without formatting -/

/-- A path without its span and spelling. -/
def Path.bare (p : Path) : Path := { p with written := "", span := .dummy }

mutual

/-- An expression without formatting. -/
def Expr.bare : Expr → Expr
  | .path p => .path p.bare
  | .sub ⟨callee, params, ⟨pairs, _⟩⟩ _ =>
    .sub ⟨callee.bare, bareExprs params, ⟨barePairs pairs, .dummy⟩⟩ .dummy
  | .literal value _ => .literal value .dummy

/-- Expressions without formatting. -/
def bareExprs : List Expr → List Expr
  | [] => []
  | e :: rest => e.bare :: bareExprs rest

/-- Named arguments without formatting. -/
def barePairs : List (Pair Expr) → List (Pair Expr)
  | [] => []
  | pair :: rest => ⟨pair.key, pair.value.bare, .dummy⟩ :: barePairs rest

end

/-- A call without formatting. -/
def Call.bare (call : Call Expr) : Call Expr :=
  ⟨call.callee.bare, bareExprs call.params, ⟨barePairs call.hash.pairs, .dummy⟩⟩

theorem Expr.bare_sub (call : Call Expr) (span : Span) :
    (Expr.sub call span).bare = .sub call.bare .dummy := by
  rw [Expr.bare, Call.bare]

/-- A tag without formatting. -/
def MustacheTag.bare (tag : MustacheTag) : MustacheTag :=
  { tag with call := tag.call.bare, strip := {}, span := .dummy }

/-- A partial without formatting. -/
def PartialTag.bare (tag : PartialTag) : PartialTag := ⟨tag.call.bare, {}, .dummy⟩

/-- The tags of a block without formatting. -/
def BlockTag.bare (tag : BlockTag) : BlockTag := ⟨tag.call.bare, {}, {}, {}, .dummy⟩

/-- A text without its span. -/
def TextNode.bare (node : TextNode) : TextNode := { node with span := .dummy }

/-- A comment without its span. -/
def Comment.bare (c : Comment) : Comment := { c with span := .dummy }

/-- A part of an attribute value without formatting. -/
def ConcatPart.bare : ConcatPart → ConcatPart
  | .text node => .text node.bare
  | .mustache tag => .mustache tag.bare

/-- An attribute value without formatting. -/
def AttrValue.bare : AttrValue → AttrValue
  | .text node => .text node.bare
  | .mustache tag => .mustache tag.bare
  | .concat parts _ => .concat (parts.map ConcatPart.bare) .dummy

/-- An attribute without formatting. -/
def Attr.bare (attr : Attr) : Attr := ⟨attr.name, attr.value.bare, .dummy⟩

/-- A modifier without formatting. -/
def Modifier.bare (m : Modifier) : Modifier := ⟨m.call.bare, .dummy⟩

/-- A start tag without formatting and without the comments in it. -/
def StartTag.bare (tag : StartTag) : StartTag :=
  { tag with
    attributes := tag.attributes.map Attr.bare
    modifiers := tag.modifiers.map Modifier.bare
    comments := [] }

theorem StartTag.bare_name (tag : StartTag) : tag.bare.name = tag.name := rfl

theorem StartTag.bare_blockParams (tag : StartTag) : tag.bare.blockParams = tag.blockParams := rfl

theorem StartTag.bare_selfClosing (tag : StartTag) : tag.bare.selfClosing = tag.selfClosing := rfl

/-- Whether a statement is a comment in braces. -/
def Statement.isMustacheComment : Statement → Bool
  | .mustacheComment _ => true
  | _ => false

theorem Statement.eq_of_isMustacheComment {s : Statement} (h : s.isMustacheComment = true) :
    ∃ c, s = .mustacheComment c := by
  cases s with
  | mustacheComment c => exact ⟨c, rfl⟩
  | _ => cases h

mutual

/-- A statement without formatting. -/
def Statement.bare : Statement → Statement
  | .mustache tag => .mustache tag.bare
  | .block tag program inverse => .block tag.bare (bareBlock program) (bareOther inverse)
  | .partialCall tag => .partialCall tag.bare
  | .comment c => .comment c.bare
  | .mustacheComment c => .mustacheComment c.bare
  | .text node => .text node.bare
  | .element tag children _ => .element tag.bare (bareStatements children) .dummy

/-- Statements without formatting; comments in braces are left out. -/
def bareStatements : List Statement → List Statement
  | [] => []
  | s :: rest =>
    if s.isMustacheComment then bareStatements rest else s.bare :: bareStatements rest

/-- A block without formatting. -/
def bareBlock : Block Statement → Block Statement
  | ⟨body, params, _, _⟩ => ⟨bareStatements body, params, false, .dummy⟩

/-- A block that may be missing, without formatting. -/
def bareOther : Option (Block Statement) → Option (Block Statement)
  | none => none
  | some block => some (bareBlock block)

end

end TemplateCompiler.Template

namespace TemplateCompiler

/-- A template without spans, strip flags, marks of chains, spellings of paths and
comments in braces. -/
def Template.bare (t : Template) : Template := ⟨Template.bareStatements t.body, .dummy⟩

end TemplateCompiler

namespace TemplateCompiler.Resolved

open Template (Pair Hash Call MustacheTag BlockTag TextNode ConcatPart AttrValue StartTag Statement
  bareExprs barePairs bareStatements bareBlock bareOther)

/-! ### Steps that agree -/

section

variable {α β γ δ : Type}

/-- What is seen of the end of a step: the progress, and the result through `f`. -/
def seen (f : α → γ) : EStateM.Result Fault Progress α → Option (γ × Progress)
  | .ok a p => some (f a, p)
  | .error _ _ => none

/-- From any progress two steps fail together, or they come to the same progress
with results that are the same under `f`. -/
def Agree (f : α → γ) (x y : Walk α) : Prop := ∀ p, seen f (x.run p) = seen f (y.run p)

theorem Agree.rfl {f : α → γ} {x : Walk α} : Agree f x x := fun _ => Eq.refl _

theorem Agree.pure {f : α → γ} {a b : α} (h : f a = f b) :
    Agree f (Pure.pure a : Walk α) (Pure.pure b) := by
  intro p
  show some (f a, p) = some (f b, p)
  rw [h]

theorem Agree.throw {f : α → γ} (fault fault' : Fault) :
    Agree f (MonadExcept.throw fault : Walk α) (MonadExcept.throw fault') := fun _ => Eq.refl _

theorem Agree.bind {f : α → γ} {g : β → δ} {x y : Walk α} {k l : α → Walk β} (h : Agree f x y)
    (hk : ∀ a b, f a = f b → Agree g (k a) (l b)) : Agree g (x >>= k) (y >>= l) := by
  intro p
  have hp := h p
  simp only [EStateM.run, Bind.bind, EStateM.bind] at hp ⊢
  cases hx : x p with
  | ok a q =>
    cases hy : y p with
    | ok b r =>
      rw [hx, hy] at hp
      obtain ⟨hab, rfl⟩ : f a = f b ∧ q = r := by simpa [seen] using hp
      exact hk a b hab q
    | error fault r => simp [hx, hy, seen] at hp
  | error fault q =>
    cases hy : y p with
    | ok b r => simp [hx, hy, seen] at hp
    | error fault' r => rfl

/-- The same step, and then steps that agree. -/
theorem Agree.after {g : β → δ} (x : Walk α) {k l : α → Walk β} (hk : ∀ a, Agree g (k a) (l a)) :
    Agree g (x >>= k) (x >>= l) := by
  refine .bind (f := id) .rfl fun a b hab => ?_
  obtain rfl : a = b := hab
  exact hk a

/-- Whatever comes after a fault is not reached. -/
theorem Agree.throw_bind {g : β → δ} {fault fault' : Fault} {k l : α → Walk β} :
    Agree g (MonadExcept.throw fault >>= k) (MonadExcept.throw fault' >>= l) := fun _ => Eq.refl _

theorem Agree.ite {f : α → γ} {c : Prop} [Decidable c] {x y x' y' : Walk α} (h : Agree f x y)
    (h' : Agree f x' y') : Agree f (if c then x else x') (if c then y else y') := by
  split
  · exact h
  · exact h'

/-- A step made for each member of a list. -/
theorem Agree.mapM {ε : Type} {f : β → γ} {k l : ε → Walk β} (g : ε → ε)
    (h : ∀ a, Agree f (k (g a)) (l a)) (as : List ε) :
    Agree (List.map f) ((as.map g).mapM k) (as.mapM l) := by
  induction as with
  | nil => exact .pure (Eq.refl _)
  | cons a as ih =>
    rw [List.map_cons, List.mapM_cons, List.mapM_cons]
    refine (h a).bind fun b b' hb => ih.bind fun bs bs' hbs => .pure ?_
    rw [List.map_cons, List.map_cons, hb, hbs]

end

section

variable {o : Settings}

/-! ### Values -/

theorem resolveName_agree {site : Site} {simple : Bool} {written written' name : String}
    {span span' : Span} :
    Agree Variable.reference (resolveName o site simple written name span)
      (resolveName o site simple written' name span') := by
  refine .after _ fun symbols => ?_
  cases symbols.lookup? name with
  | some slot => exact .pure rfl
  | none =>
    refine .ite (.ite (.after _ fun upvar => .pure rfl) (.throw _ _)) ?_
    cases site.resolution? simple with
    | some resolution => exact .after _ fun upvar => .pure rfl
    | none => exact .throw _ _

/-- A variable is encoded by what it refers to. -/
theorem encode_path_congr {v w : Variable} (h : v.reference = w.reference) (tail : List String)
    (span span' : Span) : (Expr.path v tail span).encode = (Expr.path w tail span').encode := by
  rw [Expr.encode, Expr.encode, h]

theorem path_agree (site : Site) (p : Template.Path) :
    Agree Expr.encode (path o site p.bare) (path o site p) := by
  unfold path Template.Path.bare
  cases p.head with
  | this => exact .bind (.pure rfl) fun v w h => .pure (encode_path_congr h _ _ _)
  | «at» name =>
    refine .after _ fun slot => .bind (f := Variable.reference) (.pure rfl) fun v w h => ?_
    exact .pure (encode_path_congr h _ _ _)
  | var name => exact .bind resolveName_agree fun v w h => .pure (encode_path_congr h _ _ _)

theorem keywordName?_bare (callee : Template.Expr) :
    keywordName? o callee.bare = keywordName? o callee := by
  cases callee with
  | path p => rw [Template.Expr.bare]; rfl
  | sub call span => rw [Template.Expr.bare]; rfl
  | literal value span => rw [Template.Expr.bare]; rfl

theorem callKeyword?_bare (callee : Template.Expr) :
    callKeyword? o callee.bare = callKeyword? o callee := by
  rw [callKeyword?, callKeyword?, keywordName?_bare]

theorem isLiteral_bare (e : Template.Expr) : e.bare.isLiteral = e.isLiteral := by
  cases e <;> rw [Template.Expr.bare] <;> rfl

theorem bareExprs_eq (es : List Template.Expr) : bareExprs es = es.map Template.Expr.bare := by
  induction es with
  | nil => rw [bareExprs, List.map_nil]
  | cons e rest ih => rw [bareExprs, ih, List.map_cons]

theorem barePairs_eq (pairs : List (Pair Template.Expr)) : barePairs pairs =
    pairs.map fun pair => ⟨pair.key, pair.value.bare, .dummy⟩ := by
  induction pairs with
  | nil => rw [barePairs, List.map_nil]
  | cons pair rest ih => rw [barePairs, ih, List.map_cons]

theorem checkNamed_agree (label : String) (allowed : List String)
    (pairs : List (Pair Template.Expr)) (span span' : Span) :
    Agree id (checkNamed label allowed ⟨barePairs pairs, span⟩)
      (checkNamed label allowed ⟨pairs, span'⟩) := by
  unfold checkNamed
  simp only [barePairs_eq, List.find?_map, Function.comp_def]
  cases pairs.find? fun pair => !allowed.contains pair.key with
  | none => exact .rfl
  | some pair => exact .throw _ _

theorem askedBlock_agree (label : String) (params : List Template.Expr) :
    Agree id (askedBlock label (bareExprs params)) (askedBlock label params) := by
  match params with
  | [] => rw [bareExprs]; exact .rfl
  | .path _ :: _ | .sub _ _ :: _ =>
    rw [bareExprs, Template.Expr.bare]
    exact .throw _ _
  | .literal value _ :: _ =>
    rw [bareExprs, Template.Expr.bare]
    cases value with
    | string name => exact .rfl
    | number | boolean | null | undefined => exact .throw _ _

theorem conditionOf_encode (negated : Bool) {e e' : Expr} (h : e.encode = e'.encode) :
    (conditionOf negated e).encode = (conditionOf negated e').encode := by
  cases negated with
  | false => exact h
  | true => rw [conditionOf, conditionOf, if_pos rfl, if_pos rfl, Expr.encode, Expr.encode, h]

/-- A definition and what it is given, encoded. -/
def encodeDefinition (value : Expr × List Expr) : Wire.Expr × List Wire.Expr :=
  (value.1.encode, encodeExprs value.2)

mutual

/-- An expression is resolved as without its formatting. -/
theorem expr_agree (site : Site) (e : Template.Expr) :
    Agree Expr.encode (expr o site e.bare) (expr o site e) := by
  match e with
  | .literal value span =>
    rw [Template.Expr.bare, expr, expr]
    exact .pure (by rw [Expr.encode, Expr.encode])
  | .path p =>
    rw [Template.Expr.bare, expr, expr]
    exact path_agree site p
  | .sub call span =>
    rw [Template.Expr.bare_sub, expr, expr, Call.bare, callKeyword?_bare]
    refine .after _ fun keyword => ?_
    cases keyword with
    | some keyword => exact keywordCall_agree keyword _ _ _ call
    | none => exact callOf_agree .sub _ _ call

theorem arguments_agree (params : List Template.Expr) :
    Agree encodeExprs (arguments o (bareExprs params)) (arguments o params) := by
  match params with
  | [] =>
    rw [bareExprs]
    exact .rfl
  | param :: rest =>
    rw [bareExprs, arguments, arguments]
    refine (expr_agree .argument param).bind fun e e' he =>
      (arguments_agree rest).bind fun es es' hes => .pure ?_
    rw [encodeExprs, encodeExprs, he, hes]

theorem namedArguments_agree (pairs : List (Pair Template.Expr)) :
    Agree encodeNamed (namedArguments o (barePairs pairs)) (namedArguments o pairs) := by
  match pairs with
  | [] =>
    rw [barePairs]
    exact .rfl
  | ⟨key, value, span⟩ :: rest =>
    rw [barePairs, namedArguments, namedArguments]
    refine (expr_agree .argument value).bind fun e e' he =>
      (namedArguments_agree rest).bind fun named named' hnamed => .pure ?_
    rw [encodeNamed, encodeNamed, he, hnamed]

theorem callOf_agree (site : Site) (span span' : Span) (call : Call Template.Expr) :
    Agree Expr.encode (callOf o site span call.bare) (callOf o site span' call) := by
  match call with
  | ⟨callee, params, ⟨pairs, hashSpan⟩⟩ =>
    rw [Call.bare, callOf, callOf]
    refine (expr_agree site callee).bind fun e e' he => (arguments_agree params).bind
      fun es es' hes => (namedArguments_agree pairs).bind fun named named' hnamed => .pure ?_
    rw [Expr.encode, Expr.encode, he, hes, hnamed]

theorem definitionOf_agree (label : String) (span span' : Span) (params : List Template.Expr) :
    Agree encodeDefinition (definitionOf o label span (bareExprs params))
      (definitionOf o label span' params) := by
  match params with
  | [] =>
    rw [bareExprs, definitionOf, definitionOf]
    exact .throw _ _
  | definition :: rest =>
    rw [bareExprs, definitionOf, definitionOf, isLiteral_bare]
    refine .ite .throw_bind ?_
    refine (expr_agree .argument definition).bind fun e e' he =>
      (arguments_agree rest).bind fun es es' hes => .pure ?_
    rw [encodeDefinition, encodeDefinition, he, hes]

theorem inlineBranch_agree (negated : Bool) (label : String) (span span' : Span)
    (pairs : List (Pair Template.Expr)) (hashSpan hashSpan' : Span)
    (params : List Template.Expr) :
    Agree Expr.encode
      (inlineBranch o negated label span ⟨barePairs pairs, hashSpan⟩ (bareExprs params))
      (inlineBranch o negated label span' ⟨pairs, hashSpan'⟩ params) := by
  match params with
  | [condition, truthy] =>
    simp only [bareExprs, inlineBranch]
    refine (checkNamed_agree label [] pairs _ _).bind fun _ _ _ =>
      (expr_agree .argument condition).bind fun c c' hc =>
      (expr_agree .argument truthy).bind fun e e' he => .pure ?_
    rw [Expr.encode, Expr.encode, conditionOf_encode negated hc, he, encodeOption]
  | [condition, truthy, falsy] =>
    simp only [bareExprs, inlineBranch]
    refine (checkNamed_agree label [] pairs _ _).bind fun _ _ _ =>
      (expr_agree .argument condition).bind fun c c' hc =>
      (expr_agree .argument truthy).bind fun e e' he =>
      (expr_agree .argument falsy).bind fun d d' hd => .pure ?_
    rw [Expr.encode, Expr.encode, conditionOf_encode negated hc, he, encodeOption, encodeOption, hd]
  | [] | [_] | _ :: _ :: _ :: _ :: _ =>
    simp only [bareExprs, inlineBranch]
    exact .throw _ _

theorem dynamicVar_agree (label : String) (span span' : Span) (pairs : List (Pair Template.Expr))
    (hashSpan hashSpan' : Span) (params : List Template.Expr) :
    Agree Expr.encode (dynamicVar o label span ⟨barePairs pairs, hashSpan⟩ (bareExprs params))
      (dynamicVar o label span' ⟨pairs, hashSpan'⟩ params) := by
  match params with
  | [name] =>
    simp only [bareExprs, dynamicVar]
    refine (checkNamed_agree label [] pairs _ _).bind fun _ _ _ =>
      (expr_agree .argument name).bind fun e e' he => .pure ?_
    rw [Expr.encode, Expr.encode, he]
  | [] | _ :: _ :: _ =>
    simp only [bareExprs, dynamicVar]
    exact .throw _ _

theorem keywordCall_agree (keyword : CallKeyword) (label : String) (span span' : Span)
    (call : Call Template.Expr) :
    Agree Expr.encode (keywordCall o keyword label span call.bare)
      (keywordCall o keyword label span' call) := by
  match call with
  | ⟨callee, params, ⟨pairs, hashSpan⟩⟩ =>
    -- Without formatting there are as many arguments, so a wrong count is refused in both.
    have hlength : (bareExprs params).length = params.length := by
      rw [bareExprs_eq, List.length_map]
    unfold keywordCall Call.bare
    cases keyword with
    | branch negated => exact inlineBranch_agree negated label _ _ pairs _ _ params
    | hasBlock =>
      simp only [hlength]
      refine .ite .throw_bind ((checkNamed_agree label [] pairs _ _).bind fun _ _ _ =>
        (askedBlock_agree label params).bind fun slot slot' hslot => .pure ?_)
      rw [Expr.encode, Expr.encode, show slot = slot' from hslot]
    | hasBlockParams =>
      simp only [hlength]
      refine .ite .throw_bind ((checkNamed_agree label [] pairs _ _).bind fun _ _ _ =>
        (askedBlock_agree label params).bind fun slot slot' hslot => .pure ?_)
      rw [Expr.encode, Expr.encode, show slot = slot' from hslot]
    | curry kind =>
      refine (definitionOf_agree label _ _ params).bind fun value value' hvalue =>
        (namedArguments_agree pairs).bind fun named named' hnamed => .pure ?_
      obtain ⟨he, hes⟩ := Prod.mk.inj hvalue
      rw [Expr.encode, Expr.encode, he, hes, hnamed]
    | log =>
      refine (checkNamed_agree label [] pairs _ _).bind fun _ _ _ =>
        (arguments_agree params).bind fun es es' hes => .pure ?_
      rw [Expr.encode, Expr.encode, hes]
    | getDynamicVar => exact dynamicVar_agree label _ _ pairs _ _ params

end

/-- The call of a component that is given as a value, encoded. -/
def encodeDynamic (value : Expr × Args Expr) :
    Wire.Expr × List Wire.Expr × List (Wire.Entry Wire.Expr) :=
  (value.1.encode, encodeExprs value.2.positional, encodeNamed value.2.named)

theorem dynamicCall_agree (label : String) (span span' : Span) (call : Call Template.Expr) :
    Agree encodeDynamic (dynamicCall o label span call.bare) (dynamicCall o label span' call) := by
  unfold dynamicCall Call.bare
  refine (definitionOf_agree label _ _ call.params).bind fun value value' hvalue =>
    (namedArguments_agree call.hash.pairs).bind fun named named' hnamed => .pure ?_
  obtain ⟨he, hes⟩ := Prod.mk.inj hvalue
  rw [encodeDynamic, encodeDynamic, he, hes, hnamed]

theorem hash_get?_bare (key : String) (pairs : List (Pair Template.Expr)) (span span' : Span) :
    (Hash.mk (barePairs pairs) span).get? key =
      ((Hash.mk pairs span').get? key).map fun pair => ⟨pair.key, pair.value.bare, .dummy⟩ := by
  rw [Hash.get?, Hash.get?, barePairs_eq, List.find?_map]
  rfl

theorem optionalNamed_agree (key : String) (call : Call Template.Expr) :
    Agree encodeOption (optionalNamed o key call.bare.hash) (optionalNamed o key call.hash) := by
  unfold optionalNamed Call.bare
  rw [hash_get?_bare key _ _ call.hash.span]
  cases call.hash.get? key with
  | none => exact .rfl
  | some pair =>
    refine (expr_agree .argument pair.value).bind fun e e' he => .pure ?_
    rw [encodeOption, encodeOption, he]

/-! ### Attributes and modifiers -/

theorem params_isEmpty_bare (call : Call Template.Expr) :
    call.bare.params.isEmpty = call.params.isEmpty := by
  rw [Call.bare, bareExprs_eq, List.isEmpty_map]

theorem pairs_isEmpty_bare (call : Call Template.Expr) :
    call.bare.hash.pairs.isEmpty = call.hash.pairs.isEmpty := by
  rw [Call.bare, barePairs_eq, List.isEmpty_map]

theorem attrMustache_agree (tag : MustacheTag) :
    Agree Expr.encode (attrMustache o tag.bare) (attrMustache o tag) := by
  have hcallee : tag.bare.call.callee = tag.call.callee.bare := rfl
  have hcall : tag.bare.call = tag.call.bare := rfl
  unfold attrMustache
  rw [hcallee, callKeyword?_bare, hcall, params_isEmpty_bare, pairs_isEmpty_bare]
  refine .after _ fun keyword => ?_
  cases keyword with
  | some keyword => exact keywordCall_agree keyword _ _ _ tag.call
  | none => exact .ite (expr_agree _ tag.call.callee) (callOf_agree _ _ _ tag.call)

theorem textLiteral_encode (node : TextNode) :
    (textLiteral node.bare).encode = (textLiteral node).encode := by
  rw [textLiteral, textLiteral, Expr.encode, Expr.encode]
  rfl

theorem concatPart_agree (part : ConcatPart) :
    Agree Expr.encode (concatPart o part.bare) (concatPart o part) := by
  cases part with
  | text node => exact .pure (textLiteral_encode node)
  | mustache tag => exact attrMustache_agree tag

theorem attrValue_agree (value : AttrValue) :
    Agree Expr.encode (attrValue o value.bare) (attrValue o value) := by
  cases value with
  | text node => exact .pure (textLiteral_encode node)
  | mustache tag => exact attrMustache_agree tag
  | concat parts span =>
    refine (Agree.mapM _ concatPart_agree parts).bind fun es es' hes => .pure ?_
    rw [Expr.encode, Expr.encode, encodeExprs_eq, encodeExprs_eq, hes]

theorem modifierOf_agree (m : Template.Modifier) :
    Agree Modifier.encode (modifierOf o m.bare) (modifierOf o m) := by
  refine (expr_agree .modifier m.call.callee).bind fun e e' he =>
    (arguments_agree m.call.params).bind fun es es' hes =>
    (namedArguments_agree m.call.hash.pairs).bind fun named named' hnamed => .pure ?_
  rw [Modifier.encode, Modifier.encode, he, hes, hnamed]

/-- The parts of an attribute that are encoded. -/
inductive AttrParts where
  | attr (name : String) (value : Wire.Expr) (trusting : Bool)
  | splat (slot : Nat)

namespace AttrParts

/-- Encodes an attribute by its parts. -/
def encode (onComponent : Bool) : AttrParts → Option Wire.Statement
  | .splat slot => some (.attrSplat slot)
  | .attr name value trusting =>
    match value with
    | .literal (.boolean false) => none
    | .literal (.boolean true) =>
      some (.staticAttr name "" (attributeNamespace? name) onComponent)
    | .literal (.string text) =>
      some (.staticAttr name text (attributeNamespace? name) onComponent)
    | value => some (.dynamicAttr name value (attributeNamespace? name) trusting onComponent)

/-- Whether an attribute is the `type` of an element. -/
def isType : AttrParts → Bool
  | .attr name _ _ => name == "type"
  | .splat _ => false

/-- Whether an attribute stands for those of the caller. -/
def isSplat : AttrParts → Bool
  | .attr _ _ _ => false
  | .splat _ => true

end AttrParts

/-- The parts of an attribute that are encoded. -/
def Attr.parts : Attr → AttrParts
  | .attr name value trusting _ => .attr name value.encode trusting
  | .splat slot _ => .splat slot

theorem Attr.encode_eq_parts (onComponent : Bool) :
    Attr.encode onComponent = AttrParts.encode onComponent ∘ Attr.parts := by
  funext a
  cases a with
  | splat slot span => rfl
  | attr name value trusting span =>
    cases value with
    | literal value span =>
      simp only [Function.comp_apply, Attr.parts, Expr.encode]
      cases value with
      | boolean b => cases b <;> rfl
      | string | number | null | undefined => simp only [Attr.encode, AttrParts.encode, Expr.encode]
    | path head tail span =>
      simp only [Function.comp_apply, Attr.parts, Attr.encode, Expr.encode]
      cases head.reference <;> rfl
    | call | interpolate | hasBlock | hasBlockParams | curry | not | ifInline | getDynamicVar
    | log => simp only [Function.comp_apply, Attr.parts, Attr.encode, Expr.encode, AttrParts.encode]

theorem Attr.isType_eq_parts : Attr.isType = AttrParts.isType ∘ Attr.parts := by
  funext a
  cases a <;> rfl

theorem Attr.isSplat_eq_parts : Attr.isSplat = AttrParts.isSplat ∘ Attr.parts := by
  funext a
  cases a <;> rfl

/-- Attributes with the same parts are encoded alike. -/
theorem ElementParams.encode_congr {p q : ElementParams}
    (hattrs : p.attrs.map Attr.parts = q.attrs.map Attr.parts)
    (hmodifiers : p.modifiers.map Modifier.encode = q.modifiers.map Modifier.encode)
    (onComponent : Bool) :
    p.encode onComponent = q.encode onComponent ∧ p.hasSplat = q.hasSplat := by
  -- All that is encoded is read from the parts: which is a splat, which is a type, and what it is.
  have hsplat : ∀ r : ElementParams,
      r.hasSplat = (r.attrs.map Attr.parts).any AttrParts.isSplat := by
    intro r
    rw [ElementParams.hasSplat, List.any_map, Attr.isSplat_eq_parts]
  have hall : ∀ as : List Attr, as.filterMap (Attr.encode onComponent)
      = (as.map Attr.parts).filterMap (AttrParts.encode onComponent) := by
    intro as
    rw [List.filterMap_map, Attr.encode_eq_parts]
  have htypes : ∀ as : List Attr, (as.filter Attr.isType).map Attr.parts
      = (as.map Attr.parts).filter AttrParts.isType := by
    intro as
    rw [List.filter_map, Attr.isType_eq_parts]
  have hothers : ∀ as : List Attr, (as.filter (not ∘ Attr.isType)).map Attr.parts
      = (as.map Attr.parts).filter (not ∘ AttrParts.isType) := by
    intro as
    rw [List.filter_map, Attr.isType_eq_parts]
    rfl
  have hhas : p.hasSplat = q.hasSplat := by rw [hsplat, hsplat, hattrs]
  refine ⟨?_, hhas⟩
  simp only [ElementParams.encode, List.partition_eq_filter_filter, hhas, hall, htypes, hothers,
    hattrs, hmodifiers]

theorem elementAttr_agree (attr : Template.Attr) :
    Agree Attr.parts (elementAttr o attr.bare) (elementAttr o attr) := by
  unfold elementAttr Template.Attr.bare
  refine .ite (.after _ fun slot => .pure rfl) ?_
  refine (attrValue_agree attr.value).bind fun e e' he => .pure ?_
  rw [Attr.parts, Attr.parts, he]
  cases attr.value <;> rfl

/-- The attributes and the arguments on the tag of a component, encoded. -/
def encodeAttrs (value : List Attr × List (Named Expr)) :
    List AttrParts × List (Wire.Entry Wire.Expr) :=
  (value.1.map Attr.parts, encodeNamed value.2)

theorem componentAttrs_agree (attributes : List Template.Attr) :
    Agree encodeAttrs (componentAttrs o (attributes.map Template.Attr.bare))
      (componentAttrs o attributes) := by
  induction attributes with
  | nil => exact .rfl
  | cons attr rest ih =>
    rw [List.map_cons, componentAttrs, componentAttrs]
    refine .ite ?_ ?_
    · refine (attrValue_agree attr.value).bind fun e e' he => ih.bind fun v v' hv => .pure ?_
      obtain ⟨hattrs, hargs⟩ := Prod.mk.inj hv
      rw [encodeAttrs, encodeAttrs, hattrs, encodeNamed, encodeNamed, hargs, he]
      rfl
    · refine (elementAttr_agree attr).bind fun a a' ha => ih.bind fun v v' hv => .pure ?_
      obtain ⟨hattrs, hargs⟩ := Prod.mk.inj hv
      rw [encodeAttrs, encodeAttrs, List.map_cons, List.map_cons, hattrs, hargs, ha]

/-! ### Tags among content -/

theorem yieldTarget_agree (call : Call Template.Expr) :
    Agree id (yieldTarget call.bare.hash) (yieldTarget call.hash) := by
  unfold yieldTarget Call.bare
  rw [hash_get?_bare "to" _ _ call.hash.span]
  cases call.hash.get? "to" with
  | none => exact .rfl
  | some pair =>
    obtain ⟨key, value, span⟩ := pair
    rw [Option.map_some]
    cases value with
    | path | sub =>
      rw [Template.Expr.bare]
      exact .throw _ _
    | literal value span =>
      rw [Template.Expr.bare]
      cases value with
      | string name => exact .rfl
      | number | boolean | null | undefined => exact .throw _ _

theorem appendForm_agree (keyword : AppendKeyword) (tag : MustacheTag) :
    Agree Content.encode (appendForm o keyword tag.bare) (appendForm o keyword tag) := by
  have hparams := params_isEmpty_bare tag.call
  cases keyword with
  | yield =>
    refine (checkNamed_agree _ _ tag.call.hash.pairs _ _).bind fun _ _ _ =>
      (yieldTarget_agree tag.call).bind fun name name' hname => ?_
    obtain rfl : name = name' := hname
    refine .after _ fun target => (arguments_agree tag.call.params).bind fun es es' hes => .pure ?_
    rw [Content.encode, Content.encode, hes]
  | partialCall =>
    refine .ite .throw_bind ?_
    unfold MustacheTag.bare Call.bare
    match tag.call.params with
    | [target] =>
      simp only [bareExprs]
      refine (checkNamed_agree _ _ tag.call.hash.pairs _ _).bind fun _ _ _ =>
        (expr_agree .argument target).bind fun e e' he =>
        .after _ fun _ => .after _ fun symbols => .pure ?_
      rw [Content.encode, Content.encode, he]
    | [] | _ :: _ :: _ =>
      simp only [bareExprs]
      exact .throw _ _
  | debugger =>
    unfold appendForm
    simp only [show tag.bare.call = tag.call.bare from rfl, hparams]
    refine .ite .throw_bind ?_
    refine (checkNamed_agree _ _ tag.call.hash.pairs _ _).bind fun _ _ _ =>
      .after _ fun _ => .after _ fun symbols => .pure ?_
    rw [Content.encode, Content.encode]
  | component =>
    refine (dynamicCall_agree _ _ _ tag.call).bind fun v v' hv => .pure ?_
    simp only [encodeDynamic, Prod.mk.injEq] at hv
    rw [Content.encode, Content.encode, hv.1, hv.2.1, hv.2.2]
  | value keyword =>
    refine (keywordCall_agree keyword _ _ _ tag.call).bind fun e e' he => .pure ?_
    rw [Content.encode, Content.encode, he]
    rfl

theorem appendTag_agree (tag : MustacheTag) :
    Agree Content.encode (appendTag o tag.bare) (appendTag o tag) := by
  have hcallee : tag.bare.call.callee = tag.call.callee.bare := rfl
  have hcall : tag.bare.call = tag.call.bare := rfl
  unfold appendTag
  rw [hcallee, keywordName?_bare, hcall, params_isEmpty_bare, pairs_isEmpty_bare]
  refine .after _ fun name => ?_
  cases name.bind AppendKeyword.ofName? with
  | some keyword => exact appendForm_agree keyword tag
  | none =>
    refine .ite ?_ ?_
    · refine (expr_agree _ tag.call.callee).bind fun e e' he => .pure ?_
      rw [Content.encode, Content.encode, he]
      rfl
    · refine (callOf_agree _ _ _ tag.call).bind fun e e' he => .pure ?_
      rw [Content.encode, Content.encode, he]
      rfl

/-! ### Blocks -/

/-- Two branches that are both missing, or that agree. -/
inductive OthersAgree : Option Branch → Option Branch → Prop where
  | none : OthersAgree none none
  | some {x y : Branch} (h : Agree encodeBlock x.resolve y.resolve) : OthersAgree (some x) (some y)

theorem otherBlock_agree {x y : Option Branch} (h : OthersAgree x y) :
    Agree encodeOther (otherBlock x) (otherBlock y) := by
  cases h with
  | none => exact .rfl
  | some h =>
    refine h.bind fun b b' hb => .pure ?_
    rw [encodeOther, encodeOther, hb]

theorem namedBranches_agree {program program' : Branch} {inverse inverse' : Option Branch}
    (hprogram : Agree encodeBlock program.resolve program'.resolve)
    (hinverse : OthersAgree inverse inverse') :
    Agree encodeBlocks (namedBranches program inverse) (namedBranches program' inverse') := by
  refine hprogram.bind fun b b' hb => ?_
  cases hinverse with
  | none => exact .pure (by simp only [encodeBlocks, hb])
  | some h => exact h.bind fun c c' hc => .pure (by simp only [encodeBlocks, hb, hc])

theorem checkNoInverse_agree (label : String) {x y : Option Branch} (h : OthersAgree x y) :
    Agree id (checkNoInverse label x) (checkNoInverse label y) := by
  cases h with
  | none => exact .rfl
  | some h => exact .throw _ _

/-- A block with a keyword is resolved as without its formatting. -/
theorem blockForm_agree (keyword : BlockKeyword) (tag : BlockTag) {program program' : Branch}
    {inverse inverse' : Option Branch}
    (hprogram : Agree encodeBlock program.resolve program'.resolve)
    (hinverse : OthersAgree inverse inverse') :
    Agree Content.encode (blockForm o keyword tag.bare program inverse)
      (blockForm o keyword tag program' inverse') := by
  have hcall : tag.bare.call = tag.call.bare := rfl
  have hempty := params_isEmpty_bare tag.call
  have hpairs := pairs_isEmpty_bare tag.call
  -- Names that are not taken are refused in both.
  have hnamed : ∀ label allowed,
      Agree id (checkNamed label allowed tag.call.bare.hash)
        (checkNamed label allowed tag.call.hash) :=
    fun label allowed => checkNamed_agree label allowed tag.call.hash.pairs _ _
  have hparams : tag.call.bare.params = bareExprs tag.call.params := rfl
  unfold blockForm
  simp only [hcall]
  cases keyword with
  | branch negated =>
    simp only [hparams]
    match tag.call.params with
    | [condition] =>
      simp only [bareExprs]
      refine (hnamed _ _).bind fun _ _ _ => (expr_agree .argument condition).bind fun e e' he =>
        hprogram.bind fun b b' hb => (otherBlock_agree hinverse).bind fun c c' hc => .pure ?_
      rw [Content.encode, Content.encode, conditionOf_encode negated he, hb, hc]
    | [] | _ :: _ :: _ =>
      simp only [bareExprs]
      exact .throw _ _
  | each =>
    simp only [hparams]
    match tag.call.params with
    | [value] =>
      simp only [bareExprs]
      refine (hnamed _ _).bind fun _ _ _ => (expr_agree .argument value).bind fun e e' he =>
        (optionalNamed_agree "key" tag.call).bind fun k k' hk =>
        hprogram.bind fun b b' hb => (otherBlock_agree hinverse).bind fun c c' hc => .pure ?_
      rw [Content.encode, Content.encode, he, hk, hb, hc]
    | [] | _ :: _ :: _ =>
      simp only [bareExprs]
      exact .throw _ _
  | withValue =>
    simp only [hparams]
    match tag.call.params with
    | [value] =>
      simp only [bareExprs]
      refine (hnamed _ _).bind fun _ _ _ => (expr_agree .argument value).bind fun e e' he =>
        hprogram.bind fun b b' hb => (otherBlock_agree hinverse).bind fun c c' hc => .pure ?_
      rw [Content.encode, Content.encode, he, hb, hc]
    | [] | _ :: _ :: _ =>
      simp only [bareExprs]
      exact .throw _ _
  | letValues =>
    simp only [hempty]
    refine .ite .throw_bind ((hnamed _ _).bind fun _ _ _ =>
      (checkNoInverse_agree _ hinverse).bind fun _ _ _ =>
      (arguments_agree tag.call.params).bind fun es es' hes =>
      hprogram.bind fun b b' hb => .pure ?_)
    rw [Content.encode, Content.encode, hes, hb]
  | inElement =>
    rw [show tag.call.bare.hash.get? "guid" = _ from hash_get?_bare "guid" _ _ tag.call.hash.span]
    cases tag.call.hash.get? "guid" with
    | some pair => exact .throw_bind
    | none =>
      simp only [hparams, Option.map_none]
      match tag.call.params with
      | [destination] =>
        simp only [bareExprs]
        refine (hnamed _ _).bind fun _ _ _ => (checkNoInverse_agree _ hinverse).bind fun _ _ _ =>
          .after _ fun guid => (expr_agree .argument destination).bind fun e e' he =>
          (optionalNamed_agree "insertBefore" tag.call).bind fun k k' hk =>
          hprogram.bind fun b b' hb => .pure ?_
        rw [Content.encode, Content.encode, he, hk, hb]
      | [] | _ :: _ :: _ =>
        simp only [bareExprs]
        exact .throw _ _
  | component =>
    refine (dynamicCall_agree _ _ _ tag.call).bind fun v v' hv =>
      (namedBranches_agree hprogram hinverse).bind fun bs bs' hbs => .pure ?_
    simp only [encodeDynamic, Prod.mk.injEq] at hv
    rw [Content.encode, Content.encode, hv.1, hv.2.1, hv.2.2, hbs]
  | withDynamicVars =>
    simp only [hempty, hpairs]
    refine .ite .throw_bind (.ite .throw_bind ((checkNoInverse_agree _ hinverse).bind fun _ _ _ =>
      (namedArguments_agree tag.call.hash.pairs).bind fun named named' hnamed =>
      hprogram.bind fun b b' hb => .pure ?_))
    rw [Content.encode, Content.encode, hnamed, hb]

theorem blockTag_agree (tag : BlockTag) {program program' : Branch}
    {inverse inverse' : Option Branch}
    (hprogram : Agree encodeBlock program.resolve program'.resolve)
    (hinverse : OthersAgree inverse inverse') :
    Agree Content.encode (blockTag o tag.bare program inverse)
      (blockTag o tag program' inverse') := by
  have hcall : tag.bare.call = tag.call.bare := rfl
  unfold blockTag
  simp only [hcall, Call.bare, keywordName?_bare]
  refine .after _ fun name => ?_
  cases name.bind BlockKeyword.ofName? with
  | some keyword => exact blockForm_agree keyword tag hprogram hinverse
  | none =>
    refine (expr_agree .block tag.call.callee).bind fun e e' he =>
      (arguments_agree tag.call.params).bind fun es es' hes =>
      (namedArguments_agree tag.call.hash.pairs).bind fun named named' hnamed =>
      (namedBranches_agree hprogram hinverse).bind fun bs bs' hbs => .pure ?_
    rw [Content.encode, Content.encode, he, hes, hnamed, hbs]

/-! ### Elements -/

theorem isComponent_agree (tag : StartTag) (span span' : Span) :
    Agree id (isComponent o tag.bare span) (isComponent o tag span') := by
  refine .after _ fun symbols => .ite .rfl (.ite .throw_bind (.ite .throw_bind .rfl))

theorem componentCallee_agree (tag : StartTag) (span span' : Span) :
    Agree Expr.encode (componentCallee o tag.bare span) (componentCallee o tag span') := by
  refine .after _ fun symbols => .ite ?_ (.ite ?_ (.ite ?_ ?_))
  · exact .after _ fun slot => .bind (f := Variable.reference) (.pure rfl) fun v w h =>
      .pure (encode_path_congr h _ _ _)
  · exact .bind (f := Variable.reference) (.pure rfl) fun v w h =>
      .pure (encode_path_congr h _ _ _)
  · exact resolveName_agree.bind fun v w h => .pure (encode_path_congr h _ _ _)
  · refine .after _ fun name => .after _ fun upvar =>
      .bind (f := Variable.reference) (.pure rfl) fun v w h => .pure (encode_path_congr h _ _ _)

theorem namedBlockName_agree (seen : List String) (tag : StartTag) (span span' : Span) :
    Agree id (namedBlockName seen tag.bare span) (namedBlockName seen tag span') := by
  have hattributes : tag.bare.attributes.isEmpty = tag.attributes.isEmpty := by
    rw [StartTag.bare, List.isEmpty_map]
  have hmodifiers : tag.bare.modifiers.isEmpty = tag.modifiers.isEmpty := by
    rw [StartTag.bare, List.isEmpty_map]
  unfold namedBlockName
  simp only [hattributes, hmodifiers]
  exact .ite .throw_bind (.ite .throw_bind (.ite .throw_bind .rfl))

theorem component_agree (tag : StartTag) (span span' : Span)
    {blocks blocks' : Walk (List (NamedBlock Content))}
    (hblocks : Agree encodeBlocks blocks blocks') :
    Agree Content.encode (component o tag.bare span blocks) (component o tag span' blocks') := by
  refine (componentCallee_agree tag _ _).bind fun e e' he =>
    (componentAttrs_agree tag.attributes).bind fun v v' hv =>
    (Agree.mapM _ modifierOf_agree tag.modifiers).bind fun ms ms' hms =>
    hblocks.bind fun bs bs' hbs => .pure ?_
  obtain ⟨hattrs, hargs⟩ := Prod.mk.inj hv
  obtain ⟨hencode, -⟩ := ElementParams.encode_congr (p := ⟨v.1, ms⟩) (q := ⟨v'.1, ms'⟩)
    hattrs hms true
  rw [Content.encode, Content.encode, he, hargs, hencode, hbs]

theorem plainElement_agree (tag : StartTag) (span span' : Span) {body body' : Walk (List Content)}
    (hbody : Agree encodeContents body body') :
    Agree Content.encode (plainElement o tag.bare span body) (plainElement o tag span' body') := by
  have hfind : tag.bare.attributes.find? (fun attr => isArgumentName attr.name)
      = (tag.attributes.find? fun attr => isArgumentName attr.name).map Template.Attr.bare := by
    rw [StartTag.bare, List.find?_map]
    rfl
  unfold plainElement
  rw [hfind]
  cases tag.attributes.find? fun attr => isArgumentName attr.name with
  | some attr => exact .throw_bind
  | none =>
    refine .ite .throw_bind ?_
    refine (Agree.mapM _ elementAttr_agree tag.attributes).bind fun as as' has =>
      (Agree.mapM _ modifierOf_agree tag.modifiers).bind fun ms ms' hms =>
      hbody.bind fun cs cs' hcs => .pure ?_
    obtain ⟨hencode, hsplat⟩ := ElementParams.encode_congr (p := ⟨as, ms⟩) (q := ⟨as', ms'⟩)
      has hms false
    rw [Content.encode, Content.encode, hencode, hsplat, hcs]
    rfl

/-! ### Statements -/

/-- A block around bodies that agree. -/
theorem inBlock_agree (params : List String) (span span' : Span)
    {body body' : Walk (List Content)} (hbody : Agree encodeContents body body') :
    Agree encodeBlock (inBlock params fun slots => return ⟨slots, ← body, span⟩)
      (inBlock params fun slots => return ⟨slots, ← body', span'⟩) := by
  refine .after _ fun slots => ?_
  refine .bind (f := encodeBlock) ?_ fun b b' hb => .after _ fun _ => .pure hb
  refine hbody.bind fun cs cs' hcs => .pure ?_
  rw [encodeBlock, encodeBlock, hcs]

/-- Nothing is written of a comment in braces. -/
theorem Agree.hiddenComment {x y : Walk (List Content)} {text : String} {span : Span}
    (h : Agree encodeContents x y) :
    Agree encodeContents x (y >>= fun cs => Pure.pure (.hiddenComment text span :: cs)) := by
  rw [← bind_pure x]
  refine h.bind fun cs cs' hcs => .pure ?_
  rw [encodeContents, Content.encode, List.nil_append, hcs]

theorem isNamedBlock_bare (s : Statement) : isNamedBlock s.bare = isNamedBlock s := by
  cases s <;> rw [Statement.bare] <;> rfl

theorem any_isNamedBlock_bare (ss : List Statement) :
    (bareStatements ss).any isNamedBlock = ss.any isNamedBlock := by
  induction ss with
  | nil => rw [bareStatements]
  | cons s rest ih =>
    rw [bareStatements, List.any_cons]
    split
    · next hcomment =>
      obtain ⟨c, rfl⟩ := Statement.eq_of_isMustacheComment hcomment
      rw [ih]
      rfl
    · rw [List.any_cons, ih, isNamedBlock_bare]

mutual

/-- A statement is resolved as without its formatting. -/
theorem statement_agree (s : Statement) :
    Agree Content.encode (statement o s.bare) (statement o s) := by
  match s with
  | .text node | .comment node =>
    rw [Statement.bare, statement, statement]
    refine .pure ?_
    rw [Content.encode, Content.encode]
    rfl
  | .mustacheComment comment =>
    rw [Statement.bare, statement, statement]
    refine .pure ?_
    rw [Content.encode, Content.encode]
  | .partialCall tag =>
    rw [Statement.bare, statement, statement]
    exact .throw _ _
  | .mustache tag =>
    rw [Statement.bare, statement, statement]
    exact appendTag_agree tag
  | .block tag program none =>
    rw [Statement.bare, bareOther, statement, statement]
    exact blockTag_agree tag (block_agree program) .none
  | .block tag program (some inverse) =>
    rw [Statement.bare, bareOther, statement, statement]
    exact blockTag_agree tag (block_agree program) (.some (block_agree inverse))
  | .element tag children span =>
    have hbody := statements_agree children
    rw [Statement.bare, statement, statement, any_isNamedBlock_bare, StartTag.bare_name,
      StartTag.bare_blockParams, StartTag.bare_selfClosing]
    refine .ite .throw_bind ((isComponent_agree tag _ _).bind fun c c' hc => ?_)
    obtain rfl : c = c' := hc
    -- The children are the same kind of blocks, whatever comments stand between them.
    refine .ite (component_agree tag _ _ (.ite (.ite ?_ (.throw _ _)) (.ite .rfl ?_)))
      (plainElement_agree tag _ _ hbody)
    · exact namedBlocks_agree tag.name [] children
    · refine (inBlock_agree tag.blockParams _ _ hbody).bind fun b b' hb => .pure ?_
      simp only [encodeBlocks, hb]

theorem statements_agree (ss : List Statement) :
    Agree encodeContents (statements o (bareStatements ss)) (statements o ss) := by
  match ss with
  | [] =>
    rw [bareStatements]
    exact .rfl
  | s :: rest =>
    rw [bareStatements, statements]
    split
    · next hcomment =>
      obtain ⟨c, rfl⟩ := Statement.eq_of_isMustacheComment hcomment
      rw [statement, pure_bind]
      exact Agree.hiddenComment (statements_agree rest)
    · rw [statements]
      refine (statement_agree s).bind fun c c' hc =>
        (statements_agree rest).bind fun cs cs' hcs => .pure ?_
      rw [encodeContents, encodeContents, hc, hcs]

theorem block_agree (b : Template.Block Statement) :
    Agree encodeBlock (block o (bareBlock b)) (block o b) := by
  match b with
  | ⟨body, params, chained, span⟩ =>
    rw [bareBlock, block, block]
    exact inBlock_agree params _ _ (statements_agree body)

theorem namedBlocks_agree (component : String) (seen : List String) (ss : List Statement) :
    Agree encodeBlocks (namedBlocks o component seen (bareStatements ss))
      (namedBlocks o component seen ss) := by
  match ss with
  | [] =>
    rw [bareStatements]
    exact .rfl
  | .element tag children span :: rest =>
    rw [bareStatements, if_neg (by simp [Statement.isMustacheComment]), Statement.bare]
    unfold namedBlocks
    refine .ite ((namedBlockName_agree seen tag _ _).bind fun name name' hname => ?_) (.throw _ _)
    obtain rfl : name = name' := hname
    refine (inBlock_agree tag.blockParams _ _ (statements_agree children)).bind fun b b' hb =>
      (namedBlocks_agree component (name :: seen) rest).bind fun bs bs' hbs => .pure ?_
    simp only [encodeBlocks, hb, hbs]
  | .mustacheComment c :: rest =>
    -- A comment goes without a trace, and the walk passes it, too.
    rw [bareStatements, if_pos (by simp [Statement.isMustacheComment])]
    conv => rhs; unfold namedBlocks
    exact namedBlocks_agree component seen rest
  | .text node :: rest | .comment node :: rest | .partialCall node :: rest
  | .mustache node :: rest =>
    rw [bareStatements, if_neg (by simp [Statement.isMustacheComment]), Statement.bare]
    unfold namedBlocks
    exact .ite (namedBlocks_agree component seen rest) (.throw _ _)
  | .block tag program inverse :: rest =>
    rw [bareStatements, if_neg (by simp [Statement.isMustacheComment]), Statement.bare]
    unfold namedBlocks
    exact .ite (namedBlocks_agree component seen rest) (.throw _ _)

end

end

end TemplateCompiler.Resolved

namespace TemplateCompiler.Template

open Resolved

/-! ### Templates -/

/-- A template and its bare form are resolved alike. -/
theorem resolve_bare (t : Template) (o : Settings) :
    (t.bare.resolve o).1.isOk = (t.resolve o).1.isOk ∧
      ∀ b p b' p', t.bare.resolve o = (.ok b, p) → t.resolve o = (.ok b', p') →
        b.encode p.symbols = b'.encode p'.symbols := by
  have hagree := statements_agree (o := o) t.body (start o)
  unfold Template.resolve Template.bare
  cases hbare : (statements o (bareStatements t.body)).run (start o) with
  | ok contents q =>
    cases hrun : (statements o t.body).run (start o) with
    | ok contents' q' =>
      rw [hbare, hrun] at hagree
      obtain ⟨hencode, rfl⟩ : encodeContents contents = encodeContents contents' ∧ q = q' := by
        simpa [seen] using hagree
      refine ⟨rfl, fun b p b' p' hb hb' => ?_⟩
      obtain ⟨rfl, rfl⟩ : (⟨contents, .dummy⟩ : Body) = b ∧ q = p := by simpa using hb
      obtain ⟨rfl, rfl⟩ : (⟨contents', t.span⟩ : Body) = b' ∧ q = p' := by simpa using hb'
      rw [Body.encode, Body.encode, hencode]
    | error fault q' => simp [hbare, hrun, seen] at hagree
  | error fault q =>
    cases hrun : (statements o t.body).run (start o) with
    | ok contents' q' => simp [hbare, hrun, seen] at hagree
    | error fault' q' => exact ⟨rfl, fun b p b' p' hb => by simp at hb⟩

/-- Templates that are the same but for their formatting resolve together, and are
then compiled to the same program. -/
theorem encode_ignores_formatting (t t' : Template) (o : Settings) (h : t.bare = t'.bare) :
    (t.resolve o).1.isOk = (t'.resolve o).1.isOk ∧
      ∀ b p b' p', t.resolve o = (.ok b, p) → t'.resolve o = (.ok b', p') →
        b.encode p.symbols = b'.encode p'.symbols := by
  obtain ⟨hok, hencode⟩ := resolve_bare t o
  obtain ⟨hok', hencode'⟩ := resolve_bare t' o
  rw [← h] at hok' hencode'
  refine ⟨hok.symm.trans hok', fun b p b' p' hb hb' => ?_⟩
  rw [hb] at hok
  match hbare : t.bare.resolve o with
  | (.ok c, q) => exact (hencode c q b p hbare hb).symm.trans (hencode' c q b' p' hbare hb')
  | (.error fault, q) =>
    rw [hbare] at hok
    cases hok

/-- A component that is given a named block, with comments in its tag, around the
block and in it. -/
def commented : Template where
  body :=
    [.mustacheComment ⟨"first", ⟨0, 9⟩⟩,
    .element { name := "Foo", comments := [⟨"in the tag", ⟨14, 30⟩⟩] }
      [.mustacheComment ⟨"before", ⟨31, 43⟩⟩,
      .element { name := ":body", blockParams := ["x"] }
        [.mustache ⟨⟨.path ⟨.var "x", ["y"], "x.y", ⟨60, 63⟩⟩, [], ⟨[], ⟨63, 63⟩⟩⟩, false,
          ⟨true, true⟩, ⟨57, 66⟩⟩, .mustacheComment ⟨"inside", ⟨66, 78⟩⟩] ⟨43, 86⟩] ⟨9, 92⟩]
  span := ⟨0, 92⟩

/-- The same component without comments, on a line of its own. -/
def uncommented : Template where
  body :=
    [.element { name := "Foo" }
      [.element { name := ":body", blockParams := ["x"] }
        [.mustache ⟨⟨.path ⟨.var "x", ["y"], "x.[y]", ⟨26, 31⟩⟩, [], ⟨[], ⟨31, 31⟩⟩⟩, false, {},
          ⟨24, 33⟩⟩] ⟨6, 41⟩] ⟨1, 47⟩]
  span := ⟨0, 47⟩

theorem encode_ignores_formatting_commented :
    commented.bare = uncommented.bare ∧
      ∃ b p b' p', commented.resolve {} = (.ok b, p) ∧ uncommented.resolve {} = (.ok b', p') ∧
        p.symbols.names = ["x"] ∧ b.encode p.symbols = b'.encode p'.symbols := by
  have hbare : commented.bare = uncommented.bare := rfl
  obtain ⟨hsame, hencode⟩ := encode_ignores_formatting commented uncommented {} hbare
  have hok : (commented.resolve {}).1.isOk = true := by decide +kernel
  have hnames : (commented.resolve {}).2.symbols.names = ["x"] := by decide +kernel
  refine ⟨hbare, ?_⟩
  generalize commented.resolve {} = r at hsame hencode hok hnames ⊢
  generalize uncommented.resolve {} = r' at hsame hencode ⊢
  match r, r' with
  | (.ok b, p), (.ok b', p') =>
    exact ⟨b, p, b', p', rfl, rfl, hnames, hencode b p b' p' rfl rfl⟩
  | (.error fault, p), _ => cases hok
  | (.ok b, p), (.error fault, p') => cases hsame

end TemplateCompiler.Template
