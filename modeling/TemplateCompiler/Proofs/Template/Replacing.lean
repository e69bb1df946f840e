/-
A node that a visitor keeps, and one that it puts in its own place.

A walk looks at the answer of a hook in several ways: in a list of statements, in
one of attributes, in a place for one expression, in the value of an attribute.
None of them tells a node that is kept from one that is replaced by itself.

* `TreeNode` — what a hook can be called on;
* `Visitor.logged` — a visitor that also writes down the nodes its hooks are
  called on;
* `Alike` — two computations, over states of their own, that go the same way;
* `traverse_alike` — visitors whose hooks go the same way walk the same way;
* `Visitor.selfReplacing` — a visitor that replaces what it would keep by itself;
* `traverse_selfReplacing` — it calls the same hooks on the same nodes in the same
  order, and ends in the same state with the same template or error.

Design notes: only `Transform.nodes` of an answer matters to a walk, so hooks go
the same way when their answers put in the same nodes (`Answers`).  The relation
between the states is a parameter: equality compares the two visitors, and the
first projection compares a visitor with the one that also writes a log.
-/
import TemplateCompiler.Template.Visitor

namespace TemplateCompiler.Template

variable {σ τ ε α β γ δ ν : Type}

/-! ### What hooks are called on -/

/-- A node of a template. -/
inductive TreeNode where
  | statement (s : Statement)
  | attr (a : Attr)
  | modifier (m : Modifier)
  | expr (e : Expr)
  | pair (p : Pair Expr)
  /-- A comment in braces inside a start tag. -/
  | note (c : Comment)

/-- The hook that also writes down what it is called on. -/
def Hook.logged (asNode : ν → TreeNode) (hook : Hook σ ν α) : Hook (σ × List TreeNode) ν α :=
  fun node (s, log) =>
    match hook node s with
    | .ok answer s => .ok answer (s, log ++ [asNode node])
    | .error message s => .error message (s, log ++ [asNode node])

/-- The visitor that also writes down what its hooks are called on. -/
def Visitor.logged (v : Visitor σ) : Visitor (σ × List TreeNode) where
  mustache := v.mustache.logged fun tag => .statement (.mustache tag)
  block := v.block.logged fun node => .statement (.block node.tag node.program node.inverse)
  partialCall := v.partialCall.logged fun tag => .statement (.partialCall tag)
  comment := v.comment.logged fun c => .statement (.comment c)
  mustacheComment := v.mustacheComment.logged fun c => .statement (.mustacheComment c)
  text := v.text.logged fun node => .statement (.text node)
  element := v.element.logged fun node => .statement (.element node.tag node.children node.span)
  attr := v.attr.logged .attr
  modifier := v.modifier.logged .modifier
  path := v.path.logged fun p => .expr (.path p)
  sub := v.sub.logged fun node => .expr (.sub node.call node.span)
  literal := v.literal.logged fun node => .expr (.literal node.value node.span)
  pair := v.pair.logged .pair

/-! ### Computations that go the same way -/

/-- Results that say the same: related answers, or one error, in related states. -/
inductive ResultsAlike (R : σ → τ → Prop) (Q : α → β → Prop) :
    EStateM.Result ε σ α → EStateM.Result ε τ β → Prop
  | ok {a : α} {b : β} {s : σ} {t : τ} (ha : Q a b) (hs : R s t) :
    ResultsAlike R Q (.ok a s) (.ok b t)
  | error {e : ε} {s : σ} {t : τ} (hs : R s t) : ResultsAlike R Q (.error e s) (.error e t)

/-- Computations that say the same from related states. -/
def Alike (R : σ → τ → Prop) (Q : α → β → Prop) (x : EStateM ε σ α) (y : EStateM ε τ β) : Prop :=
  ∀ s t, R s t → ResultsAlike R Q (x s) (y t)

section Alike

variable {R : σ → τ → Prop} {Q : α → β → Prop} {P : γ → δ → Prop}

theorem Alike.pure {a : α} {b : β} (h : Q a b) :
    Alike R Q (pure a : EStateM ε σ α) (pure b : EStateM ε τ β) :=
  fun _ _ hs => .ok h hs

theorem Alike.throw {e : ε} : Alike R Q (throw e : EStateM ε σ α) (throw e : EStateM ε τ β) :=
  fun _ _ hs => .error hs

theorem Alike.bind {x : EStateM ε σ α} {y : EStateM ε τ β} {f : α → EStateM ε σ γ}
    {g : β → EStateM ε τ δ} (hxy : Alike R Q x y)
    (hfg : ∀ a b, Q a b → Alike R P (f a) (g b)) : Alike R P (x >>= f) (y >>= g) := by
  intro s t hs
  have hresults := hxy s t hs
  simp only [Bind.bind, EStateM.bind]
  generalize x s = p, y t = q at hresults
  cases hresults with
  | ok ha hs => exact hfg _ _ ha _ _ hs
  | error hs => exact .error hs

/-- After computations with the same answer, the same is done with it. -/
theorem Alike.bind_eq {x : EStateM ε σ α} {y : EStateM ε τ α} {f : α → EStateM ε σ γ}
    {g : α → EStateM ε τ δ} (hxy : Alike R Eq x y) (hfg : ∀ a, Alike R P (f a) (g a)) :
    Alike R P (x >>= f) (y >>= g) :=
  hxy.bind fun a _ h => h ▸ hfg a

/-- After computations with the same answer, it is changed in the same way. -/
theorem Alike.map_eq {x : EStateM ε σ α} {y : EStateM ε τ α} (hxy : Alike R Eq x y) (f : α → γ) :
    Alike R Eq (do return f (← x)) (do return f (← y)) :=
  hxy.bind_eq fun _ => .pure rfl

theorem Alike.mapM {f : α → EStateM ε σ β} {g : α → EStateM ε τ β}
    (h : ∀ a, Alike R Eq (f a) (g a)) (items : List α) :
    Alike R Eq (items.mapM f) (items.mapM g) := by
  induction items with
  | nil => exact .pure rfl
  | cons a rest ih =>
    simp only [List.mapM_cons]
    exact (h a).bind_eq fun b => ih.map_eq (b :: ·)

theorem Alike.collect {f : α → Visit σ (List β)} {g : α → Visit τ (List β)}
    (h : ∀ a, Alike R Eq (f a) (g a)) (items : List α) :
    Alike R Eq (collect f items) (collect g items) := by
  induction items with
  | nil => exact .pure rfl
  | cons a rest ih => exact (h a).bind_eq fun here => ih.map_eq (here ++ ·)

theorem Alike.runHook {x : EStateM String σ α} {y : EStateM String τ β} (h : Alike R Q x y) :
    Alike R Q (runHook x) (runHook y) := by
  intro s t hs
  have hresults := h s t hs
  simp only [Template.runHook]
  generalize x s = p, y t = q at hresults
  cases hresults with
  | ok ha hs => exact .ok ha hs
  | error hs => exact .error hs

/-- Computations over one state that say the same are the same. -/
theorem Alike.eq {x y : EStateM ε σ α} (h : Alike Eq Eq x y) : x = y := by
  funext s
  have hresults := h s s rfl
  generalize x s = p, y s = q at hresults
  cases hresults with
  | ok ha hs => rw [ha, hs]
  | error hs => rw [hs]

end Alike

/-! ### Hooks that go the same way -/

/-- Answers of hooks with the same node, putting in the same nodes. -/
def Answers (self : ν → α) (x y : ν × Transform α) : Prop :=
  x.1 = y.1 ∧ x.2.nodes (self x.1) = y.2.nodes (self y.1)

/-- Hooks that answer alike on every node. -/
def Hook.Alike (R : σ → τ → Prop) (self : ν → α) (h : Hook σ ν α) (k : Hook τ ν α) : Prop :=
  ∀ node, Template.Alike R (Answers self) (h node) (k node)

/-- Visitors whose hooks answer alike. -/
structure Visitor.Alike (R : σ → τ → Prop) (v : Visitor σ) (w : Visitor τ) : Prop where
  mustache : v.mustache.Alike R Statement.mustache w.mustache
  block : v.block.Alike R (fun node => .block node.tag node.program node.inverse) w.block
  partialCall : v.partialCall.Alike R Statement.partialCall w.partialCall
  comment : v.comment.Alike R Statement.comment w.comment
  mustacheComment : v.mustacheComment.Alike R Statement.mustacheComment w.mustacheComment
  text : v.text.Alike R Statement.text w.text
  element : v.element.Alike R (fun node => .element node.tag node.children node.span) w.element
  attr : v.attr.Alike R id w.attr
  modifier : v.modifier.Alike R id w.modifier
  path : v.path.Alike R Expr.path w.path
  sub : v.sub.Alike R (fun node => .sub node.call node.span) w.sub
  literal : v.literal.Alike R (fun node => .literal node.value node.span) w.literal
  pair : v.pair.Alike R id w.pair

/-! ### Walks that go the same way -/

section Walks

variable {R : σ → τ → Prop} {v : Visitor σ} {w : Visitor τ}

/-- What comes in the place of a node, as one of its hook's answers says. -/
theorem Hook.Alike.answers {self : ν → α} {h : Hook σ ν α} {k : Hook τ ν α}
    (hhook : h.Alike R self k) (node : ν) :
    Template.Alike R (Answers id)
      (do let (node, t) ← runHook (h node); return (self node, t))
      (do let (node, t) ← runHook (k node); return (self node, t)) :=
  (hhook node).runHook.bind fun _ _ hanswers => .pure ⟨by simp [hanswers.1], hanswers.2⟩

/-- What is done with all nodes that come in the place of one. -/
theorem Alike.nodes {x : Visit σ (α × Transform α)} {y : Visit τ (α × Transform α)}
    (hxy : Alike R (Answers id) x y) {f : α → Visit σ β} {g : α → Visit τ β}
    (hfg : ∀ a, Alike R Eq (f a) (g a)) :
    Alike R Eq (do let (a, t) ← x; (t.nodes a).mapM f)
      (do let (a, t) ← y; (t.nodes a).mapM g) := by
  refine hxy.bind fun (a, t) (b, t') ⟨_, hnodes⟩ => ?_
  have hlists : t.nodes a = t'.nodes b := hnodes
  simp only [hlists]
  exact .mapM hfg _

theorem Transform.only_of_nodes (t : Transform α) (a : α) (kind : String) (span : Span) :
    (t.only a kind span : Visit σ α) =
      match t.nodes a with
      | [] => throw (.removed kind span)
      | [other] => pure other
      | _ :: _ :: _ => throw (.multiple kind span) := by
  unfold Transform.only
  split <;> rfl

/-- The one node that comes in the place of one. -/
theorem Alike.only {x : Visit σ (α × Transform α)} {y : Visit τ (α × Transform α)}
    (hxy : Alike R (Answers id) x y) (kind : α → String) (span : α → Span)
    {f : α → Visit σ β} {g : α → Visit τ β} (hfg : ∀ a, Alike R Eq (f a) (g a)) :
    Alike R Eq (do let (a, t) ← x; let a ← t.only a (kind a) (span a); f a)
      (do let (a, t) ← y; let a ← t.only a (kind a) (span a); g a) := by
  refine hxy.bind fun (a, t) (b, t') ⟨hnode, hnodes⟩ => ?_
  obtain rfl : a = b := hnode
  simp only [id_eq] at hnodes
  simp only [Transform.only_of_nodes, hnodes]
  split
  · exact Alike.throw.bind_eq hfg
  · exact (Alike.pure rfl).bind_eq hfg
  · exact Alike.throw.bind_eq hfg

variable (h : v.Alike R w)

include h

theorem visitExpr_alike (e : Expr) : Alike R (Answers id) (visitExpr v e) (visitExpr w e) := by
  cases e with
  | path p => exact h.path.answers p
  | sub call span => exact h.sub.answers ⟨call, span⟩
  | literal value span => exact h.literal.answers ⟨value, span⟩

theorem visitStatement_alike (s : Statement) :
    Alike R (Answers id) (visitStatement v s) (visitStatement w s) := by
  cases s with
  | mustache tag => exact h.mustache.answers tag
  | block tag program inverse => exact h.block.answers ⟨tag, program, inverse⟩
  | partialCall tag => exact h.partialCall.answers tag
  | comment c => exact h.comment.answers c
  | mustacheComment c => exact h.mustacheComment.answers c
  | text node => exact h.text.answers node
  | element tag children span => exact h.element.answers ⟨tag, children, span⟩

omit h in
theorem attrValueOf_alike (s : Statement) : Alike R Eq (attrValueOf s) (attrValueOf s) := by
  cases s
  case text | mustache => exact .pure rfl
  all_goals exact .throw

omit h in
theorem concatPartOf_alike (s : Statement) : Alike R Eq (concatPartOf s) (concatPartOf s) := by
  cases s
  case text | mustache => exact .pure rfl
  all_goals exact .throw

theorem visitPart_alike (part : ConcatPart) : Alike R Eq (visitPart v part) (visitPart w part) :=
  (visitStatement_alike h part.statement).nodes concatPartOf_alike

theorem visitAttrValue_alike (value : AttrValue) :
    Alike R Eq (visitAttrValue v value) (visitAttrValue w value) := by
  cases value with
  | text node => exact (visitStatement_alike h _).only _ _ attrValueOf_alike
  | mustache tag => exact (visitStatement_alike h _).only _ _ attrValueOf_alike
  | concat parts span =>
    exact (Alike.collect (visitPart_alike h) parts).map_eq (AttrValue.concat · span)

section Calls

variable {enter : Call Expr → Visit σ (Call Expr)} {enter' : Call Expr → Visit τ (Call Expr)}
  (hcall : ∀ call, Alike R Eq (enter call) (enter' call))

include hcall

omit h in
theorem enterExpr_alike (e : Expr) : Alike R Eq (enterExpr enter e) (enterExpr enter' e) := by
  cases e with
  | sub call span => exact (hcall call).map_eq (Expr.sub · span)
  | path | literal => exact .pure rfl

theorem walkSlot_alike (e : Expr) : Alike R Eq (walkSlot v enter e) (walkSlot w enter' e) :=
  (visitExpr_alike h e).only _ _ (enterExpr_alike hcall)

theorem walkItem_alike (e : Expr) : Alike R Eq (walkItem v enter e) (walkItem w enter' e) :=
  (visitExpr_alike h e).nodes (enterExpr_alike hcall)

theorem walkPair_alike (pair : Pair Expr) :
    Alike R Eq (walkPair v enter pair) (walkPair w enter' pair) :=
  (h.pair pair).runHook.nodes fun pair =>
    (walkSlot_alike h hcall pair.value).map_eq fun value => { pair with value }

omit h in
theorem enterMustache_alike (tag : MustacheTag) :
    Alike R Eq (enterMustache enter tag) (enterMustache enter' tag) :=
  (hcall tag.call).map_eq fun call => { tag with call }

omit h in
theorem enterPart_alike (part : ConcatPart) :
    Alike R Eq (enterPart enter part) (enterPart enter' part) := by
  cases part with
  | text node => exact .pure rfl
  | mustache tag => exact (enterMustache_alike hcall tag).map_eq _

omit h in
theorem enterAttrValue_alike (value : AttrValue) :
    Alike R Eq (enterAttrValue enter value) (enterAttrValue enter' value) := by
  cases value with
  | text node => exact .pure rfl
  | mustache tag => exact (enterMustache_alike hcall tag).map_eq _
  | concat parts span =>
    exact (Alike.mapM (enterPart_alike hcall) parts).map_eq (AttrValue.concat · span)

theorem walkAttr_alike (a : Attr) : Alike R Eq (walkAttr v enter a) (walkAttr w enter' a) :=
  (h.attr a).runHook.nodes fun a =>
    (visitAttrValue_alike h a.value).bind_eq fun value =>
      (enterAttrValue_alike hcall value).map_eq fun value => { a with value }

theorem walkModifier_alike (m : Modifier) :
    Alike R Eq (walkModifier v enter m) (walkModifier w enter' m) :=
  (h.modifier m).runHook.nodes fun m => (hcall m.call).map_eq fun call => { m with call }

theorem enterStatement_alike {body : List Statement → Visit σ (List Statement)}
    {body' : List Statement → Visit τ (List Statement)}
    (hbody : ∀ ss, Alike R Eq (body ss) (body' ss)) (s : Statement) :
    Alike R Eq (enterStatement v enter body s) (enterStatement w enter' body' s) := by
  cases s with
  | mustache tag => exact (enterMustache_alike hcall tag).map_eq _
  | block tag program inverse =>
    refine (hcall tag.call).bind_eq fun call => (hbody program.body).bind_eq fun main => ?_
    cases inverse with
    | none => exact .bind_eq (.pure rfl) fun _ => .pure rfl
    | some block =>
      exact (hbody block.body).bind_eq fun _ => .bind_eq (.pure rfl) fun _ => .pure rfl
  | partialCall tag =>
    exact (hcall tag.call).map_eq fun call => Statement.partialCall { tag with call }
  | element tag children span =>
    refine (Alike.collect (walkAttr_alike h hcall) tag.attributes).bind_eq fun attributes => ?_
    refine (Alike.collect (walkModifier_alike h hcall) tag.modifiers).bind_eq fun modifiers => ?_
    exact (hbody children).bind_eq fun _ => .pure rfl
  | comment | mustacheComment | text => exact .pure rfl

end Calls

theorem walkCall_alike (depth : Nat) (call : Call Expr) :
    Alike R Eq (walkCall v depth call) (walkCall w depth call) := by
  induction depth generalizing call with
  | zero => exact .throw
  | succ depth ih =>
    refine (walkSlot_alike h ih call.callee).bind_eq fun callee => ?_
    refine (Alike.collect (walkItem_alike h ih) call.params).bind_eq fun params => ?_
    exact (Alike.collect (walkPair_alike h ih) call.hash.pairs).bind_eq fun _ => .pure rfl

theorem walkStatements_alike (calls depth : Nat) (body : List Statement) :
    Alike R Eq (walkStatements v calls depth body) (walkStatements w calls depth body) := by
  induction depth generalizing body with
  | zero => exact .throw
  | succ depth ih =>
    refine .collect (fun s => ?_) body
    exact (visitStatement_alike h s).nodes (enterStatement_alike h (walkCall_alike h calls) ih)

/-- Visitors whose hooks answer alike walk a template alike. -/
theorem traverse_alike (depth : Nat) (t : Template) :
    Alike R Eq (traverse v depth t) (traverse w depth t) :=
  (walkStatements_alike h depth depth t.body).map_eq fun body => { t with body }

end Walks

/-! ### The log -/

theorem Hook.logged_alike {asNode : ν → TreeNode} {self : ν → α} (h : Hook σ ν α) :
    (h.logged asNode).Alike (fun p s => p.1 = s) self h := by
  rintro node ⟨s, log⟩ _ rfl
  simp only [Hook.logged]
  cases h node s with
  | ok answer s => exact .ok ⟨rfl, rfl⟩ rfl
  | error message s => exact .error rfl

theorem Hook.Alike.logged {asNode : ν → TreeNode} {self : ν → α} {h k : Hook σ ν α}
    (hhook : h.Alike Eq self k) : (h.logged asNode).Alike Eq self (k.logged asNode) := by
  rintro node ⟨s, log⟩ _ rfl
  have hresults := hhook node s s rfl
  simp only [Hook.logged]
  generalize h node s = p, k node s = q at hresults
  cases hresults with
  | ok ha hs => exact .ok ha (by rw [hs])
  | error hs => exact .error (by rw [hs])

/-- Writing the log changes nothing else about a walk. -/
theorem traverse_logged (v : Visitor σ) (depth : Nat) (t : Template) :
    Alike (fun p s => p.1 = s) Eq (traverse v.logged depth t) (traverse v depth t) :=
  traverse_alike
    { mustache := v.mustache.logged_alike
      block := v.block.logged_alike
      partialCall := v.partialCall.logged_alike
      comment := v.comment.logged_alike
      mustacheComment := v.mustacheComment.logged_alike
      text := v.text.logged_alike
      element := v.element.logged_alike
      attr := v.attr.logged_alike
      modifier := v.modifier.logged_alike
      path := v.path.logged_alike
      sub := v.sub.logged_alike
      literal := v.literal.logged_alike
      pair := v.pair.logged_alike } depth t

theorem Visitor.Alike.logged {v w : Visitor σ} (h : v.Alike Eq w) : v.logged.Alike Eq w.logged where
  mustache := h.mustache.logged
  block := h.block.logged
  partialCall := h.partialCall.logged
  comment := h.comment.logged
  mustacheComment := h.mustacheComment.logged
  text := h.text.logged
  element := h.element.logged
  attr := h.attr.logged
  modifier := h.modifier.logged
  path := h.path.logged
  sub := h.sub.logged
  literal := h.literal.logged
  pair := h.pair.logged

/-! ### Replacing a node by itself -/

/-- The answer with the node itself written out. -/
def Transform.replaceSelf (node : α) : Transform α → Transform α
  | keep => replace [node]
  | replace nodes => replace nodes

/-- The hook that replaces a node by itself where the given one keeps it. -/
def Hook.selfReplacing (self : ν → α) (hook : Hook σ ν α) : Hook σ ν α := fun node => do
  let (node, t) ← hook node
  return (node, t.replaceSelf (self node))

/-- The visitor that replaces a node by itself where the given one keeps it. -/
def Visitor.selfReplacing (v : Visitor σ) : Visitor σ where
  mustache := v.mustache.selfReplacing .mustache
  block := v.block.selfReplacing fun node => .block node.tag node.program node.inverse
  partialCall := v.partialCall.selfReplacing .partialCall
  comment := v.comment.selfReplacing .comment
  mustacheComment := v.mustacheComment.selfReplacing .mustacheComment
  text := v.text.selfReplacing .text
  element := v.element.selfReplacing fun node => .element node.tag node.children node.span
  attr := v.attr.selfReplacing id
  modifier := v.modifier.selfReplacing id
  path := v.path.selfReplacing .path
  sub := v.sub.selfReplacing fun node => .sub node.call node.span
  literal := v.literal.selfReplacing fun node => .literal node.value node.span
  pair := v.pair.selfReplacing id

@[simp]
theorem Transform.nodes_replaceSelf (node : α) (t : Transform α) :
    (t.replaceSelf node).nodes node = t.nodes node := by
  cases t <;> rfl

theorem Hook.selfReplacing_alike {self : ν → α} (h : Hook σ ν α) :
    (h.selfReplacing self).Alike Eq self h := by
  rintro node s _ rfl
  simp only [Hook.selfReplacing, Bind.bind, EStateM.bind]
  cases h node s with
  | ok answer s => exact .ok ⟨rfl, Transform.nodes_replaceSelf _ _⟩ rfl
  | error message s => exact .error rfl

theorem Visitor.selfReplacing_alike (v : Visitor σ) : v.selfReplacing.Alike Eq v where
  mustache := v.mustache.selfReplacing_alike
  block := v.block.selfReplacing_alike
  partialCall := v.partialCall.selfReplacing_alike
  comment := v.comment.selfReplacing_alike
  mustacheComment := v.mustacheComment.selfReplacing_alike
  text := v.text.selfReplacing_alike
  element := v.element.selfReplacing_alike
  attr := v.attr.selfReplacing_alike
  modifier := v.modifier.selfReplacing_alike
  path := v.path.selfReplacing_alike
  sub := v.sub.selfReplacing_alike
  literal := v.literal.selfReplacing_alike
  pair := v.pair.selfReplacing_alike

/-- A visitor and the one that replaces by itself each node it would keep walk every
template in the same way, to every depth: in the same state they end with the same
template or the same error, and call hooks on the same nodes in the same order. -/
theorem traverse_selfReplacing (v : Visitor σ) (depth : Nat) (t : Template) :
    traverse v.selfReplacing depth t = traverse v depth t ∧
      traverse v.selfReplacing.logged depth t = traverse v.logged depth t :=
  ⟨(traverse_alike v.selfReplacing_alike depth t).eq,
    (traverse_alike v.selfReplacing_alike.logged depth t).eq⟩

end TemplateCompiler.Template
