/-
What a walk visits.

A visitor that keeps every node leaves a template as it is, and its hooks are called
once on every node but one kind: comments in braces inside a start tag belong to the
element, and no hook is called on them.

* `nodeAt?` — the node at an address, which counts off the nodes inside each other;
* `Visitor.Keeps` — all hooks keep every node;
* `Covers` — a list of visits that has every address once, outer nodes first;
* `Walks` — a step of a walk that gives back what it is given and covers it;
* `traverse_visits` — what a walk over a template visits.

The parts of an attribute value in quotes are all visited before the walk goes into
the first of them, so the visits are not in the order of the addresses.  What holds
in general is that a node comes before those inside it. `Covers` and `Walks` are
relative to the depths looked at: visiting some nodes covers the addresses of length
one, going into them covers the longer ones.
-/
import Mathlib.Tactic.ByContra
import TemplateCompiler.Template.Parse
import TemplateCompiler.Proofs.Template.Replacing

namespace TemplateCompiler.Template

variable {σ α β ν : Type}

/-! ### Addresses -/

/-- The nodes of a call. -/
def callNodes (call : Call Expr) : List TreeNode :=
  .expr call.callee :: (call.params.map .expr ++ call.hash.pairs.map .pair)

/-- The nodes right inside an expression. -/
def Expr.inside : Expr → List TreeNode
  | .sub call _ => callNodes call
  | .path _ | .literal _ _ => []

/-- The nodes of the value of an attribute. -/
def AttrValue.nodes : AttrValue → List TreeNode
  | .text node => [.statement (.text node)]
  | .mustache tag => [.statement (.mustache tag)]
  | .concat parts _ => parts.map fun part => .statement part.statement

/-- The nodes right inside a statement. -/
def Statement.inside : Statement → List TreeNode
  | .mustache tag => callNodes tag.call
  | .block tag program inverse =>
    callNodes tag.call ++ program.body.map .statement
      ++ (inverse.elim [] fun block => block.body.map .statement)
  | .partialCall tag => callNodes tag.call
  | .element tag children _ =>
    tag.attributes.map .attr ++ tag.modifiers.map .modifier ++ tag.comments.map .note
      ++ children.map .statement
  | .comment _ | .mustacheComment _ | .text _ => []

/-- The nodes right inside a node. -/
def TreeNode.inside : TreeNode → List TreeNode
  | statement s => s.inside
  | attr a => a.value.nodes
  | modifier m => callNodes m.call
  | expr e => e.inside
  | pair p => [.expr p.value]
  | note _ => []

/-- Whether a node is a comment inside a start tag. -/
def TreeNode.isNote : TreeNode → Bool
  | note _ => true
  | _ => false

/-- The node at an address: at each step the address says which of the nodes. -/
def TreeNode.at? (nodes : List TreeNode) : List Nat → Option TreeNode
  | [] => none
  | [i] => nodes[i]?
  | i :: j :: rest => nodes[i]?.bind fun node => TreeNode.at? node.inside (j :: rest)

/-- The node of a template at an address. -/
def nodeAt? (t : Template) (address : List Nat) : Option TreeNode :=
  TreeNode.at? (t.body.map .statement) address

section Addresses

variable {nodes others : List TreeNode} {node : TreeNode} {i : Nat} {rest : List Nat}

theorem TreeNode.at?_nil_nodes (address : List Nat) : TreeNode.at? [] address = none := by
  match address with
  | [] | [_] | _ :: _ :: _ => simp [TreeNode.at?]

theorem TreeNode.at?_append_left (hi : i < nodes.length) :
    TreeNode.at? (nodes ++ others) (i :: rest) = TreeNode.at? nodes (i :: rest) := by
  cases rest <;> simp [TreeNode.at?, List.getElem?_append_left hi]

theorem TreeNode.at?_append_right :
    TreeNode.at? (nodes ++ others) ((i + nodes.length) :: rest) =
      TreeNode.at? others (i :: rest) := by
  cases rest <;> simp [TreeNode.at?, List.getElem?_append_right]

/-- An address begins within the nodes that it is looked up in. -/
theorem TreeNode.lt_length_of_at? (h : TreeNode.at? nodes (i :: rest) = some node) :
    i < nodes.length := by
  by_contra hi
  have hnone : nodes[i]? = none := List.getElem?_eq_none (by omega)
  cases rest <;> simp [TreeNode.at?, hnone] at h

theorem TreeNode.at?_singleton_cons (hrest : rest ≠ []) :
    TreeNode.at? [node] (0 :: rest) = TreeNode.at? node.inside rest := by
  cases rest with
  | nil => exact absurd rfl hrest
  | cons j rest => simp [TreeNode.at?]

/-- Nothing is inside a comment in a start tag. -/
theorem TreeNode.isNote_of_at?_notes (comments : List Comment) {address : List Nat}
    (h : TreeNode.at? (comments.map .note) address = some node) : node.isNote = true := by
  match address with
  | [] => cases h
  | [i] =>
    obtain ⟨c, -, rfl⟩ : ∃ c, comments[i]? = some c ∧ TreeNode.note c = node := by
      simpa [TreeNode.at?] using h
    rfl
  | i :: j :: rest =>
    obtain ⟨c, -, hinside⟩ :
        ∃ c, comments[i]? = some c ∧
          TreeNode.at? (TreeNode.note c).inside (j :: rest) = some node := by
      simpa [TreeNode.at?, Option.bind_eq_some_iff] using h
    rw [TreeNode.inside, TreeNode.at?_nil_nodes] at hinside
    cases hinside

end Addresses

/-! ### Lists of visits -/

/-- Visits of nodes at addresses. -/
abbrev Visits : Type := List (List Nat × TreeNode)

/-- The visits at other addresses. -/
def Visits.readdress (f : List Nat → List Nat) (visits : Visits) : Visits :=
  visits.map fun visit => (f visit.1, visit.2)

/-- The address with its first step moved on by so many. -/
def shift (count : Nat) : List Nat → List Nat
  | [] => []
  | i :: rest => (i + count) :: rest

/-- All depths. -/
def everywhere : Nat → Prop := fun _ => True

/-- The depth of the nodes themselves. -/
def onTop : Nat → Prop := fun depth => depth = 1

/-- The depths of what is inside the nodes. -/
def further : Nat → Prop := fun depth => 1 < depth

/-- The visits that cover all nodes but comments in start tags, at the depths that
`P` allows: every address once, and none after one that is inside it. -/
structure Covers (P : Nat → Prop) (nodes : List TreeNode) (visits : Visits) : Prop where
  mem_iff : ∀ address node, (address, node) ∈ visits ↔
    TreeNode.at? nodes address = some node ∧ node.isNote = false ∧ P address.length
  outerFirst : visits.Pairwise fun visit later => ¬later.1 <+: visit.1

section Covers

variable {P : Nat → Prop} {nodes others : List TreeNode} {node : TreeNode}
  {visits more : Visits} {address : List Nat}

theorem Visits.mem_readdress {f : List Nat → List Nat} :
    (address, node) ∈ visits.readdress f ↔ ∃ inner, (inner, node) ∈ visits ∧ f inner = address := by
  simp [Visits.readdress]

@[simp]
theorem Visits.map_snd_readdress (f : List Nat → List Nat) :
    (visits.readdress f).map Prod.snd = visits.map Prod.snd := by
  simp [Visits.readdress]

theorem Covers.ne_nil (h : Covers P nodes visits) (hmem : (address, node) ∈ visits) :
    address ≠ [] := by
  rintro rfl
  have hat := ((h.mem_iff _ _).mp hmem).1
  simp [TreeNode.at?] at hat

/-- An address comes before those that are inside it, so it comes once. -/
theorem Covers.nodup (h : Covers P nodes visits) : (visits.map Prod.fst).Nodup := by
  refine List.pairwise_map.mpr (h.outerFirst.imp fun {visit later} hprefix heq => hprefix ?_)
  exact heq ▸ List.prefix_refl visit.1

theorem Covers.nil : Covers P [] [] where
  mem_iff := by simp [TreeNode.at?_nil_nodes]
  outerFirst := .nil

/-- Comments in start tags are covered by no visit. -/
theorem Covers.notes (comments : List Comment) : Covers P (comments.map .note) [] where
  mem_iff address node := by
    simp only [List.not_mem_nil, false_iff, not_and]
    intro hat hnote
    simp [TreeNode.isNote_of_at?_notes comments hat] at hnote
  outerFirst := .nil

theorem Covers.top (hnote : node.isNote = false) : Covers onTop [node] [([0], node)] where
  mem_iff address other := by
    match address with
    | [] => simp [TreeNode.at?]
    | [0] =>
      simp only [TreeNode.at?, onTop, List.mem_singleton, Prod.mk.injEq, true_and]
      constructor
      · rintro rfl
        simp [hnote]
      · rintro ⟨hat, -, -⟩
        simpa using hat.symm
    | [i + 1] => simp [TreeNode.at?]
    | _ :: _ :: _ => simp [onTop]
  outerFirst := List.pairwise_singleton _ _

/-- The visits of what is inside a node, at their addresses from outside. -/
theorem Covers.under (h : Covers everywhere node.inside visits) :
    Covers further [node] (visits.readdress (0 :: ·)) where
  mem_iff address other := by
    rw [Visits.mem_readdress]
    constructor
    · rintro ⟨inner, hmem, rfl⟩
      obtain ⟨hat, hnote, -⟩ := (h.mem_iff _ _).mp hmem
      have hne := h.ne_nil hmem
      refine ⟨(TreeNode.at?_singleton_cons hne).trans hat, hnote, ?_⟩
      have := List.length_pos_iff.mpr hne
      simp only [further, List.length_cons]
      omega
    · rintro ⟨hat, hnote, hdepth⟩
      match address with
      | [] | [_] => simp [further] at hdepth
      | i :: j :: rest =>
        obtain rfl : i = 0 := by
          have := TreeNode.lt_length_of_at? hat
          simpa using this
        rw [TreeNode.at?_singleton_cons (List.cons_ne_nil _ _)] at hat
        exact ⟨j :: rest, (h.mem_iff _ _).mpr ⟨hat, hnote, trivial⟩, rfl⟩
  outerFirst := List.pairwise_map.mpr <| h.outerFirst.imp fun hprefix hcons =>
    hprefix (List.cons_prefix_cons.mp hcons).2

theorem shift_prefix_shift {count : Nat} {a b : List Nat} (ha : a ≠ []) :
    shift count a <+: shift count b ↔ a <+: b := by
  match a, b with
  | i :: a, [] => simp [shift]
  | i :: a, j :: b => simp [shift, List.cons_prefix_cons]

/-- The visits of some nodes, then those of the nodes after them. -/
theorem Covers.append (h : Covers P nodes visits) (hmore : Covers P others more) :
    Covers P (nodes ++ others) (visits ++ more.readdress (shift nodes.length)) where
  mem_iff address node := by
    rw [List.mem_append, Visits.mem_readdress]
    match address with
    | [] =>
      constructor
      · rintro (hmem | ⟨inner, hmem, hshift⟩)
        · exact absurd rfl (h.ne_nil hmem)
        · cases inner with
          | nil => exact absurd rfl (hmore.ne_nil hmem)
          | cons => cases hshift
      · rintro ⟨hat, -, -⟩
        cases hat
    | i :: rest =>
      constructor
      · rintro (hmem | ⟨inner, hmem, hshift⟩)
        · obtain ⟨hat, hkept⟩ := (h.mem_iff _ _).mp hmem
          exact ⟨(TreeNode.at?_append_left (TreeNode.lt_length_of_at? hat)).trans hat, hkept⟩
        · obtain ⟨hat, hkept⟩ := (hmore.mem_iff _ _).mp hmem
          cases inner with
          | nil => cases hshift
          | cons j rest =>
            cases hshift
            exact ⟨TreeNode.at?_append_right.trans hat, hkept⟩
      · rintro ⟨hat, hkept⟩
        by_cases hi : i < nodes.length
        · rw [TreeNode.at?_append_left hi] at hat
          exact .inl ((h.mem_iff _ _).mpr ⟨hat, hkept⟩)
        · obtain ⟨j, rfl⟩ : ∃ j, i = j + nodes.length := ⟨i - nodes.length, by omega⟩
          rw [TreeNode.at?_append_right] at hat
          exact .inr ⟨j :: rest, (hmore.mem_iff _ _).mpr ⟨hat, hkept⟩, rfl⟩
  outerFirst := by
    refine List.pairwise_append.mpr ⟨h.outerFirst, List.pairwise_map.mpr ?_, ?_⟩
    · refine hmore.outerFirst.imp_of_mem fun {visit later} _ hlater hprefix hshift => ?_
      exact hprefix ((shift_prefix_shift (hmore.ne_nil hlater)).mp hshift)
    · rintro ⟨first, node⟩ hfirst ⟨later, node'⟩ hlater hprefix
      obtain ⟨inner, hinner, rfl⟩ := Visits.mem_readdress.mp hlater
      -- The two begin with different steps.
      obtain ⟨i, rest, rfl⟩ := List.exists_cons_of_ne_nil (h.ne_nil hfirst)
      obtain ⟨j, rest', rfl⟩ := List.exists_cons_of_ne_nil (hmore.ne_nil hinner)
      have hi := TreeNode.lt_length_of_at? ((h.mem_iff _ _).mp hfirst).1
      have heq : j + nodes.length = i := (List.cons_prefix_cons.mp hprefix).1
      omega

/-- All nodes are visited, then what is inside them. -/
theorem Covers.join (h : Covers onTop nodes visits) (hmore : Covers further nodes more) :
    Covers everywhere nodes (visits ++ more) where
  mem_iff address node := by
    rw [List.mem_append, h.mem_iff, hmore.mem_iff]
    constructor
    · rintro (⟨hat, hnote, -⟩ | ⟨hat, hnote, -⟩) <;> exact ⟨hat, hnote, trivial⟩
    · rintro ⟨hat, hnote, -⟩
      match address with
      | [] => cases hat
      | [_] => exact .inl ⟨hat, hnote, rfl⟩
      | _ :: _ :: _ => exact .inr ⟨hat, hnote, by simp [further]⟩
  outerFirst := by
    refine List.pairwise_append.mpr ⟨h.outerFirst, hmore.outerFirst, ?_⟩
    rintro ⟨first, node⟩ hfirst ⟨later, node'⟩ hlater hprefix
    have htop : first.length = 1 := ((h.mem_iff _ _).mp hfirst).2.2
    have hdepth : 1 < later.length := ((hmore.mem_iff _ _).mp hlater).2.2
    have hle : later.length ≤ first.length := hprefix.length_le
    omega

end Covers

/-! ### Visitors that keep every node -/

/-- The state after a hook was called on a node. -/
def Hook.after (hook : Hook σ ν α) (node : ν) (s : σ) : σ :=
  match hook node s with
  | .ok _ s | .error _ s => s

/-- The hook keeps every node. -/
def Hook.Keeps (hook : Hook σ ν α) : Prop :=
  ∀ node s, hook node s = .ok (node, .keep) (hook.after node s)

/-- All hooks keep every node. -/
structure Visitor.Keeps (v : Visitor σ) : Prop where
  mustache : v.mustache.Keeps
  block : v.block.Keeps
  partialCall : v.partialCall.Keeps
  comment : v.comment.Keeps
  mustacheComment : v.mustacheComment.Keeps
  text : v.text.Keeps
  element : v.element.Keeps
  attr : v.attr.Keeps
  modifier : v.modifier.Keeps
  path : v.path.Keeps
  sub : v.sub.Keeps
  literal : v.literal.Keeps
  pair : v.pair.Keeps

/-- The state after the hook for a node was called on it. -/
def Visitor.after (v : Visitor σ) (s : σ) : TreeNode → σ
  | .statement (.mustache tag) => v.mustache.after tag s
  | .statement (.block tag program inverse) => v.block.after ⟨tag, program, inverse⟩ s
  | .statement (.partialCall tag) => v.partialCall.after tag s
  | .statement (.comment c) => v.comment.after c s
  | .statement (.mustacheComment c) => v.mustacheComment.after c s
  | .statement (.text node) => v.text.after node s
  | .statement (.element tag children span) => v.element.after ⟨tag, children, span⟩ s
  | .attr a => v.attr.after a s
  | .modifier m => v.modifier.after m s
  | .expr (.path p) => v.path.after p s
  | .expr (.sub call span) => v.sub.after ⟨call, span⟩ s
  | .expr (.literal value span) => v.literal.after ⟨value, span⟩ s
  | .pair p => v.pair.after p s
  | .note c => v.mustacheComment.after c s

theorem Hook.Keeps.runHook {hook : Hook σ ν α} (h : hook.Keeps) (node : ν) (s : σ) :
    runHook (hook node) s = .ok (node, .keep) (hook.after node s) := by
  simp only [Template.runHook, h node s]

theorem Hook.Keeps.logged {hook : Hook σ ν α} (h : hook.Keeps) (asNode : ν → TreeNode) :
    (hook.logged asNode).Keeps := by
  rintro node ⟨s, log⟩
  have hnode := h node s
  simp only [Hook.after, Hook.logged]
  rw [hnode]

theorem Visitor.Keeps.logged {v : Visitor σ} (h : v.Keeps) : v.logged.Keeps where
  mustache := h.mustache.logged _
  block := h.block.logged _
  partialCall := h.partialCall.logged _
  comment := h.comment.logged _
  mustacheComment := h.mustacheComment.logged _
  text := h.text.logged _
  element := h.element.logged _
  attr := h.attr.logged _
  modifier := h.modifier.logged _
  path := h.path.logged _
  sub := h.sub.logged _
  literal := h.literal.logged _
  pair := h.pair.logged _

/-- The log grows by the node that a hook is called on. -/
theorem Hook.after_logged (hook : Hook σ ν α) (asNode : ν → TreeNode) (node : ν) (s : σ)
    (log : List TreeNode) :
    (hook.logged asNode).after node (s, log) = (hook.after node s, log ++ [asNode node]) := by
  simp only [Hook.after, Hook.logged]
  cases hook node s <;> rfl

theorem Visitor.after_logged (v : Visitor σ) (s : σ) (log : List TreeNode) {node : TreeNode}
    (hnote : node.isNote = false) :
    v.logged.after (s, log) node = (v.after s node, log ++ [node]) := by
  match node with
  | .note _ => cases hnote
  | .statement s => cases s <;> simp only [Visitor.after, Visitor.logged, Hook.after_logged]
  | .expr e => cases e <;> simp only [Visitor.after, Visitor.logged, Hook.after_logged]
  | .attr _ | .modifier _ | .pair _ =>
    simp only [Visitor.after, Visitor.logged, Hook.after_logged]

theorem Visitor.foldl_after_logged (v : Visitor σ) (nodes : List TreeNode)
    (hnotes : ∀ node ∈ nodes, node.isNote = false) (s : σ) (log : List TreeNode) :
    nodes.foldl v.logged.after (s, log) = (nodes.foldl v.after s, log ++ nodes) := by
  induction nodes generalizing s log with
  | nil => simp
  | cons node rest ih =>
    obtain ⟨hnode, hrest⟩ := List.forall_mem_cons.mp hnotes
    rw [List.foldl_cons, v.after_logged s log hnode, ih hrest, ← List.append_cons, List.foldl_cons]

/-! ### Steps of a walk -/

/-- A step of a walk with a visitor that keeps every node gives back `x`, and calls the
hooks on a list of nodes that covers the given ones. -/
def Walks (P : Nat → Prop) (nodes : List TreeNode) (x : α)
    (step : {σ : Type} → Visitor σ → Visit σ α) : Prop :=
  ∃ visits, Covers P nodes visits ∧ ∀ {σ : Type} (v : Visitor σ), v.Keeps → ∀ s,
    step v s = .ok x ((visits.map Prod.snd).foldl v.after s)

section Walks

variable {P : Nat → Prop} {nodes others : List TreeNode} {x : α} {y : β}
  {step : {σ : Type} → Visitor σ → Visit σ α}

theorem Walks.pure : Walks P [] x fun _ => pure x :=
  ⟨[], .nil, fun _ _ _ => rfl⟩

theorem Walks.bind {next : {σ : Type} → Visitor σ → α → Visit σ β} (h : Walks P nodes x step)
    (hnext : Walks P others y fun v => next v x) :
    Walks P (nodes ++ others) y fun v => step v >>= next v := by
  obtain ⟨visits, hcovers, hstep⟩ := h
  obtain ⟨more, hmore, hnext⟩ := hnext
  refine ⟨_, hcovers.append hmore, fun v hkeeps s => ?_⟩
  simp only [Bind.bind, EStateM.bind, hstep v hkeeps, hnext v hkeeps, List.map_append,
    Visits.map_snd_readdress, List.foldl_append]

/-- From what is given back, something else is made. -/
theorem Walks.answer {next : {σ : Type} → Visitor σ → α → Visit σ β} (h : Walks P nodes x step)
    (hnext : ∀ {σ : Type} (v : Visitor σ), next v x = Pure.pure y) :
    Walks P nodes y fun v => step v >>= next v := by
  obtain ⟨visits, hcovers, hstep⟩ := h
  refine ⟨visits, hcovers, fun v hkeeps s => ?_⟩
  simp only [Bind.bind, EStateM.bind, hstep v hkeeps, hnext]
  rfl

theorem Walks.map (h : Walks P nodes x step) (f : α → β) :
    Walks P nodes (f x) fun v => do return f (← step v) :=
  h.answer fun _ => rfl

/-- Comments in start tags are passed over. -/
theorem Walks.notes (h : Walks P nodes x step) (comments : List Comment) :
    Walks P (comments.map .note ++ nodes) x step := by
  obtain ⟨visits, hcovers, hstep⟩ := h
  refine ⟨_, (Covers.notes comments).append hcovers, fun v hkeeps s => ?_⟩
  simpa using hstep v hkeeps s

/-- Going into a node covers what is further down. -/
theorem Walks.under (node : TreeNode) (h : Walks everywhere node.inside x step) :
    Walks further [node] x step := by
  obtain ⟨visits, hcovers, hstep⟩ := h
  refine ⟨_, hcovers.under, fun v hkeeps s => ?_⟩
  simpa using hstep v hkeeps s

/-- Nodes are visited, then the walk goes into them. -/
theorem Walks.enter {next : {σ : Type} → Visitor σ → α → Visit σ β} (h : Walks onTop nodes x step)
    (hnext : Walks further nodes y fun v => next v x) :
    Walks everywhere nodes y fun v => step v >>= next v := by
  obtain ⟨visits, hcovers, hstep⟩ := h
  obtain ⟨more, hmore, hnext⟩ := hnext
  refine ⟨_, hcovers.join hmore, fun v hkeeps s => ?_⟩
  simp only [Bind.bind, EStateM.bind, hstep v hkeeps, hnext v hkeeps, List.map_append,
    List.foldl_append]

/-- A hook is called on its node. -/
theorem Walks.hook (hook : {σ : Type} → Visitor σ → Hook σ ν α) {node : ν} {treeNode : TreeNode}
    (hnote : treeNode.isNote = false)
    (hhook : ∀ {σ : Type} {v : Visitor σ}, v.Keeps →
      (hook v).Keeps ∧ ∀ s, v.after s treeNode = (hook v).after node s) :
    Walks onTop [treeNode] (node, .keep) fun v => runHook (hook v node) := by
  refine ⟨_, .top hnote, fun v hkeeps s => ?_⟩
  obtain ⟨hkeeps, hafter⟩ := hhook hkeeps
  simp only [hkeeps.runHook, List.map_cons, List.map_nil, List.foldl_cons, List.foldl_nil, hafter]

/-- A hook is called on its node, which is then taken as a node of another type. -/
theorem Walks.visit (hook : {σ : Type} → Visitor σ → Hook σ ν α) (self : ν → α) {node : ν}
    {treeNode : TreeNode} (hnote : treeNode.isNote = false)
    (hhook : ∀ {σ : Type} {v : Visitor σ}, v.Keeps →
      (hook v).Keeps ∧ ∀ s, v.after s treeNode = (hook v).after node s) :
    Walks onTop [treeNode] (self node, .keep) fun v => do
      let (node, t) ← runHook (hook v node)
      return (self node, t) :=
  (Walks.hook hook hnote hhook).map fun (node, t) => (self node, t)

theorem Walks.collect {step : {σ : Type} → Visitor σ → α → Visit σ (List α)}
    {asNode : α → TreeNode} {items : List α}
    (h : ∀ a ∈ items, Walks P [asNode a] [a] fun v => step v a) :
    Walks P (items.map asNode) items fun v => collect (step v) items := by
  induction items with
  | nil => exact .pure
  | cons a rest ih =>
    obtain ⟨ha, hrest⟩ := List.forall_mem_cons.mp h
    exact ha.bind ((ih hrest).map (a :: ·))

theorem Walks.mapM {step : {σ : Type} → Visitor σ → α → Visit σ α}
    {asNode : α → TreeNode} {items : List α}
    (h : ∀ a ∈ items, Walks P [asNode a] a fun v => step v a) :
    Walks P (items.map asNode) items fun v => items.mapM (step v) := by
  induction items with
  | nil => exact .pure
  | cons a rest ih =>
    obtain ⟨ha, hrest⟩ := List.forall_mem_cons.mp h
    simp only [List.mapM_cons]
    exact ha.bind ((ih hrest).map (a :: ·))

/-- Of a list that holds one node, one is gone into. -/
theorem Walks.singleton {step : {σ : Type} → Visitor σ → α → Visit σ α}
    (h : Walks P nodes x fun v => step v x) :
    Walks P nodes [x] fun v => ((Transform.keep : Transform α).nodes x).mapM (step v) := by
  simp only [Transform.nodes, List.mapM_cons, List.mapM_nil, pure_bind]
  exact h.map fun x => [x]

end Walks

/-! ### Calls -/

theorem Expr.depth_le_of_mem {e : Expr} {params : List Expr} (h : e ∈ params) :
    e.depth ≤ exprsDepth params := by
  induction params with
  | nil => cases h
  | cons first rest ih =>
    rw [exprsDepth]
    rcases List.mem_cons.mp h with rfl | hrest
    · exact Nat.le_max_left _ _
    · exact Nat.le_trans (ih hrest) (Nat.le_max_right _ _)

theorem Pair.depth_le_of_mem {pair : Pair Expr} {pairs : List (Pair Expr)} (h : pair ∈ pairs) :
    pair.value.depth ≤ pairsDepth pairs := by
  induction pairs with
  | nil => cases h
  | cons first rest ih =>
    rw [pairsDepth]
    rcases List.mem_cons.mp h with rfl | hrest
    · exact Nat.le_max_left _ _
    · exact Nat.le_trans (ih hrest) (Nat.le_max_right _ _)

theorem visitExpr_walks (e : Expr) :
    Walks onTop [.expr e] (e, .keep) fun v => visitExpr v e := by
  cases e with
  | path p => exact .visit (fun v => v.path) Expr.path rfl fun h => ⟨h.path, fun _ => rfl⟩
  | sub call span =>
    exact .visit (fun v => v.sub) (fun node => Expr.sub node.call node.span) rfl
      fun h => ⟨h.sub, fun _ => rfl⟩
  | literal value span =>
    exact .visit (fun v => v.literal) (fun node => Expr.literal node.value node.span) rfl
      fun h => ⟨h.literal, fun _ => rfl⟩

section Calls

variable {depth : Nat}
  (hcall : ∀ call, callDepth call ≤ depth →
    Walks everywhere (callNodes call) call fun v => walkCall v depth call)

include hcall

theorem enterExpr_walks {e : Expr} (hdepth : e.depth ≤ depth) :
    Walks everywhere e.inside e fun v => enterExpr (walkCall v depth) e := by
  cases e with
  | sub call span =>
    rw [Expr.depth] at hdepth
    exact (hcall call hdepth).map fun call => Expr.sub call span
  | path | literal => exact .pure

theorem walkSlot_walks {e : Expr} (hdepth : e.depth ≤ depth) :
    Walks everywhere [.expr e] e fun v => walkSlot v (walkCall v depth) e :=
  (visitExpr_walks e).enter (.under (.expr e) (enterExpr_walks hcall hdepth))

theorem walkItem_walks {e : Expr} (hdepth : e.depth ≤ depth) :
    Walks everywhere [.expr e] [e] fun v => walkItem v (walkCall v depth) e :=
  (visitExpr_walks e).enter (.singleton (.under (.expr e) (enterExpr_walks hcall hdepth)))

theorem walkPair_walks {pair : Pair Expr} (hdepth : pair.value.depth ≤ depth) :
    Walks everywhere [.pair pair] [pair] fun v => walkPair v (walkCall v depth) pair := by
  refine (Walks.hook (fun v => v.pair) rfl fun h => ⟨h.pair, fun _ => rfl⟩).enter ?_
  refine .singleton (.under (.pair pair) ?_)
  exact (walkSlot_walks hcall hdepth).map fun value => { pair with value }

end Calls

theorem walkCall_walks {depth : Nat} {call : Call Expr} (hdepth : callDepth call ≤ depth) :
    Walks everywhere (callNodes call) call fun v => walkCall v depth call := by
  induction depth generalizing call with
  | zero =>
    rw [callDepth] at hdepth
    omega
  | succ depth ih =>
    obtain ⟨callee, params, hash⟩ := call
    have hcallee : callee.depth ≤ depth := by rw [callDepth] at hdepth; omega
    have hparams : exprsDepth params ≤ depth := by rw [callDepth] at hdepth; omega
    have hpairs : pairsDepth hash.pairs ≤ depth := by rw [callDepth] at hdepth; omega
    have hcall : ∀ call, callDepth call ≤ depth →
        Walks everywhere (callNodes call) call fun v => walkCall v depth call := fun _ => ih
    have hitems : Walks everywhere (params.map .expr) params
        fun v => collect (walkItem v (walkCall v depth)) params :=
      .collect fun e he =>
        walkItem_walks hcall (Nat.le_trans (Expr.depth_le_of_mem he) hparams)
    have hnamed : Walks everywhere (hash.pairs.map .pair) hash.pairs
        fun v => collect (walkPair v (walkCall v depth)) hash.pairs :=
      .collect fun pair hpair =>
        walkPair_walks hcall (Nat.le_trans (Pair.depth_le_of_mem hpair) hpairs)
    exact (walkSlot_walks hcall hcallee).bind (hitems.bind (hnamed.map fun pairs =>
      (⟨callee, params, { hash with pairs }⟩ : Call Expr)))

/-! ### Attributes and modifiers -/

theorem le_largest_of_mem (measure : α → Nat) {a : α} {items : List α} (h : a ∈ items) :
    measure a ≤ largest measure items := by
  induction items with
  | nil => cases h
  | cons first rest ih =>
    rw [largest, List.foldr_cons]
    rcases List.mem_cons.mp h with rfl | hrest
    · exact Nat.le_max_left _ _
    · exact Nat.le_trans (ih hrest) (Nat.le_max_right _ _)

theorem visitStatement_walks (s : Statement) :
    Walks onTop [.statement s] (s, .keep) fun v => visitStatement v s := by
  cases s with
  | mustache tag =>
    exact .visit (fun v => v.mustache) Statement.mustache rfl fun h => ⟨h.mustache, fun _ => rfl⟩
  | block tag program inverse =>
    exact .visit (fun v => v.block)
      (fun node => Statement.block node.tag node.program node.inverse) rfl
      fun h => ⟨h.block, fun _ => rfl⟩
  | partialCall tag =>
    exact .visit (fun v => v.partialCall) Statement.partialCall rfl
      fun h => ⟨h.partialCall, fun _ => rfl⟩
  | comment c =>
    exact .visit (fun v => v.comment) Statement.comment rfl fun h => ⟨h.comment, fun _ => rfl⟩
  | mustacheComment c =>
    exact .visit (fun v => v.mustacheComment) Statement.mustacheComment rfl
      fun h => ⟨h.mustacheComment, fun _ => rfl⟩
  | text node =>
    exact .visit (fun v => v.text) Statement.text rfl fun h => ⟨h.text, fun _ => rfl⟩
  | element tag children span =>
    exact .visit (fun v => v.element)
      (fun node => Statement.element node.tag node.children node.span) rfl
      fun h => ⟨h.element, fun _ => rfl⟩

theorem visitPart_walks (part : ConcatPart) :
    Walks onTop [.statement part.statement] [part] fun v => visitPart v part :=
  (visitStatement_walks part.statement).answer fun _ => by cases part <;> rfl

theorem visitAttrValue_walks (value : AttrValue) :
    Walks onTop value.nodes value fun v => visitAttrValue v value := by
  cases value with
  | text node => exact (visitStatement_walks (.text node)).answer fun _ => rfl
  | mustache tag => exact (visitStatement_walks (.mustache tag)).answer fun _ => rfl
  | concat parts span =>
    have hparts : Walks onTop (parts.map fun part => .statement part.statement) parts
        fun v => collect (visitPart v) parts := .collect fun part _ => visitPart_walks part
    exact hparts.map fun parts => AttrValue.concat parts span

theorem enterMustache_walks {tag : MustacheTag} {calls : Nat}
    (hdepth : callDepth tag.call ≤ calls) :
    Walks everywhere (callNodes tag.call) tag fun v => enterMustache (walkCall v calls) tag :=
  (walkCall_walks hdepth).map fun call => { tag with call }

theorem enterPart_walks {part : ConcatPart} {calls : Nat} (hdepth : part.depth ≤ calls) :
    Walks further [.statement part.statement] part fun v => enterPart (walkCall v calls) part := by
  cases part with
  | text node => exact .under (.statement (.text node)) .pure
  | mustache tag =>
    exact .under (.statement (.mustache tag)) ((enterMustache_walks hdepth).map ConcatPart.mustache)

theorem enterAttrValue_walks {value : AttrValue} {calls : Nat} (hdepth : value.depth ≤ calls) :
    Walks further value.nodes value fun v => enterAttrValue (walkCall v calls) value := by
  cases value with
  | text node => exact .under (.statement (.text node)) .pure
  | mustache tag =>
    exact .under (.statement (.mustache tag)) ((enterMustache_walks hdepth).map AttrValue.mustache)
  | concat parts span =>
    have hparts : Walks further (parts.map fun part => .statement part.statement) parts
        fun v => parts.mapM (enterPart (walkCall v calls)) :=
      .mapM fun part hpart => enterPart_walks (Nat.le_trans (le_largest_of_mem _ hpart) hdepth)
    exact hparts.map fun parts => AttrValue.concat parts span

theorem walkAttr_walks {a : Attr} {calls : Nat} (hdepth : a.value.depth ≤ calls) :
    Walks everywhere [.attr a] [a] fun v => walkAttr v (walkCall v calls) a := by
  refine (Walks.hook (fun v => v.attr) rfl fun h => ⟨h.attr, fun _ => rfl⟩).enter ?_
  refine .singleton (.under (.attr a) ?_)
  exact (visitAttrValue_walks a.value).enter
    ((enterAttrValue_walks hdepth).map fun value => { a with value })

theorem walkModifier_walks {m : Modifier} {calls : Nat} (hdepth : callDepth m.call ≤ calls) :
    Walks everywhere [.modifier m] [m] fun v => walkModifier v (walkCall v calls) m := by
  refine (Walks.hook (fun v => v.modifier) rfl fun h => ⟨h.modifier, fun _ => rfl⟩).enter ?_
  refine .singleton (.under (.modifier m) ?_)
  exact (walkCall_walks hdepth).map fun call => { m with call }

/-! ### Statements -/

theorem Statement.depth_lt_of_mem {s : Statement} {body : List Statement} (h : s ∈ body) :
    s.depth < bodyDepth body := by
  induction body with
  | nil => cases h
  | cons first rest ih =>
    rw [bodyDepth]
    rcases List.mem_cons.mp h with rfl | hrest
    · omega
    · have := ih hrest
      omega

theorem one_le_bodyDepth (body : List Statement) : 1 ≤ bodyDepth body := by
  induction body with
  | nil => exact Nat.le_refl 1
  | cons first rest ih =>
    rw [bodyDepth]
    omega

section Bodies

variable {calls depth : Nat}
  (hbody : ∀ body, bodyDepth body ≤ calls → bodyDepth body ≤ depth →
    Walks everywhere (body.map .statement) body fun v => walkStatements v calls depth body)

include hbody

theorem enterStatement_walks {s : Statement} (hcalls : s.depth ≤ calls) (hdepth : s.depth ≤ depth) :
    Walks everywhere s.inside s
      fun v => enterStatement v (walkCall v calls) (walkStatements v calls depth) s := by
  cases s with
  | mustache tag => exact (enterMustache_walks hcalls).map Statement.mustache
  | partialCall tag =>
    exact (walkCall_walks hcalls).map fun call => Statement.partialCall { tag with call }
  | block tag program inverse =>
    obtain ⟨body, params, chained, span⟩ := program
    rw [Statement.depth, blockDepth] at hcalls hdepth
    have hcall : callDepth tag.call ≤ calls := by omega
    have hmain := hbody body (by omega) (by omega)
    rw [Statement.inside, List.append_assoc]
    refine (walkCall_walks hcall).bind (hmain.bind ?_)
    cases inverse with
    | none => exact .pure
    | some block =>
      obtain ⟨other, otherParams, otherChained, otherSpan⟩ := block
      rw [inverseDepth, blockDepth] at hcalls hdepth
      exact (hbody other (by omega) (by omega)).answer fun _ => rfl
  | element tag children span =>
    rw [Statement.depth, StartTag.depth] at hcalls
    rw [Statement.depth] at hdepth
    -- Each part is no deeper than the tag, so the fuel for calls is enough.
    have hattributes : Walks everywhere (tag.attributes.map .attr) tag.attributes
        fun v => collect (walkAttr v (walkCall v calls)) tag.attributes :=
      .collect fun a ha => walkAttr_walks (by
        have := le_largest_of_mem (fun attr : Attr => attr.value.depth) ha
        omega)
    have hmodifiers : Walks everywhere (tag.modifiers.map .modifier) tag.modifiers
        fun v => collect (walkModifier v (walkCall v calls)) tag.modifiers :=
      .collect fun m hm => walkModifier_walks (by
        have := le_largest_of_mem (fun m : Modifier => callDepth m.call) hm
        omega)
    have hchildren := hbody children (by omega) (by omega)
    rw [Statement.inside, List.append_assoc, List.append_assoc]
    exact hattributes.bind (hmodifiers.bind (.notes (hchildren.map fun children =>
      Statement.element tag children span) tag.comments))
  | comment | mustacheComment | text => exact .pure

end Bodies

theorem walkStatements_walks {calls depth : Nat} {body : List Statement}
    (hcalls : bodyDepth body ≤ calls) (hdepth : bodyDepth body ≤ depth) :
    Walks everywhere (body.map .statement) body fun v => walkStatements v calls depth body := by
  induction depth generalizing body with
  | zero =>
    have : 1 ≤ bodyDepth body := one_le_bodyDepth body
    omega
  | succ depth ih =>
    refine .collect fun s hs => ?_
    have hs := Statement.depth_lt_of_mem hs
    exact (visitStatement_walks s).enter (.singleton (.under (.statement s)
      (enterStatement_walks (fun _ => ih) (by omega) (by omega))))

/-! ### Templates -/

/-- A visitor that keeps every node leaves a template as it is.  Its hooks are called on
the nodes at all addresses but those of comments in start tags, once at each, and on a
node before those inside it. -/
theorem traverse_visits {v : Visitor σ} (hkeeps : v.Keeps) (t : Template) {depth : Nat}
    (hdepth : t.depth ≤ depth) (s : σ) :
    ∃ (visits : Visits) (s' : σ),
      traverse v depth t s = .ok t s' ∧
      traverse v.logged depth t (s, []) = .ok t (s', visits.map Prod.snd) ∧
      (visits.map Prod.fst).Nodup ∧
      (∀ address node, (address, node) ∈ visits ↔
        t.nodeAt? address = some node ∧ node.isNote = false) ∧
      visits.Pairwise fun visit later => ¬later.1 <+: visit.1 := by
  have hwalks : Walks everywhere (t.body.map .statement) t fun v => traverse v depth t :=
    (walkStatements_walks hdepth hdepth).map fun body => { t with body }
  obtain ⟨visits, hcovers, hstep⟩ := hwalks
  have hnotes : ∀ node ∈ visits.map Prod.snd, node.isNote = false := by
    intro node hnode
    obtain ⟨⟨address, node⟩, hmem, rfl⟩ := List.mem_map.mp hnode
    exact ((hcovers.mem_iff _ _).mp hmem).2.1
  refine ⟨visits, _, hstep v hkeeps s, ?_, hcovers.nodup, fun address node => ?_,
    hcovers.outerFirst⟩
  · have hlog := hstep v.logged hkeeps.logged (s, [])
    rwa [v.foldl_after_logged _ hnotes, List.nil_append] at hlog
  · simp [hcovers.mem_iff, everywhere, nodeAt?]

/-- A visitor that keeps every node and counts the texts. -/
def countsTexts : Visitor Nat where
  text := fun node count => .ok (node, .keep) (count + 1)

theorem countsTexts_keeps : countsTexts.Keeps where
  text _ _ := rfl
  mustache _ _ := rfl
  block _ _ := rfl
  partialCall _ _ := rfl
  comment _ _ := rfl
  mustacheComment _ _ := rfl
  element _ _ := rfl
  attr _ _ := rfl
  modifier _ _ := rfl
  path _ _ := rfl
  sub _ _ := rfl
  literal _ _ := rfl
  pair _ _ := rfl

/-- An element with a comment in its start tag. -/
def commentInTag : Source := ⟨"<div {{!c}}></div>", ""⟩

/-- The tokens of `commentInTag`. -/
def commentInTagTokens : List Mustache.Token :=
  [⟨.content "<div ", ⟨0, 5⟩⟩, ⟨.comment "c" {}, ⟨5, 11⟩⟩, ⟨.content "></div>", ⟨11, 18⟩⟩,
    ⟨.eof, ⟨18, 18⟩⟩]

/-- The tree of `commentInTag`. -/
def commentedElement : Template where
  body := [.element { name := "div", comments := [⟨"c", ⟨5, 11⟩⟩] } [] ⟨0, 18⟩]
  span := ⟨0, 18⟩

theorem traverse_visits_commentedElement :
    countsTexts.Keeps ∧ commentedElement.depth ≤ 2 ∧
      ∃ (visits : Visits) (count : Nat),
        traverse countsTexts 2 commentedElement 0 = .ok commentedElement count ∧
        traverse countsTexts.logged 2 commentedElement (0, []) =
          .ok commentedElement (count, visits.map Prod.snd) ∧
        (visits.map Prod.fst).Nodup ∧
        (∀ address node, (address, node) ∈ visits ↔
          commentedElement.nodeAt? address = some node ∧ node.isNote = false) ∧
        visits.Pairwise fun visit later => ¬later.1 <+: visit.1 := by
  have hdepth : commentedElement.depth ≤ 2 := by decide
  exact ⟨countsTexts_keeps, hdepth, traverse_visits countsTexts_keeps commentedElement hdepth 0⟩

/-- No hook is called on the comment: the walk only visits the element. -/
theorem traverse_skips_comment :
    parse commentInTag .precompile = .ok (commentedElement, []) ∧
      commentedElement.nodeAt? [0, 0] = some (.note ⟨"c", ⟨5, 11⟩⟩) ∧
      traverse countsTexts.logged 2 commentedElement (0, []) =
        .ok commentedElement (0, commentedElement.body.map .statement) := by
  have hlex : Mustache.lex commentInTag.text = commentInTagTokens := by decide +kernel
  have hprogram : Mustache.parseProgram commentInTagTokens = .ok _ := rfl
  refine ⟨?_, rfl, rfl⟩
  rw [parse, hlex, hprogram]
  -- Only the texts are run; the statements are laid open before.
  show build commentInTag .precompile ⟨[.content _, .comment _ _ _, .content _], _, _, _⟩ = _
  simp only [build, Builder.program, Builder.nodes, Builder.node]
  with_unfolding_all rfl

end TemplateCompiler.Template
