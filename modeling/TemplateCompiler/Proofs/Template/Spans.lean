/-
The spans of a template.

* `SpanTree` — the span of a node with those of the nodes in it;
* `Template.spanTree` — the spans of a template, of all its nodes;
* `SpanTree.Nested` — every span is in order and covers the spans in it;
* `FitIn` — spans that are nested and stand between two offsets;
* `bodiesWithin` — all lists of statements in a template;
* `Statement.Precedes` — how a statement stands to the next one of its list.
-/
import Mathlib.Data.List.Chain
import TemplateCompiler.Proofs.Template.Within
import TemplateCompiler.Template.Syntax

namespace TemplateCompiler

/-- A span covers another. -/
def Span.Covers (outer inner : Span) : Prop := outer.start ≤ inner.start ∧ inner.stop ≤ outer.stop

/-- The span of a node with those of the nodes in it. -/
inductive SpanTree where
  | node (span : Span) (children : List SpanTree)

namespace SpanTree

/-- The span of the node itself. -/
def span : SpanTree → Span
  | node span _ => span

/-- What is directly in the node. -/
def children : SpanTree → List SpanTree
  | node _ children => children

mutual

/-- A node and all nodes in it. -/
def within : SpanTree → List SpanTree
  | node span children => node span children :: withinAll children

/-- Nodes and all nodes in them. -/
def withinAll : List SpanTree → List SpanTree
  | [] => []
  | t :: rest => t.within ++ withinAll rest

end

/-- Spans are in order, and cover those in them. -/
inductive Nested : SpanTree → Prop
  | node {span : Span} {children : List SpanTree} (hspan : span.start ≤ span.stop)
    (hcovers : ∀ t ∈ children, span.Covers t.span) (hchildren : ∀ t ∈ children, t.Nested) :
    Nested (.node span children)

theorem Nested.start_le {t : SpanTree} (h : t.Nested) : t.span.start ≤ t.span.stop := by
  cases h with
  | node hspan hcovers hchildren => exact hspan

theorem Nested.covers {t child : SpanTree} (h : t.Nested) (hchild : child ∈ t.children) :
    t.span.Covers child.span := by
  cases h with
  | node hspan hcovers hchildren => exact hcovers child hchild

end SpanTree

/-! ### Spans between two offsets -/

/-- Spans are nested and stand between two offsets. -/
def FitIn (lo hi : Nat) (ts : List SpanTree) : Prop :=
  ∀ t ∈ ts, t.Nested ∧ lo ≤ t.span.start ∧ t.span.stop ≤ hi

namespace FitIn

variable {lo hi lo' hi' : Nat} {ts us : List SpanTree} {t : SpanTree}

theorem nil : FitIn lo hi [] := by
  intro t ht
  cases ht

theorem append_iff : FitIn lo hi (ts ++ us) ↔ FitIn lo hi ts ∧ FitIn lo hi us :=
  List.forall_mem_append

theorem append (hts : FitIn lo hi ts) (hus : FitIn lo hi us) : FitIn lo hi (ts ++ us) :=
  append_iff.mpr ⟨hts, hus⟩

theorem cons_iff : FitIn lo hi (t :: ts) ↔
    (t.Nested ∧ lo ≤ t.span.start ∧ t.span.stop ≤ hi) ∧ FitIn lo hi ts :=
  List.forall_mem_cons

theorem single (ht : t.Nested) (hlo : lo ≤ t.span.start) (hhi : t.span.stop ≤ hi) :
    FitIn lo hi [t] :=
  cons_iff.mpr ⟨⟨ht, hlo, hhi⟩, nil⟩

theorem mono (h : FitIn lo hi ts) (hlo : lo' ≤ lo) (hhi : hi ≤ hi') : FitIn lo' hi' ts := by
  intro t ht
  obtain ⟨hnested, hstart, hstop⟩ := h t ht
  exact ⟨hnested, Nat.le_trans hlo hstart, Nat.le_trans hstop hhi⟩

/-- A node is nested if all that is in it fits into its span. -/
theorem nested {span : Span} (hspan : span.start ≤ span.stop)
    (h : FitIn span.start span.stop ts) : (SpanTree.node span ts).Nested :=
  .node hspan (fun t ht => (h t ht).2) fun t ht => (h t ht).1

theorem node {span : Span} (hspan : span.start ≤ span.stop) (hlo : lo ≤ span.start)
    (hhi : span.stop ≤ hi) (h : FitIn span.start span.stop ts) : FitIn lo hi [.node span ts] :=
  single (nested hspan h) hlo hhi

/-- A node without parts. -/
theorem leaf {span : Span} (hspan : span.start ≤ span.stop) (hlo : lo ≤ span.start)
    (hhi : span.stop ≤ hi) : FitIn lo hi [.node span []] :=
  node hspan hlo hhi nil

theorem of_nested {span : Span} (h : (SpanTree.node span ts).Nested) :
    FitIn span.start span.stop ts := by
  cases h with
  | node hspan hcovers hchildren => exact fun t ht => ⟨hchildren t ht, hcovers t ht⟩

mutual

/-- What fits, fits with all that is in it. -/
theorem tree_within (t : SpanTree) {lo hi : Nat} (h : FitIn lo hi [t]) : FitIn lo hi t.within := by
  match t with
  | .node span children =>
    obtain ⟨⟨hnested, hlo, hhi⟩, -⟩ := cons_iff.mp h
    rw [SpanTree.within]
    exact cons_iff.mpr ⟨⟨hnested, hlo, hhi⟩, within children ((of_nested hnested).mono hlo hhi)⟩

theorem within (ts : List SpanTree) {lo hi : Nat} (h : FitIn lo hi ts) :
    FitIn lo hi (SpanTree.withinAll ts) := by
  match ts with
  | [] => exact nil
  | t :: rest =>
    rw [SpanTree.withinAll]
    obtain ⟨ht, hrest⟩ := cons_iff.mp h
    exact (tree_within t (cons_iff.mpr ⟨ht, nil⟩)).append (within rest hrest)

end

end FitIn

namespace Template

/-! ### The spans of a template -/

mutual

/-- The spans of an expression. -/
def Expr.spanTree : Expr → SpanTree
  | .path p => .node p.span []
  | .sub call span => .node span (callSpans call)
  | .literal _ span => .node span []

/-- The spans of a callee and its arguments. -/
def callSpans : Call Expr → List SpanTree
  | ⟨callee, params, hash⟩ =>
    callee.spanTree :: (exprSpans params ++ [.node hash.span (pairSpans hash.pairs)])

/-- The spans of expressions. -/
def exprSpans : List Expr → List SpanTree
  | [] => []
  | e :: rest => e.spanTree :: exprSpans rest

/-- The spans of named arguments. -/
def pairSpans : List (Pair Expr) → List SpanTree
  | [] => []
  | ⟨_, value, span⟩ :: rest => .node span [value.spanTree] :: pairSpans rest

end

/-- The spans of a tag that writes a value. -/
def MustacheTag.spanTree (tag : MustacheTag) : SpanTree := .node tag.span (callSpans tag.call)

/-- The spans of a tag that asks for another template. -/
def PartialTag.spanTree (tag : PartialTag) : SpanTree := .node tag.span (callSpans tag.call)

/-- The span of a comment. -/
def Comment.spanTree (c : Comment) : SpanTree := .node c.span []

/-- The span of a run of text. -/
def TextNode.spanTree (node : TextNode) : SpanTree := .node node.span []

/-- The spans of a part of an attribute value. -/
def ConcatPart.spanTree : ConcatPart → SpanTree
  | .text node => node.spanTree
  | .mustache tag => tag.spanTree

/-- The spans of an attribute value. -/
def AttrValue.spanTree : AttrValue → SpanTree
  | .text node => node.spanTree
  | .mustache tag => tag.spanTree
  | .concat parts span => .node span (parts.map ConcatPart.spanTree)

/-- The spans of an attribute. -/
def Attr.spanTree (attr : Attr) : SpanTree := .node attr.span [attr.value.spanTree]

/-- The spans of a modifier. -/
def Modifier.spanTree (m : Modifier) : SpanTree := .node m.span (callSpans m.call)

/-- The spans of what stands in a start tag. -/
def StartTag.spanTrees (tag : StartTag) : List SpanTree :=
  tag.attributes.map Attr.spanTree ++ (tag.modifiers.map Modifier.spanTree ++
    tag.comments.map Comment.spanTree)

mutual

/-- The spans of a statement. -/
def Statement.spanTree : Statement → SpanTree
  | .mustache tag => tag.spanTree
  | .partialCall tag => tag.spanTree
  | .comment c | .mustacheComment c => c.spanTree
  | .text node => node.spanTree
  | .block tag program inverse =>
    .node tag.span (callSpans tag.call ++ (blockSpans program :: otherSpans inverse))
  | .element tag children span => .node span (tag.spanTrees ++ statementSpans children)

/-- The spans of statements. -/
def statementSpans : List Statement → List SpanTree
  | [] => []
  | s :: rest => s.spanTree :: statementSpans rest

/-- The spans of a branch of a block. -/
def blockSpans : Block Statement → SpanTree
  | ⟨body, _, _, span⟩ => .node span (statementSpans body)

/-- The spans of a branch that may be missing. -/
def otherSpans : Option (Block Statement) → List SpanTree
  | none => []
  | some block => [blockSpans block]

end

theorem Expr.spanTree_span (e : Expr) : e.spanTree.span = e.span := by
  cases e <;> simp only [Expr.spanTree, SpanTree.span, Expr.span]

theorem AttrValue.spanTree_span (value : AttrValue) : value.spanTree.span = value.span := by
  cases value <;> rfl

theorem Statement.spanTree_span (s : Statement) : s.spanTree.span = s.span := by
  cases s <;> simp only [Statement.spanTree] <;> rfl

theorem StartTag.fitIn_iff {tag : StartTag} {lo hi : Nat} :
    FitIn lo hi tag.spanTrees ↔ FitIn lo hi (tag.attributes.map Attr.spanTree) ∧
      FitIn lo hi (tag.modifiers.map Modifier.spanTree) ∧
        FitIn lo hi (tag.comments.map Comment.spanTree) := by
  rw [StartTag.spanTrees, FitIn.append_iff, FitIn.append_iff]

theorem statementSpans_append (a b : List Statement) :
    statementSpans (a ++ b) = statementSpans a ++ statementSpans b := by
  induction a with
  | nil => simp [statementSpans]
  | cons s rest ih => simp only [List.cons_append, statementSpans, ih]

theorem mem_statementSpans {ss : List Statement} {s : Statement} (h : s ∈ ss) :
    s.spanTree ∈ statementSpans ss := by
  induction ss with
  | nil => cases h
  | cons first rest ih =>
    rw [statementSpans]
    rcases List.mem_cons.mp h with rfl | h
    · exact List.mem_cons_self
    · exact List.mem_cons_of_mem _ (ih h)

/-! ### Lists of statements -/

/-- The lists of statements directly in a statement. -/
def Statement.bodies : Statement → List (List Statement)
  | .block _ program inverse => program.body :: inverse.toList.map Block.body
  | .element _ children _ => [children]
  | _ => []

/-- The lists of statements in statements, at any depth. -/
def innerBodies (ss : List Statement) : List (List Statement) :=
  (statementsWithin ss).flatMap Statement.bodies

/-- Statements and all lists of statements in them. -/
def bodiesWithin (ss : List Statement) : List (List Statement) := ss :: innerBodies ss

theorem innerBodies_append (a b : List Statement) :
    innerBodies (a ++ b) = innerBodies a ++ innerBodies b := by
  rw [innerBodies, statementsWithin_append, List.flatMap_append]
  rfl

/-- A mustache. -/
def Statement.IsMustache : Statement → Prop
  | .mustache _ => True
  | _ => False

/-- An element or a comment of the markup: what is read from an angle bracket on. -/
def Statement.IsMarkup : Statement → Prop
  | .element _ _ _ | .comment _ => True
  | _ => False

/-- A statement stands to the next one of its list: it ends before the next one
starts, or it is a mustache inside of the tag or comment that follows it. -/
def Statement.Precedes (a b : Statement) : Prop :=
  a.span.stop ≤ b.span.start ∨ (a.IsMustache ∧ b.IsMarkup ∧ b.span.Covers a.span)

end Template

/-- The spans of a template. -/
def Template.spanTree (t : Template) : SpanTree := .node t.span (Template.statementSpans t.body)

end TemplateCompiler
