/-
Building a tree without looking at places.

Programs of one shape are built into trees that differ in formatting only, as long
as nothing that changed is quoted in a comment of the markup.

* `Together` — two computations that fail together, or come to related results;
* `Builder.Alike` — two builders that have come to the same, but for formatting;
* `Builder.observe_alike` — an event keeps them alike, wherever it happens;
* `Builder.nodes_alike` — so do statements that match;
* `build_alike` — so the trees of programs that match are the same without their
  formatting, or there is none of either.

Design notes: a comment of the markup quotes the source of the tags in it.  Spans
are therefore related by what they cover, and statements whose spans are not must
not be hidden in a comment; the ledger of the first run says which are.
-/
import TemplateCompiler.Proofs.Markup.Placeless
import TemplateCompiler.Proofs.Mustache.Shapes
import TemplateCompiler.Proofs.Template.Tags
import TemplateCompiler.Proofs.Wire.Formatting

namespace TemplateCompiler

/-! ### Computations that go together -/

section

variable {ε α β γ δ : Type}

/-- Two computations fail together, or come to related results. -/
inductive Together (R : α → β → Prop) : Except ε α → Except ε β → Prop
  | ok {a : α} {b : β} (h : R a b) : Together R (.ok a) (.ok b)
  | error {e e' : ε} : Together R (.error e) (.error e')

namespace Together

variable {R : α → β → Prop} {S : γ → δ → Prop}

theorem bind {x : Except ε α} {y : Except ε β} {k : α → Except ε γ} {l : β → Except ε δ}
    (h : Together R x y) (hk : ∀ a b, x = .ok a → R a b → Together S (k a) (l b)) :
    Together S (x >>= k) (y >>= l) := by
  cases h with
  | ok hab => exact hk _ _ rfl hab
  | error => exact .error

theorem ite {c c' : Prop} [Decidable c] [Decidable c'] {x x' : Except ε α} {y y' : Except ε β}
    (hc : c ↔ c') (h : c → Together R x y) (h' : ¬c → Together R x' y') :
    Together R (if c then x else x') (if c' then y else y') := by
  by_cases hcond : c
  · rw [if_pos hcond, if_pos (hc.mp hcond)]
    exact h hcond
  · rw [if_neg hcond, if_neg fun hcond' => hcond (hc.mpr hcond')]
    exact h' hcond

/-- Results that are the same under a function are compared through a third computation. -/
theorem compare {f : α → γ} {x y z : Except ε α} (h : Together (fun a b => f a = f b) x z)
    (h' : Together (fun a b => f a = f b) y z) : Together (fun a b => f a = f b) x y := by
  cases h with
  | ok hxz =>
    cases h' with
    | ok hyz => exact .ok (hxz.trans hyz.symm)
  | error =>
    cases h' with
    | error => exact .error

end Together

end

namespace Template

open Markup (Machine Event)
open Mustache (Node Content Program NodesMatch ProgramMatches OtherMatches)

/-! ### Expressions and tags -/

mutual

/-- The shape of an expression has all that is left without formatting. -/
theorem Expr.bare_shape : (e : Expr) → e.shape.bare = e.bare
  | .path p => by
    rw [Expr.shape, Expr.bare, Expr.bare]
    rfl
  | .sub ⟨callee, params, ⟨pairs, span⟩⟩ span' => by
    rw [Expr.shape, Expr.bare, Expr.bare, callee.bare_shape, bareExprs_shape params,
      barePairs_shape pairs]
  | .literal value span => by rw [Expr.shape, Expr.bare, Expr.bare]

theorem bareExprs_shape : (es : List Expr) → bareExprs (shapeExprs es) = bareExprs es
  | [] => by rw [shapeExprs]
  | e :: rest => by rw [shapeExprs, bareExprs, bareExprs, e.bare_shape, bareExprs_shape rest]

theorem barePairs_shape : (ps : List (Pair Expr)) → barePairs (shapePairs ps) = barePairs ps
  | [] => by rw [shapePairs]
  | pair :: rest => by
    rw [shapePairs, barePairs, barePairs, pair.value.bare_shape, barePairs_shape rest]

end

theorem Call.bare_eq_of_shape {c c' : Call Expr} (h : c.shape = c'.shape) : c.bare = c'.bare := by
  have hbare : ∀ c : Call Expr, c.shape.bare = c.bare := by
    intro c
    rw [Call.shape, Call.bare, Call.bare, Expr.bare_shape, bareExprs_shape, barePairs_shape]
  rw [← hbare c, h, hbare c']

theorem callee_shape {c c' : Call Expr} (h : c.shape = c'.shape) :
    c.callee.shape = c'.callee.shape := (Call.mk.inj h).1

theorem isLiteral_shape (e : Expr) : e.shape.isLiteral = e.isLiteral := by
  cases e <;> rw [Expr.shape] <;> rfl

theorem isSplat_shape (e : Expr) : Builder.isSplat e.shape = Builder.isSplat e := by
  cases e <;> rw [Expr.shape] <;> rfl

/-! ### Statements that are added -/

theorem bareStatements_append (ss ss' : List Statement) :
    bareStatements (ss ++ ss') = bareStatements ss ++ bareStatements ss' := by
  induction ss with
  | nil => rw [List.nil_append, bareStatements, List.nil_append]
  | cons s ss ih =>
    rw [List.cons_append, bareStatements, bareStatements, ih]
    split <;> rfl

theorem bareStatements_single {s s' : Statement} (h : s.bare = s'.bare) :
    bareStatements [s] = bareStatements [s'] := by
  have hcomment : ∀ s : Statement, s.bare.isMustacheComment = s.isMustacheComment := by
    intro s
    cases s <;> rw [Statement.bare] <;> rfl
  simp only [bareStatements]
  rw [← hcomment s, h, hcomment s']

/-- Parts of a value that are the same without formatting are of one kind. -/
theorem ConcatPart.of_bare_eq {part part' : ConcatPart} (h : part.bare = part'.bare) :
    (∃ node node', part = .text node ∧ part' = .text node' ∧ node.chars = node'.chars) ∨
      ∃ tag tag', part = .mustache tag ∧ part' = .mustache tag' ∧ tag.bare = tag'.bare := by
  cases part with
  | text node =>
    cases part' with
    | text node' =>
      have hnode : node.bare = node'.bare := (ConcatPart.text.inj h :)
      exact .inl ⟨node, node', rfl, rfl, (congrArg TextNode.chars hnode :)⟩
    | mustache tag' => cases h
  | mustache tag =>
    cases part' with
    | text node' => cases h
    | mustache tag' => exact .inr ⟨tag, tag', rfl, rfl, ConcatPart.mustache.inj h⟩

/-! ### Builders that are alike -/

/-- An open frame without formatting. -/
def Frame.bare : Frame → Frame
  | .block body => .block (bareStatements body)
  | .element tag children _ => .element tag.bare (bareStatements children) .dummy

/-- A tag that is being read, without formatting. -/
def PendingTag.bare : PendingTag → PendingTag
  | .opening tag _ => .opening tag.bare 0
  | .closing name _ => .closing name 0

/-- An attribute that is being read, without formatting. -/
def PendingAttr.bare (a : PendingAttr) : PendingAttr :=
  { a with
    parts := a.parts.map ConcatPart.bare
    text := a.text.map TextNode.bare
    start := 0
    valueStart := 0 }

/-- A builder without formatting. -/
def Builder.bare (b : Builder) : Builder :=
  { machine := b.machine.placeless
    frames := b.frames.map Frame.bare
    text := b.text.map TextNode.bare
    comment := b.comment.map Comment.bare
    tag := b.tag.map PendingTag.bare
    attr := b.attr.map PendingAttr.bare }

namespace Builder

/-- Two builders have come to the same, but for formatting. -/
def Alike (b b' : Builder) : Prop := b.bare = b'.bare

variable {b b' : Builder} {source source' : Source}

theorem alike_iff : Alike b b' ↔ b.machine.placeless = b'.machine.placeless ∧
    b.frames.map Frame.bare = b'.frames.map Frame.bare ∧
    b.text.map TextNode.bare = b'.text.map TextNode.bare ∧
    b.comment.map Comment.bare = b'.comment.map Comment.bare ∧
    b.tag.map PendingTag.bare = b'.tag.map PendingTag.bare ∧
    b.attr.map PendingAttr.bare = b'.attr.map PendingAttr.bare := by
  rw [Alike, Builder.bare, Builder.bare, Builder.mk.injEq]
  simp

theorem bare_push (f : Frame) (s : Statement) :
    (f.push s).bare = match f.bare with
      | .block body => .block (body ++ bareStatements [s])
      | .element tag children span => .element tag (children ++ bareStatements [s]) span := by
  cases f <;> simp [Frame.push, Frame.bare, bareStatements_append]

theorem Alike.append (h : Alike b b') {s s' : Statement} (hs : s.bare = s'.bare) :
    Alike (b.append s) (b'.append s') := by
  obtain ⟨hmachine, hframes, hreads⟩ := alike_iff.mp h
  rw [Builder.append, Builder.append]
  cases hb : b.frames with
  | nil =>
    rw [hb, List.map_nil] at hframes
    rw [List.map_eq_nil_iff.mp hframes.symm]
    exact h
  | cons f rest =>
    rw [hb, List.map_cons] at hframes
    obtain ⟨f', rest', hb', hf, hrest⟩ := List.map_eq_cons_iff.mp hframes.symm
    rw [hb']
    refine alike_iff.mpr ⟨hmachine, ?_, hreads⟩
    rw [List.map_cons, List.map_cons, bare_push, bare_push, bareStatements_single hs, hf, hrest]

theorem Alike.push (h : Alike b b') {f f' : Frame} (hf : f.bare = f'.bare) :
    Alike (b.push f) (b'.push f') := by
  obtain ⟨hmachine, hframes, hreads⟩ := alike_iff.mp h
  refine alike_iff.mpr ⟨hmachine, ?_, hreads⟩
  rw [Builder.push, Builder.push, List.map_cons, List.map_cons, hf, hframes]

theorem Alike.goTo (h : Alike b b') (state : Markup.State) :
    Alike (b.goTo state) (b'.goTo state) := by
  obtain ⟨hmachine, hreads⟩ := alike_iff.mp h
  exact alike_iff.mpr ⟨congrArg (fun m : Machine => { m with state }) hmachine, hreads⟩

theorem Alike.state (h : Alike b b') : b.machine.state = b'.machine.state := by
  show b.bare.machine.state = b'.bare.machine.state
  rw [h]

/-! ### Tags and attributes -/

theorem finishText_bare {a a' : PendingAttr} (h : a.bare = a'.bare) (stop stop' : Nat) :
    (a.finishText stop).bare = (a'.finishText stop').bare := by
  have hbare : ∀ (a : PendingAttr) (stop : Nat), (a.finishText stop).bare =
      { a.bare with
        text := none
        parts := a.bare.parts ++ (a.bare.text.map ConcatPart.text).toList } := by
    rintro ⟨name, parts, text, quoted, dynamic, start, valueStart⟩ stop
    cases text <;> simp [PendingAttr.finishText, PendingAttr.bare, ConcatPart.bare, TextNode.bare]
  rw [hbare, hbare, h]

/-- What a value is made of is the same for parts that are the same without formatting. -/
theorem attrValue_alike {a a' : PendingAttr} (h : a.bare = a'.bare) (span span' : Span) :
    Together (fun v v' : AttrValue => v.bare = v'.bare)
      (attrValue a span) (attrValue a' span') := by
  have hparts : a.parts.map ConcatPart.bare = a'.parts.map ConcatPart.bare :=
    congrArg PendingAttr.parts h
  have hquoted : a.quoted = a'.quoted := (congrArg PendingAttr.quoted h :)
  have hdynamic : a.dynamic = a'.dynamic := (congrArg PendingAttr.dynamic h :)
  unfold attrValue
  rw [← hquoted, ← hdynamic]
  cases hp : a.parts with
  | nil =>
    have hp' : a'.parts = [] := by simpa [hp] using hparts
    rw [hp']
    exact .ite .rfl (fun _ => .ite .rfl (fun _ => .ok rfl) fun _ => .error) fun _ => .ok rfl
  | cons part rest =>
    rw [hp, List.map_cons] at hparts
    obtain ⟨part', rest', hp', hpart, hrest⟩ := List.map_eq_cons_iff.mp hparts.symm
    -- A value is made of all its parts, or is the first of them.
    have hconcat : (AttrValue.concat (part :: rest) span).bare
        = (AttrValue.concat (part' :: rest') span').bare := by
      simp [AttrValue.bare, hpart, hrest]
    rw [hp']
    have hmustache : ∀ {tag tag' : MustacheTag}, tag.bare = tag'.bare →
        (AttrValue.mustache tag).bare = (AttrValue.mustache tag').bare :=
      fun htag => by rw [AttrValue.bare, AttrValue.bare, htag]
    refine .ite .rfl (fun _ => .ite .rfl (fun _ => .ok hconcat) fun _ => ?_) fun _ => ?_
    · obtain ⟨node, node', rfl, rfl, -⟩ | ⟨tag, tag', rfl, rfl, htag⟩ :=
        ConcatPart.of_bare_eq hpart.symm
      · exact .error
      cases rest with
      | nil =>
        rw [List.map_eq_nil_iff.mp hrest]
        exact .ok (hmustache htag)
      | cons second more =>
        obtain ⟨second', more', rfl, hsecond, -⟩ := List.map_eq_cons_iff.mp hrest
        obtain ⟨node, node', rfl, rfl, hchars⟩ | ⟨tag₂, tag₂', rfl, rfl, -⟩ :=
          ConcatPart.of_bare_eq hsecond.symm
        · exact .ite (by rw [hchars]) (fun _ => .ok (hmustache htag)) fun _ => .error
        · exact .error
    · obtain ⟨node, node', rfl, rfl, hchars⟩ | ⟨tag, tag', rfl, rfl, htag⟩ :=
        ConcatPart.of_bare_eq hpart.symm
      · refine .ok ?_
        rw [AttrValue.bare, AttrValue.bare, TextNode.bare, TextNode.bare, hchars]
      · exact .ok (hmustache htag)

theorem extractBlockParams_bare (tag : StartTag) :
    extractBlockParams tag.bare = (extractBlockParams tag).map StartTag.bare := by
  have hnames : tag.bare.attributes.map (·.name) = tag.attributes.map (·.name) := by
    simp [StartTag.bare, Attr.bare]
  unfold extractBlockParams
  simp only [hnames]
  split
  · split <;> rfl
  · split
    · split
      · cases blockParamNames _ with
        | error message => rfl
        | ok params =>
          simp only [bind, Except.bind]
          split
          · rfl
          · simp [pure, Except.pure, Except.map, StartTag.bare, List.map_take]
      · rfl
    · rfl

theorem finishStartTag_alike (h : Alike b b') {tag tag' : StartTag} (htag : tag.bare = tag'.bare)
    (span span' : Span) :
    Together Alike (b.finishStartTag tag span) (b'.finishStartTag tag' span') := by
  have hname : tag.name = tag'.name := (congrArg StartTag.name htag :)
  have hparams := congrArg extractBlockParams htag
  rw [extractBlockParams_bare, extractBlockParams_bare] at hparams
  unfold finishStartTag
  refine .ite (by rw [hname]) (fun _ => .error) fun _ => ?_
  -- Block parameters are found in both tags, or in none.
  cases hfound : extractBlockParams tag with
  | error message =>
    cases hfound' : extractBlockParams tag' with
    | error message' => exact .error
    | ok found' =>
      rw [hfound, hfound'] at hparams
      cases hparams
  | ok found =>
    cases hfound' : extractBlockParams tag' with
    | error message' =>
      rw [hfound, hfound'] at hparams
      cases hparams
    | ok found' =>
      rw [hfound, hfound'] at hparams
      have hbare : found.bare = found'.bare := Except.ok.inj hparams
      have hvoid : (isVoid found.name || found.selfClosing)
          = (isVoid found'.name || found'.selfClosing) := by
        rw [← found.bare_name, ← found.bare_selfClosing, hbare]
        rfl
      have helement : (Statement.element found [] span).bare
          = (Statement.element found' [] span').bare := by
        rw [Statement.bare, Statement.bare, hbare]
      refine .ite (by rw [hvoid]) (fun _ => .ok (h.append helement)) fun _ => .ok (h.push ?_)
      rw [Frame.bare, Frame.bare, hbare]

theorem finishEndTag_alike (h : Alike b b') (name : String) (span span' : Span) :
    Together Alike (b.finishEndTag source name span) (b'.finishEndTag source' name span') := by
  obtain ⟨hmachine, hframes, hreads⟩ := alike_iff.mp h
  unfold finishEndTag
  refine .ite .rfl (fun _ => .error) fun _ => ?_
  -- Frames that are alike are of one kind, and elements have one name.
  cases hb : b.frames with
  | nil =>
    rw [hb, List.map_nil] at hframes
    rw [List.map_eq_nil_iff.mp hframes.symm]
    exact .error
  | cons f rest =>
    rw [hb, List.map_cons] at hframes
    obtain ⟨f', rest', hb', hf, hrest⟩ := List.map_eq_cons_iff.mp hframes.symm
    rw [hb']
    cases f with
    | block body =>
      cases f' with
      | block body' => exact .error
      | element tag' children' span' => cases hf
    | element tag children elementSpan =>
      cases f' with
      | block body' => cases hf
      | element tag' children' elementSpan' =>
        obtain ⟨htag, hchildren, -⟩ := Frame.element.inj hf
        have hname : tag'.name = tag.name := (congrArg StartTag.name htag :)
        refine .ite (by rw [hname]) (fun _ => .ok (Alike.append ?_ ?_)) fun _ => .error
        · exact alike_iff.mpr ⟨hmachine, hrest.symm, hreads⟩
        · rw [Statement.bare, Statement.bare, htag, hchildren]

/-- The pending tags of builders that are alike are of one kind. -/
theorem Alike.tag (h : Alike b b') :
    (b.tag = none ∧ b'.tag = none) ∨
      (∃ tag tag' start start', b.tag = some (.opening tag start) ∧
        b'.tag = some (.opening tag' start') ∧ tag.bare = tag'.bare) ∨
      ∃ name start start', b.tag = some (.closing name start) ∧
        b'.tag = some (.closing name start') := by
  obtain ⟨-, -, -, -, htag, -⟩ := alike_iff.mp h
  cases hb : b.tag with
  | none =>
    rw [hb] at htag
    exact .inl ⟨rfl, Option.map_eq_none_iff.mp htag.symm⟩
  | some pending =>
    rw [hb, Option.map_some] at htag
    obtain ⟨pending', hb', hpending⟩ := Option.map_eq_some_iff.mp htag.symm
    refine .inr ?_
    cases pending with
    | opening tag start =>
      cases pending' with
      | opening tag' start' =>
        exact .inl ⟨tag, tag', start, start', rfl, hb', (PendingTag.opening.inj hpending).1.symm⟩
      | closing name' start' => cases hpending
    | closing name start =>
      cases pending' with
      | opening tag' start' => cases hpending
      | closing name' start' =>
        obtain rfl : name' = name := (PendingTag.closing.inj hpending).1
        exact .inr ⟨name', start, start', rfl, hb'⟩

theorem Alike.withTag (h : Alike b b') (tag tag' : Option PendingTag)
    (htag : tag.map PendingTag.bare = tag'.map PendingTag.bare) :
    Alike { b with tag } { b' with tag := tag' } := by
  obtain ⟨hmachine, hframes, htext, hcomment, -, hattr⟩ := alike_iff.mp h
  exact alike_iff.mpr ⟨hmachine, hframes, htext, hcomment, htag, hattr⟩

theorem Alike.withAttr (h : Alike b b') (attr attr' : Option PendingAttr)
    (hattr : attr.map PendingAttr.bare = attr'.map PendingAttr.bare) :
    Alike { b with attr } { b' with attr := attr' } := by
  obtain ⟨hmachine, hframes, htext, hcomment, htag, -⟩ := alike_iff.mp h
  exact alike_iff.mpr ⟨hmachine, hframes, htext, hcomment, htag, hattr⟩

theorem Alike.withText (h : Alike b b') (text text' : Option TextNode)
    (htext : text.map TextNode.bare = text'.map TextNode.bare) :
    Alike { b with text } { b' with text := text' } := by
  obtain ⟨hmachine, hframes, -, hreads⟩ := alike_iff.mp h
  exact alike_iff.mpr ⟨hmachine, hframes, htext, hreads⟩

theorem Alike.withComment (h : Alike b b') (comment comment' : Option Comment)
    (hcomment : comment.map Comment.bare = comment'.map Comment.bare) :
    Alike { b with comment } { b' with comment := comment' } := by
  obtain ⟨hmachine, hframes, htext, -, hreads⟩ := alike_iff.mp h
  exact alike_iff.mpr ⟨hmachine, hframes, htext, hcomment, hreads⟩

theorem finishTag_alike (h : Alike b b') (stop stop' : Nat) :
    Together Alike (b.finishTag source stop) (b'.finishTag source' stop') := by
  unfold finishTag
  obtain ⟨hb, hb'⟩ | ⟨tag, tag', start, start', hb, hb', htag⟩ | ⟨name, start, start', hb, hb'⟩ :=
    h.tag
  · rw [hb, hb']
    exact .ok h
  · rw [hb, hb']
    exact finishStartTag_alike (h.withTag none none rfl) htag _ _
  · rw [hb, hb']
    exact finishEndTag_alike (h.withTag none none rfl) name _ _

/-- Whether an attribute may spell block parameters is told without formatting. -/
theorem isBar_of_bare_eq {a a' : PendingAttr} (h : a.bare = a'.bare) :
    (a.parts.isEmpty && !a.quoted && !a.dynamic && startsWithBar a.name)
      = (a'.parts.isEmpty && !a'.quoted && !a'.dynamic && startsWithBar a'.name) := by
  have hbare : ∀ a : PendingAttr,
      (a.bare.parts.isEmpty && !a.bare.quoted && !a.bare.dynamic && startsWithBar a.bare.name)
        = (a.parts.isEmpty && !a.quoted && !a.dynamic && startsWithBar a.name) := by
    intro a
    simp only [PendingAttr.bare, List.isEmpty_map]
  rw [← hbare a, h, hbare a']

theorem attr_bare {name name' : String} {value value' : AttrValue} (hname : name = name')
    (hvalue : value.bare = value'.bare) (span span' : Span) :
    Attr.bare ⟨name, value, span⟩ = Attr.bare ⟨name', value', span'⟩ := by
  rw [Attr.bare, Attr.bare, hname, hvalue]

theorem addAttr_bare {tag tag' : StartTag} (htag : tag.bare = tag'.bare) {attr attr' : Attr}
    (hattr : attr.bare = attr'.bare) :
    StartTag.bare { tag with attributes := tag.attributes ++ [attr] }
      = StartTag.bare { tag' with attributes := tag'.attributes ++ [attr'] } := by
  have hjoined : ∀ (tag : StartTag) (attr : Attr),
      StartTag.bare { tag with attributes := tag.attributes ++ [attr] }
        = { tag.bare with attributes := tag.bare.attributes ++ [attr.bare] } := by
    intro tag attr
    simp [StartTag.bare]
  rw [hjoined, hjoined, htag, hattr]

theorem finishAttr_alike (h : Alike b b') (stop stop' : Nat) :
    Together Alike (b.finishAttr stop) (b'.finishAttr stop') := by
  obtain ⟨-, -, -, -, -, hattr⟩ := alike_iff.mp h
  unfold finishAttr
  cases hb : b.attr with
  | none =>
    rw [hb] at hattr
    rw [Option.map_eq_none_iff.mp hattr.symm]
    exact .ok h
  | some a =>
    rw [hb, Option.map_some] at hattr
    obtain ⟨a', hb', ha⟩ := Option.map_eq_some_iff.mp hattr.symm
    rw [hb']
    obtain ⟨htag, htag'⟩ | ⟨tag, tag', start, start', htag, htag', hbare⟩ |
      ⟨name, start, start', htag, htag'⟩ := h.tag
    · simp only [htag, htag']
      exact .ok ((h.withAttr none none rfl).withTag none none rfl)
    -- The attribute joins a start tag.
    · have hdone := finishText_bare ha.symm (if a.quoted then stop - 1 else stop)
        (if a'.quoted then stop' - 1 else stop')
      have hbar := isBar_of_bare_eq hdone
      have hattributes : tag.attributes.map Attr.bare = tag'.attributes.map Attr.bare :=
        congrArg StartTag.attributes hbare
      have has : tag.attributes.any (·.name == "as") = tag'.attributes.any (·.name == "as") := by
        simpa [List.any_map, Function.comp_def, Attr.bare]
          using congrArg (List.any · fun attr => attr.name == "as") hattributes
      simp only [htag, htag']
      refine .ite (by rw [hbar, has]) (fun _ => .error) fun _ => ?_
      refine (attrValue_alike hdone _ _).bind fun value value' _ hvalue => ?_
      refine .ok ((h.withAttr none none rfl).withTag _ _ ?_)
      have hname := (congrArg PendingAttr.name hdone :)
      exact congrArg (fun tag => some (PendingTag.opening tag 0))
        (addAttr_bare hbare (attr_bare hname hvalue _ _))
    · simp only [htag, htag']
      exact .error

/-! ### Events -/

theorem map_bare {α β : Type} {f f' : α → α} {bare : α → β} {x y : Option α} (g : β → β)
    (hf : ∀ a, bare (f a) = g (bare a)) (hf' : ∀ a, bare (f' a) = g (bare a))
    (h : x.map bare = y.map bare) : (x.map f).map bare = (y.map f').map bare := by
  have hcomm : ∀ {f : α → α}, (∀ a, bare (f a) = g (bare a)) → ∀ x : Option α,
      (x.map f).map bare = (x.map bare).map g := by
    intro f hf x
    simp only [Option.map_map, Function.comp_def, hf]
  rw [hcomm hf, hcomm hf', h]

theorem pushName_bare (c : Char) (tag : PendingTag) :
    (tag.pushName c).bare = tag.bare.pushName c := by
  cases tag <;> rfl

theorem selfClosing_bare (tag : PendingTag) :
    (tag.onStartTag fun t => { t with selfClosing := true }).bare
      = tag.bare.onStartTag fun t => { t with selfClosing := true } := by
  cases tag <;> rfl

theorem pushValue_bare (a : PendingAttr) (c : Char) (pos : Nat) :
    (a.pushValue c pos).bare = a.bare.pushValue c 0 := by
  obtain ⟨name, parts, text, quoted, dynamic, start, valueStart⟩ := a
  cases text <;> rfl

/-- An event keeps builders alike, wherever it happens. -/
theorem observe_placeless (h : Alike b b') (e : Event) :
    Together Alike (b.observe source e) (b'.observe source' e.placeless) := by
  obtain ⟨hmachine, hframes, htext, hcomment, htag, hattr⟩ := alike_iff.mp h
  -- Places are all that events differ in, and nothing that is kept depends on them.
  cases e with
  | reset => exact .ok (alike_iff.mpr ⟨hmachine, hframes, rfl, rfl, rfl, rfl⟩)
  | tagOpen pos => exact .ok h
  | beginData pos => exact .ok (h.withText _ _ rfl)
  | data c =>
    let push : TextNode → TextNode := fun t => { t with chars := t.chars.push c }
    exact .ok (h.withText _ _ (map_bare push (fun _ => rfl) (fun _ => rfl) htext))
  | finishData pos =>
    rw [observe, Event.placeless, observe]
    cases hb : b.text with
    | none =>
      rw [hb] at htext
      rw [Option.map_eq_none_iff.mp htext.symm]
      exact .ok h
    | some t =>
      rw [hb, Option.map_some] at htext
      obtain ⟨t', hb', ht⟩ := Option.map_eq_some_iff.mp htext.symm
      rw [hb']
      have hchars : t'.chars = t.chars := (congrArg TextNode.chars ht :)
      refine .ok ((h.withText none none rfl).append ?_)
      rw [Statement.bare, Statement.bare, TextNode.bare, TextNode.bare, hchars]
  | beginComment pos => exact .ok (h.withComment _ _ rfl)
  | commentData c =>
    let push : Comment → Comment := fun t => { t with value := t.value.push c }
    exact .ok (h.withComment _ _ (map_bare push (fun _ => rfl) (fun _ => rfl) hcomment))
  | finishComment pos =>
    rw [observe, Event.placeless, observe]
    cases hb : b.comment with
    | none =>
      rw [hb] at hcomment
      rw [Option.map_eq_none_iff.mp hcomment.symm]
      exact .ok h
    | some t =>
      rw [hb, Option.map_some] at hcomment
      obtain ⟨t', hb', ht⟩ := Option.map_eq_some_iff.mp hcomment.symm
      rw [hb']
      have hvalue : t'.value = t.value := (congrArg Comment.value ht :)
      refine .ok ((h.withComment none none rfl).append ?_)
      rw [Statement.bare, Statement.bare, Comment.bare, Comment.bare, hvalue]
  | beginStartTag pos => exact .ok (h.withTag _ _ rfl)
  | beginEndTag pos => exact .ok (h.withTag _ _ rfl)
  | tagName c =>
    exact .ok (h.withTag _ _ (map_bare _ (pushName_bare c) (pushName_bare c) htag))
  | selfClosing => exact .ok (h.withTag _ _ (map_bare _ selfClosing_bare selfClosing_bare htag))
  | finishTag pos => exact finishTag_alike h _ _
  | beginAttribute pos => exact .ok (h.withAttr _ _ rfl)
  | attributeName c =>
    let push : PendingAttr → PendingAttr := fun a => { a with name := a.name.push c }
    exact .ok (h.withAttr _ _ (map_bare push (fun _ => rfl) (fun _ => rfl) hattr))
  | beginAttributeValue quoted pos =>
    let begin : PendingAttr → PendingAttr := fun a => { a with quoted, text := none }
    exact .ok (h.withAttr _ _ (map_bare begin (fun _ => rfl) (fun _ => rfl) hattr))
  | attributeValue c pos =>
    exact .ok (h.withAttr _ _ (map_bare (·.pushValue c 0) (fun a => pushValue_bare a c pos)
      (fun a => pushValue_bare a c 0) hattr))
  | finishAttributeValue pos => exact finishAttr_alike h _ _
  | problem p pos => exact .ok h

/-- Events that are the same but for their places keep builders alike. -/
theorem observe_alike (h : Alike b b') {e e' : Event} (he : e.placeless = e'.placeless) :
    Together Alike (b.observe source e) (b'.observe source' e') := by
  have hfirst : Together Alike (b.observe source e) (b'.observe source' e.placeless) :=
    observe_placeless h e
  rw [he] at hfirst
  exact hfirst.compare (observe_placeless rfl e')

theorem observeAll_alike (h : Alike b b') {events events' : List Event}
    (hevents : events.map Event.placeless = events'.map Event.placeless) :
    Together Alike (b.observeAll source events) (b'.observeAll source' events') := by
  induction events generalizing b b' events' with
  | nil =>
    rw [List.map_eq_nil_iff.mp hevents.symm]
    exact .ok h
  | cons e rest ih =>
    rw [List.map_cons] at hevents
    obtain ⟨e', rest', rfl, he, hrest⟩ := List.map_eq_cons_iff.mp hevents.symm
    rw [observeAll, observeAll, List.foldlM_cons, List.foldlM_cons]
    exact (observe_alike h he.symm).bind fun b₁ b₁' _ h₁ => ih h₁ hrest.symm

/-! ### Statements -/

theorem content_alike (h : Alike b b') {c c' : Content} (hc : c.shape = c'.shape) :
    Together Alike (b.content source c) (b'.content source' c') := by
  have hvalue : c.value = c'.value := (congrArg Content.value hc :)
  obtain ⟨hmachine, hopen⟩ := alike_iff.mp h
  have hmoved : (b.machine.moveTo c.valueStart).placeless
      = (b'.machine.moveTo c'.valueStart).placeless := hmachine
  obtain ⟨hread, hevents⟩ := Machine.read_placeless hmoved c.value
  obtain ⟨hflush, hflushed⟩ := Machine.flush_placeless hread
  have hstart : Alike
      { b with machine := ((b.machine.moveTo c.valueStart).read c.value).1.flush.1 }
      { b' with machine := ((b'.machine.moveTo c'.valueStart).read c.value).1.flush.1 } :=
    alike_iff.mpr ⟨hflush, hopen⟩
  have hreported := congrArg₂ (· ++ ·) hevents hflushed
  simp only [← List.map_append] at hreported
  rw [content, content, ← hvalue]
  exact observeAll_alike hstart hreported

theorem appendToComment_alike (h : Alike b b') {span span' : Span}
    (hspan : source.slice span = source'.slice span') :
    Alike (b.appendToComment source span) (b'.appendToComment source' span') := by
  obtain ⟨-, -, -, hcomment, -⟩ := alike_iff.mp h
  rw [appendToComment, appendToComment, h.state, hspan]
  refine (h.withComment _ _ ?_).goTo _
  let add (text : String) : Comment → Comment := fun t => { t with value := t.value ++ text }
  exact map_bare (add _) (fun _ => rfl) (fun _ => rfl) hcomment

theorem mustache_bare {m m' : MustacheTag} (hcall : m.call.shape = m'.call.shape)
    (htrusting : m.trusting = m'.trusting) : m.bare = m'.bare := by
  rw [MustacheTag.bare, MustacheTag.bare, Call.bare_eq_of_shape hcall, htrusting]

theorem addModifier_bare {tag tag' : StartTag} (htag : tag.bare = tag'.bare) {m m' : Modifier}
    (hm : m.bare = m'.bare) :
    StartTag.bare { tag with modifiers := tag.modifiers ++ [m] }
      = StartTag.bare { tag' with modifiers := tag'.modifiers ++ [m'] } := by
  have hjoined : ∀ (tag : StartTag) (m : Modifier),
      StartTag.bare { tag with modifiers := tag.modifiers ++ [m] }
        = { tag.bare with modifiers := tag.bare.modifiers ++ [m.bare] } := by
    intro tag m
    simp [StartTag.bare]
  rw [hjoined, hjoined, htag, hm]

theorem addModifier_alike (h : Alike b b') {m m' : MustacheTag}
    (hcall : m.call.shape = m'.call.shape) :
    Together Alike (b.addModifier m) (b'.addModifier m') := by
  have hliteral : m.call.callee.isLiteral = m'.call.callee.isLiteral := by
    rw [← isLiteral_shape, callee_shape hcall, isLiteral_shape]
  unfold addModifier
  obtain ⟨hb, hb'⟩ | ⟨tag, tag', start, start', hb, hb', htag⟩ | ⟨name, start, start', hb, hb'⟩ :=
    h.tag
  · rw [hb, hb']
    exact .ok h
  · rw [hb, hb']
    have hdone := h.withTag
      (some (.opening { tag with modifiers := tag.modifiers ++ [⟨m.call, m.span⟩] } start))
      (some (.opening { tag' with modifiers := tag'.modifiers ++ [⟨m'.call, m'.span⟩] } start'))
      (congrArg (fun tag => some (PendingTag.opening tag 0)) (addModifier_bare htag
        (by rw [Modifier.bare, Modifier.bare, Call.bare_eq_of_shape hcall])))
    cases hcallee : m.call.callee <;> cases hcallee' : m'.call.callee <;>
      rw [hcallee, hcallee'] at hliteral <;>
      first
        | exact .ok hdone
        | exact .error
        | cases hliteral
  · rw [hb, hb']
    exact .ok h

theorem addPart_alike (h : Alike b b') {m m' : MustacheTag} (hm : m.bare = m'.bare) :
    Alike (b.addPart m) (b'.addPart m') := by
  obtain ⟨-, -, -, -, -, hattr⟩ := alike_iff.mp h
  let add : PendingAttr → PendingAttr := fun a =>
    { a with
      text := none
      dynamic := true
      parts := a.parts ++ (a.text.map ConcatPart.text).toList ++ [.mustache m.bare] }
  have hadd : ∀ (m₁ : MustacheTag) (hm₁ : m₁.bare = m.bare) (a : PendingAttr),
      PendingAttr.bare { a.finishText m₁.span.start with
        dynamic := true, parts := (a.finishText m₁.span.start).parts ++ [.mustache m₁] }
        = add a.bare := by
    rintro m₁ hm₁ ⟨name, parts, text, quoted, dynamic, start, valueStart⟩
    cases text <;>
      simp [add, PendingAttr.finishText, PendingAttr.bare, ConcatPart.bare, TextNode.bare, hm₁]
  exact h.withAttr _ _ (map_bare add (hadd m rfl) (hadd m' hm.symm) hattr)

theorem mustache_alike (h : Alike b b') {m m' : MustacheTag}
    (hcall : m.call.shape = m'.call.shape) (htrusting : m.trusting = m'.trusting)
    (hspan : b.machine.state.isComment = true → source.slice m.span = source'.slice m'.span) :
    Together Alike (b.mustache source m) (b'.mustache source' m') := by
  have hbare := mustache_bare hcall htrusting
  have hsplat : isSplat m.call.callee = isSplat m'.call.callee := by
    rw [← isSplat_shape, callee_shape hcall, isSplat_shape]
  -- The states are the same, so the tag is placed alike.
  have hmodifier := fun {b b' : Builder} (h : Alike b b') => addModifier_alike h hcall
  unfold mustache
  rw [h.state] at hspan ⊢
  rw [hsplat]
  refine .ite .rfl (fun hin => .ok (appendToComment_alike h (hspan hin))) fun _ => ?_
  refine .ite .rfl (fun _ => .error) fun _ => ?_
  cases b'.machine.state with
  | tagOpen | tagName | endTagOpen | endTagName => exact .error
  | beforeAttributeName => exact hmodifier h
  | attributeName | afterAttributeName =>
    refine (observeAll_alike h ?_).bind fun b₁ b₁' _ h₁ => ?_
    · rfl
    · exact (hmodifier h₁).bind fun b₂ b₂' _ h₂ => .ok (h₂.goTo _)
  | afterAttributeValueQuoted => exact (hmodifier h).bind fun b₁ b₁' _ h₁ => .ok (h₁.goTo _)
  | beforeAttributeValue =>
    refine (observe_alike h ?_).bind fun b₁ b₁' _ h₁ => ?_
    · rfl
    · exact .ok ((addPart_alike h₁ hbare).goTo _)
  | attributeValueDoubleQuoted | attributeValueSingleQuoted | attributeValueUnquoted =>
    exact .ok (addPart_alike h hbare)
  | _ => exact .ok (h.append (by rw [Statement.bare, Statement.bare, hbare]))

theorem mustacheComment_alike (h : Alike b b') {value : String} {span span' : Span}
    (hspan : b.machine.state.isComment = true → source.slice span = source'.slice span') :
    Together Alike (b.mustacheComment source ⟨value, span⟩)
      (b'.mustacheComment source' ⟨value, span'⟩) := by
  obtain ⟨-, -, -, -, htag, -⟩ := alike_iff.mp h
  have hnote : ∀ (c : Comment) (tag : PendingTag),
      (tag.onStartTag fun t => { t with comments := t.comments ++ [c] }).bare = tag.bare := by
    intro c tag
    cases tag <;> rfl
  have hnoted := h.withTag
    (b.tag.map (·.onStartTag fun t => { t with comments := t.comments ++ [⟨value, span⟩] }))
    (b'.tag.map (·.onStartTag fun t => { t with comments := t.comments ++ [⟨value, span'⟩] }))
    (map_bare id (hnote _) (hnote _) htag)
  unfold mustacheComment
  rw [h.state] at hspan
  simp only [h.state]
  refine .ite .rfl (fun hin => .ok (appendToComment_alike h (hspan hin))) fun _ => ?_
  refine .ite .rfl (fun _ => .ok (h.append ?_)) fun _ => ?_
  · rw [Statement.bare, Statement.bare, Comment.bare, Comment.bare]
  · cases b'.machine.state with
    | beforeAttributeName | afterAttributeName => exact .ok hnoted
    | _ => exact .error

theorem partialCall_alike (h : Alike b b') {p p' : PartialTag}
    (hcall : p.call.shape = p'.call.shape)
    (hspan : b.machine.state.isComment = true → source.slice p.span = source'.slice p'.span) :
    Together Alike (b.partialCall source p) (b'.partialCall source' p') := by
  unfold partialCall
  rw [h.state] at hspan ⊢
  refine .ite .rfl (fun hin => .ok (appendToComment_alike h (hspan hin))) fun _ => ?_
  refine .ite .rfl (fun _ => .ok (h.append ?_)) fun _ => .error
  rw [Statement.bare, Statement.bare, PartialTag.bare, PartialTag.bare,
    Call.bare_eq_of_shape hcall]

/-! ### Programs -/

theorem checkBlockPlace_alike (h : Alike b b') (span span' : Span) :
    Together (fun _ _ => True) (b.checkBlockPlace span) (b'.checkBlockPlace span') := by
  unfold checkBlockPlace
  rw [h.state]
  exact .ite .rfl (fun _ => .ok trivial) fun _ => .error

theorem endProgram_alike (h : Alike b b') (names : List String) (chained chained' : Bool)
    (span span' : Span) :
    Together (fun r r' => bareBlock r.1 = bareBlock r'.1 ∧ Alike r.2 r'.2)
      (b.endProgram names chained span) (b'.endProgram names chained' span') := by
  obtain ⟨hmachine, hframes, hreads⟩ := alike_iff.mp h
  -- Both programs are closed, or a tag is open at the end of both.
  have hclosed : Together (fun _ _ => True) (b.checkClosed span.stop)
      (b'.checkClosed span'.stop) := by
    unfold checkClosed
    rw [h.state]
    exact .ite .rfl (fun _ => .ok trivial) fun _ => .error
  unfold endProgram
  refine hclosed.bind fun _ _ _ _ => ?_
  unfold popBlock
  cases hb : b.frames with
  | nil =>
    rw [hb, List.map_nil] at hframes
    rw [List.map_eq_nil_iff.mp hframes.symm]
    exact .error
  | cons f rest =>
    rw [hb, List.map_cons] at hframes
    obtain ⟨f', rest', hb', hf, hrest⟩ := List.map_eq_cons_iff.mp hframes.symm
    rw [hb']
    cases f with
    | block body =>
      cases f' with
      | block body' =>
        have hbody : bareStatements body' = bareStatements body := (Frame.block.inj hf :)
        refine .ok ⟨?_, alike_iff.mpr ⟨hmachine, hrest.symm, hreads⟩⟩
        rw [bareBlock, bareBlock, hbody]
      | element tag' children' span' => cases hf
    | element tag children elementSpan =>
      cases f' with
      | block body' => cases hf
      | element tag' children' elementSpan' => exact .error

/-- A block is built from its programs. -/
theorem node_block (tag : BlockTag) (p : Program) (other : Option Program) :
    b.node source (.block tag p other) =
      if b.machine.state.isComment then .ok (b.appendToComment source tag.span)
      else do
        b.checkBlockPlace tag.span
        let (program, b) ← b.program source p
        match other with
        | none => return b.append (.block tag program none)
        | some q =>
          let (inverse, b) ← b.program source q
          return b.append (.block tag program (some inverse)) := by
  obtain ⟨body, names, chained, span⟩ := p
  rw [node]
  simp only [Builder.program, bind_assoc]
  cases other with
  | none => rfl
  | some q =>
    obtain ⟨body', names', chained', span'⟩ := q
    rfl

/-- What is hidden in a block is hidden in one of its programs. -/
theorem nodeLedger_block (tag : BlockTag) (p : Program) (other : Option Program)
    (h : ¬b.machine.state.isComment = true) :
    nodeLedger source b (.block tag p other) =
      nodesLedger source (b.push (.block [])) p.body
        + match other, b.program source p with
          | some q, .ok (_, b₁) => nodesLedger source (b₁.push (.block [])) q.body
          | _, _ => 0 := by
  obtain ⟨body, names, chained, span⟩ := p
  unfold nodeLedger
  rw [if_neg h]
  cases other with
  | none => rfl
  | some q =>
    obtain ⟨body', names', chained', span'⟩ := q
    cases b.program source ⟨body, names, chained, span⟩ <;> rfl

section Matching

variable {σ : Span → Span → Prop} {held : Node → Prop}

/-- What is hidden is quoted alike: statements that match it cover the same text. -/
def QuotesAlike (source source' : Source) (σ : Span → Span → Prop) (held : Node → Prop)
    (hidden : Multiset Node) : Prop :=
  ∀ n ∈ hidden, ∀ span', held n ∨ σ n.span span' → source.slice n.span = source'.slice span'

theorem QuotesAlike.tag {n : Node} (h : QuotesAlike source source' σ held (b.tagLedger n).hidden)
    (hin : b.machine.state.isComment = true) {span' : Span} (hspan : σ n.span span') :
    source.slice n.span = source'.slice span' := by
  rw [tagLedger, if_pos hin] at h
  exact h n (Multiset.mem_singleton_self n) span' (.inr hspan)

theorem QuotesAlike.left {ledger ledger' : Ledger}
    (h : QuotesAlike source source' σ held (ledger + ledger').hidden) :
    QuotesAlike source source' σ held ledger.hidden :=
  fun n hn => h n (Multiset.mem_add.mpr (.inl hn))

theorem QuotesAlike.right {ledger ledger' : Ledger}
    (h : QuotesAlike source source' σ held (ledger + ledger').hidden) :
    QuotesAlike source source' σ held ledger'.hidden :=
  fun n hn => h n (Multiset.mem_add.mpr (.inr hn))

mutual

/-- Statements that match keep builders alike, if what is hidden is quoted alike. -/
theorem node_alike {n n' : Node} : n.Matches σ held n' → ∀ {b b' : Builder}, Alike b b' →
    QuotesAlike source source' σ held (nodeLedger source b n).hidden →
      Together Alike (b.node source n) (b'.node source' n')
  | .content hc, b, b', h, _ => by
    rw [node, node]
    exact content_alike h hc
  | .comment hspan, b, b', h, hquotes => by
    rw [nodeLedger] at hquotes
    · rw [node, node]
      exact mustacheComment_alike h fun hin => hquotes.tag hin hspan
    all_goals simp
  | .mustache hcall htrusting hspan, b, b', h, hquotes => by
    rw [nodeLedger] at hquotes
    · rw [node, node]
      exact mustache_alike h hcall htrusting fun hin => hquotes.tag hin hspan
    all_goals simp
  | .partialCall hcall hspan, b, b', h, hquotes => by
    rw [nodeLedger] at hquotes
    · rw [node, node]
      exact partialCall_alike h hcall fun hin => hquotes.tag hin hspan
    all_goals simp
  | .block hcall hspan hprogram hother, b, b', h, hquotes => by
    rw [node_block, node_block]
    refine .ite (by rw [h.state]) (fun hin => ?_) fun hin => ?_
    · unfold nodeLedger at hquotes
      rw [if_pos hin] at hquotes
      exact .ok (appendToComment_alike h (hquotes _ (Multiset.mem_singleton_self _) _ hspan))
    rw [nodeLedger_block _ _ _ hin] at hquotes
    -- The program, the `else` if there is one, and then the block that takes both along.
    refine (checkBlockPlace_alike h _ _).bind fun _ _ _ _ => ?_
    refine (program_alike hprogram h hquotes.left).bind ?_
    rintro ⟨block, b₁⟩ ⟨block', b₁'⟩ hb₁ ⟨hblock, h₁⟩
    have htag : ∀ {tag tag' : BlockTag}, tag.call.shape = tag'.call.shape → tag.bare = tag'.bare :=
      fun hcall => by rw [BlockTag.bare, BlockTag.bare, Call.bare_eq_of_shape hcall]
    cases hother with
    | none =>
      refine .ok (h₁.append ?_)
      rw [Statement.bare, Statement.bare, htag hcall, hblock, bareOther]
    | some hq =>
      rw [hb₁] at hquotes
      refine (program_alike hq h₁ hquotes.right).bind ?_
      rintro ⟨inverse, b₂⟩ ⟨inverse', b₂'⟩ - ⟨hinverse, h₂⟩
      refine .ok (h₂.append ?_)
      rw [Statement.bare, Statement.bare, htag hcall, hblock, bareOther, bareOther, hinverse]

theorem nodes_alike {ns ns' : List Node} : NodesMatch σ held ns ns' → ∀ {b b' : Builder},
    Alike b b' → QuotesAlike source source' σ held (nodesLedger source b ns).hidden →
      Together Alike (nodes source b ns) (nodes source' b' ns')
  | .nil, b, b', h, _ => by
    rw [nodes, nodes]
    exact .ok h
  | .cons hfirst hrest, b, b', h, hquotes => by
    rw [nodesLedger] at hquotes
    rw [nodes, nodes]
    refine (node_alike hfirst h hquotes.left).bind fun b₁ b₁' hb₁ h₁ => nodes_alike hrest h₁ ?_
    rw [hb₁] at hquotes
    exact hquotes.right

theorem program_alike {p p' : Program} : ProgramMatches σ held p p' → ∀ {b b' : Builder},
    Alike b b' →
    QuotesAlike source source' σ held (nodesLedger source (b.push (.block [])) p.body).hidden →
      Together (fun r r' => bareBlock r.1 = bareBlock r'.1 ∧ Alike r.2 r'.2)
        (b.program source p) (b'.program source' p')
  | .mk hbody, b, b', h, hquotes => by
    rw [Builder.program, Builder.program]
    have hnodes := nodes_alike hbody (h.push rfl) hquotes
    exact hnodes.bind fun b₁ b₁' _ h₁ => endProgram_alike h₁ _ _ _ _ _

end

end Matching

end Builder

/-- Programs that match are built into trees that are the same without their formatting, or
not at all, if what is hidden in comments is quoted alike. -/
theorem build_alike {source source' : Source} {σ : Span → Span → Prop} {held : Node → Prop}
    {p p' : Program} (hmatch : ProgramMatches σ held p p') (mode : Markup.Mode)
    (hquotes : Builder.QuotesAlike source source' σ held (Builder.nodesLedger source
      (Builder.push { machine := { mode } } (.block [])) p.body).hidden) :
    Together (fun r r' : Template × List Diagnostic => r.1.bare = r'.1.bare)
      (build source mode p) (build source' mode p') := by
  rw [build, build]
  refine (Builder.program_alike hmatch rfl hquotes).bind ?_
  rintro ⟨block, b⟩ ⟨block', b'⟩ - ⟨hblock, -⟩
  rw [bareBlock, bareBlock] at hblock
  have hbody : bareStatements block.body = bareStatements block'.body :=
    congrArg Block.body hblock
  exact .ok (congrArg (Template.mk · .dummy) hbody)

end Template

end TemplateCompiler
