/-
Which elements have children.

An element that is void, or that closes itself, is complete at the end of its
start tag.  Only the other elements are put on the stack, so only they are ever
given children.

* `Statement.Closes` — an element has no children unless it was opened;
* `Builder.Closing` — so it is in a tree while it is built, and no void or
  self-closing element is open;
* `mustache_frames`, `mustacheComment_frames`, `partialCall_frames` — a tag in
  braces becomes a statement or leaves the frames alone;
* `observe_closing`, `node_closing` — one event, and one statement of a program;
* `parse_closes` — every template that was parsed.
-/
import TemplateCompiler.Proofs.Template.Tags
import TemplateCompiler.Template.Parse

namespace TemplateCompiler.Template

open Markup (Event Region)
open Mustache (Node Content Program)

/-- A start tag that opens an element. -/
def StartTag.Opens (tag : StartTag) : Prop := isVoid tag.name = false ∧ tag.selfClosing = false

/-- An element has no children unless its start tag opens it. -/
def Statement.Closes : Statement → Prop
  | .element tag children _ => children = [] ∨ tag.Opens
  | _ => True

/-- Every element in statements is closed where it should be. -/
def Close (ss : List Statement) : Prop := ∀ s ∈ statementsWithin ss, s.Closes

theorem Close.nil : Close [] := by
  intro s hs
  simp [statementsWithin] at hs

theorem close_append {a b : List Statement} : Close (a ++ b) ↔ Close a ∧ Close b := by
  unfold Close
  rw [statementsWithin_append]
  exact List.forall_mem_append

/-- A statement without statements in it. -/
theorem Close.leaf {s : Statement} (hwithin : s.within = [s]) (hs : s.Closes) : Close [s] := by
  intro s' hs'
  rw [statementsWithin_singleton, hwithin] at hs'
  exact List.mem_singleton.mp hs' ▸ hs

theorem Close.element {tag : StartTag} {children : List Statement} {span : Span}
    (htag : children = [] ∨ tag.Opens) (hchildren : Close children) :
    Close [.element tag children span] := by
  intro s hs
  rw [statementsWithin_singleton, Statement.within] at hs
  rcases List.mem_cons.mp hs with rfl | hs
  · exact htag
  · exact hchildren s hs

theorem Close.block {tag : BlockTag} {program : Block Statement}
    {other : Option (Block Statement)} (hprogram : Close program.body)
    (hother : ∀ block, other = some block → Close block.body) :
    Close [.block tag program other] := by
  obtain ⟨body, params, chained, span⟩ := program
  intro s hs
  rw [statementsWithin_singleton, Statement.within] at hs
  rcases List.mem_cons.mp hs with rfl | hs
  · trivial
  rcases List.mem_append.mp hs with hs | hs
  · exact hprogram s (by simpa only [blockWithin] using hs)
  · cases other with
    | none => simp [otherWithin] at hs
    | some block =>
      obtain ⟨body', params', chained', span'⟩ := block
      exact hother _ rfl s (by simpa only [otherWithin, blockWithin] using hs)

/-- What is in an open frame is closed, and an open element was opened. -/
def Frame.Closes : Frame → Prop
  | .block body => Close body
  | .element tag children _ => tag.Opens ∧ Close children

theorem Frame.Closes.push {f : Frame} {s : Statement} (hf : f.Closes) (hs : Close [s]) :
    (f.push s).Closes := by
  cases f with
  | block body => exact close_append.mpr ⟨hf, hs⟩
  | element tag children span => exact ⟨hf.1, close_append.mpr ⟨hf.2, hs⟩⟩

namespace Builder

variable {source : Source} {base : List Frame} {b b' : Builder}

/-- Everything in the frames is closed where it should be. -/
def Closing (b : Builder) : Prop := ∀ f ∈ b.frames, f.Closes

theorem Closing.of_frames (h : b.Closing) (hframes : b'.frames = b.frames) : b'.Closing := by
  intro f hf
  rw [hframes] at hf
  exact h f hf

theorem Closing.append {s : Statement} (h : b.Closing) (hs : Close [s]) :
    (b.append s).Closing := by
  intro f hf
  rw [Builder.append] at hf
  split at hf
  · next frame rest hframes =>
    rcases List.mem_cons.mp hf with rfl | hf
    · exact (h frame (by rw [hframes]; exact List.mem_cons_self)).push hs
    · exact h f (by rw [hframes]; exact List.mem_cons_of_mem _ hf)
  · exact h f hf

theorem Closing.push {f : Frame} (h : b.Closing) (hf : f.Closes) : (b.push f).Closing := by
  intro f' hf'
  rcases List.mem_cons.mp hf' with rfl | hf'
  · exact hf
  · exact h f' hf'

/-- A program begins with nothing in it. -/
theorem Closing.begin (h : b.Closing) : (b.push (.block [])).Closing :=
  h.push (f := .block []) .nil

/-! ### Events -/

theorem finishTag_closing {pos : Nat} (hclosing : b.Closing)
    (h : b.finishTag source pos = .ok b') : b'.Closing := by
  cases finishTag_runs h with
  | absent => exact hclosing
  | complete =>
    exact Closing.append (b := { b with tag := none }) hclosing (.element (.inl rfl) .nil)
  | opened _ _ _ hopens =>
    exact Closing.push (b := { b with tag := none }) hclosing ⟨hopens, .nil⟩
  | @closed tag children span rest _ _ _ hframes =>
    have hframe := hclosing (.element tag children span) (by simp [hframes])
    have hrest : Closing { b with tag := none, frames := rest } := fun f hf =>
      hclosing f (by rw [hframes]; exact List.mem_cons_of_mem _ hf)
    exact hrest.append (.element (.inr hframe.1) hframe.2)

/-- An event adds a text, a comment or an element, or leaves the frames alone. -/
theorem observe_closing {e : Event} (hclosing : b.Closing) (h : b.observe source e = .ok b') :
    b'.Closing := by
  cases e
  case finishData pos =>
    simp only [observe] at h
    split at h <;> cases h
    · exact Closing.append (hclosing.of_frames rfl)
        (.leaf (by simp only [Statement.within]) trivial)
    · exact hclosing
  case finishComment pos =>
    simp only [observe] at h
    split at h <;> cases h
    · exact Closing.append (hclosing.of_frames rfl)
        (.leaf (by simp only [Statement.within]) trivial)
    · exact hclosing
  case finishTag pos => exact finishTag_closing hclosing h
  case finishAttributeValue pos => exact hclosing.of_frames (finishAttr_leaves h).2
  all_goals
    cases h
    exact hclosing.of_frames rfl

theorem observeAll_closing {events : List Event} (hclosing : b.Closing)
    (h : b.observeAll source events = .ok b') : b'.Closing := by
  induction events generalizing b with
  | nil =>
    cases h
    exact hclosing
  | cons e rest ih =>
    obtain ⟨b₁, h₁, h⟩ := observeAll_cons.mp h
    exact ih (observe_closing hclosing h₁) h

/-! ### Tags in braces -/

theorem addModifier_frames {m : MustacheTag} (h : b.addModifier m = .ok b') :
    b'.frames = b.frames := by
  cases addModifier_runs h with
  | joined => rfl
  | dropped => rfl

/-- A mustache becomes a statement, or a part of what is being read. -/
theorem mustache_frames {m : MustacheTag} (h : b.mustache source m = .ok b') :
    b'.frames = b.frames ∨ b'.frames = (b.append (.mustache m)).frames := by
  cases mustache_runs h with
  | inComment => exact .inl rfl
  | modifier _ hadd => exact .inl (addModifier_frames hadd)
  | afterName _ hvalue hadd =>
    -- The attribute that the modifier ends joins the start tag.
    exact .inl ((addModifier_frames hadd).trans (emptyValue_leaves hvalue).2)
  | afterValue _ hadd =>
    have hframes := addModifier_frames hadd
    exact .inl hframes
  | beginValue _ hbegin =>
    cases hbegin
    exact .inl rfl
  | part => exact .inl rfl
  | statement => exact .inr rfl

theorem mustacheComment_frames {c : Comment} (h : b.mustacheComment source c = .ok b') :
    b'.frames = b.frames ∨ b'.frames = (b.append (.mustacheComment c)).frames := by
  cases mustacheComment_runs h with
  | inComment => exact .inl rfl
  | statement => exact .inr rfl
  | note => exact .inl rfl

theorem partialCall_frames {p : PartialTag} (h : b.partialCall source p = .ok b') :
    b'.frames = b.frames ∨ b'.frames = (b.append (.partialCall p)).frames := by
  cases partialCall_runs h with
  | inComment => exact .inl rfl
  | statement => exact .inr rfl

/-- A tag that becomes a statement, or leaves the frames alone. -/
theorem Closing.place {s : Statement} (h : b.Closing) (hwithin : s.within = [s]) (hs : s.Closes)
    (hframes : b'.frames = b.frames ∨ b'.frames = (b.append s).frames) : b'.Closing := by
  rcases hframes with hframes | hframes
  · exact h.of_frames hframes
  · exact (h.append (.leaf hwithin hs)).of_frames hframes

/-! ### Programs -/

/-- A program takes its frame off the stack, and what was in it is closed. -/
theorem program_closing {p : Program} {block : Block Statement}
    (hnodes : ∀ b₁, nodes source (b.push (.block [])) p.body = .ok b₁ → b₁.Closing)
    (h : b.program source p = .ok (block, b')) : b'.Closing ∧ Close block.body := by
  obtain ⟨b₁, hrun, hend⟩ := program_eq_ok.mp h
  obtain ⟨-, body, rest, hframes, rfl, rfl⟩ := endProgram_eq_ok.mp hend
  have hclosing := hnodes b₁ hrun
  constructor
  · intro f hf
    exact hclosing f (by rw [hframes]; exact List.mem_cons_of_mem _ hf)
  · exact hclosing (.block body) (by rw [hframes]; exact List.mem_cons_self)

mutual

theorem node_closing (n : Node) {b b' : Builder} (hclosing : b.Closing)
    (h : b.node source n = .ok b') : b'.Closing := by
  match n with
  | .content c =>
    rw [node, content] at h
    simp only at h
    refine observeAll_closing ?_ h
    exact hclosing.of_frames rfl
  | .comment value strip span =>
    rw [node] at h
    exact hclosing.place (s := .mustacheComment { value, span })
      (by simp only [Statement.within]) trivial (mustacheComment_frames h)
  | .mustache tag =>
    rw [node] at h
    exact hclosing.place (s := .mustache tag) (by simp only [Statement.within]) trivial
      (mustache_frames h)
  | .partialCall tag =>
    rw [node] at h
    exact hclosing.place (s := .partialCall tag) (by simp only [Statement.within]) trivial
      (partialCall_frames h)
  | .block tag ⟨body, names, chained, span⟩ other =>
    match other, block_runs h with
    | _, .inComment _ => exact hclosing.of_frames rfl
    -- The frames of the program are closed in it, and the block joins those outside.
    | none, .alone _ hprogram =>
      obtain ⟨hclosing₁, hclose⟩ := program_closing
        (fun _ => nodes_closing body hclosing.begin) hprogram
      exact hclosing₁.append (.block hclose (by simp))
    | some ⟨otherBody, otherNames, otherChained, otherSpan⟩, .withElse _ hprogram hinverse =>
      obtain ⟨hclosing₁, hclose⟩ := program_closing
        (fun _ => nodes_closing body hclosing.begin) hprogram
      obtain ⟨hclosing₂, hclose'⟩ := program_closing
        (fun _ => nodes_closing otherBody hclosing₁.begin) hinverse
      refine hclosing₂.append (.block hclose fun block hblock => ?_)
      exact Option.some.inj hblock ▸ hclose'

theorem nodes_closing (ns : List Node) {b b' : Builder} (hclosing : b.Closing)
    (h : b.nodes source ns = .ok b') : b'.Closing := by
  match ns with
  | [] =>
    rw [nodes] at h
    cases h
    exact hclosing
  | n :: rest =>
    obtain ⟨b₁, hnode, hrest⟩ := nodes_cons_eq_ok.mp h
    exact nodes_closing rest (node_closing n hclosing hnode) hrest

end

end Builder

/-- In a template that was parsed only elements that were opened have children. -/
theorem parse_closes {source : Source} {mode : Markup.Mode} {t : Template}
    {warnings : List Diagnostic} (h : parse source mode = .ok (t, warnings)) : Close t.body := by
  obtain ⟨program, -, hbuild⟩ := parse_eq_ok.mp h
  obtain ⟨block, b, hprogram, rfl, -⟩ := build_eq_ok.mp hbuild
  have hstart : Builder.Closing { machine := { mode } } := by
    intro f hf
    cases hf
  exact (Builder.program_closing (fun _ => Builder.nodes_closing _ hstart.begin) hprogram).2

end TemplateCompiler.Template
