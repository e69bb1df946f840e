/-
What whitespace control does to a program.

* `Content.StripsTo` — a run of text loses blanks at its ends, and knows where
  the rest begins;
* `Node.StripsTo`, `NodesStripTo` — a statement, or statements in order, of which
  only runs of text change;
* `stripProgram_stripsTo` — a program after whitespace control.

Design notes: whitespace control goes over some runs more than once, from the
inside and from the outside of a block.  The relation is transitive, so each pass
is settled on its own and no pass needs to know of the others.
-/
import TemplateCompiler.Mustache.Whitespace
import TemplateCompiler.Proofs.Template.Within

namespace TemplateCompiler.Mustache

open Template (BlockTag MustacheTag PartialTag)

/-! ### One run of text -/

/-- A run of text loses blanks at its ends. -/
structure Content.StripsTo (c c' : Content) : Prop where
  written : c'.written = c.written
  span : c'.span = c.span
  kept : ∃ front back, c.value = front ++ c'.value ++ back ∧
    c'.valueStart = c.valueStart + Text.byteLength front ∧
    (∀ x ∈ front, Text.isBlank x) ∧ ∀ x ∈ back, Text.isBlank x

namespace Content

theorem StripsTo.refl (c : Content) : c.StripsTo c :=
  ⟨rfl, rfl, [], [], by simp⟩

theorem StripsTo.trans {a b c : Content} (hab : a.StripsTo b) (hbc : b.StripsTo c) :
    a.StripsTo c := by
  obtain ⟨front₁, back₁, hvalue₁, hstart₁, hfront₁, hback₁⟩ := hab.kept
  obtain ⟨front₂, back₂, hvalue₂, hstart₂, hfront₂, hback₂⟩ := hbc.kept
  refine ⟨hbc.written.trans hab.written, hbc.span.trans hab.span, front₁ ++ front₂,
    back₂ ++ back₁, ?_, ?_, ?_, ?_⟩
  · rw [hvalue₁, hvalue₂]
    simp
  · rw [hstart₂, hstart₁, Text.byteLength_append, Nat.add_assoc]
  · exact List.forall_mem_append.mpr ⟨hfront₁, hfront₂⟩
  · exact List.forall_mem_append.mpr ⟨hback₂, hback₁⟩

end Content

theorem isBlank_of_isIndent {x : Char} (h : isIndent x = true) : Text.isBlank x = true := by
  simp only [isIndent, Bool.or_eq_true, beq_iff_eq] at h
  rcases h with rfl | rfl <;> decide

/-- What is dropped at the start of a line is blank. -/
theorem dropLineStart_blanks (cs : List Char) :
    ∃ front, cs = front ++ dropLineStart cs ∧ ∀ x ∈ front, Text.isBlank x := by
  have hindent : ∀ x ∈ cs.takeWhile isIndent, Text.isBlank x := fun x hx =>
    isBlank_of_isIndent (List.all_eq_true.mp List.all_takeWhile x hx)
  have hcs : cs.takeWhile isIndent ++ cs.dropWhile isIndent = cs :=
    List.takeWhile_append_dropWhile
  -- The blanks that are dropped are the indentation and the line break after it.
  have hbreak : ∀ (breaks rest : List Char), (∀ x ∈ breaks, Text.isBlank x) →
      cs.dropWhile isIndent = breaks ++ rest →
      ∃ front, cs = front ++ rest ∧ ∀ x ∈ front, Text.isBlank x := by
    intro breaks rest hblank hrest
    refine ⟨cs.takeWhile isIndent ++ breaks, ?_, List.forall_mem_append.mpr ⟨hindent, hblank⟩⟩
    rw [List.append_assoc, ← hrest, hcs]
  have hreturn : Text.isBlank '\r' = true := by decide
  have hfeed : Text.isBlank '\n' = true := by decide
  rw [dropLineStart]
  split
  · next rest hrest => exact hbreak ['\r', '\n'] rest (by simp [hreturn, hfeed]) hrest
  · next rest _ hrest => exact hbreak ['\r'] rest (by simp [hreturn]) hrest
  · next rest hrest => exact hbreak ['\n'] rest (by simp [hfeed]) hrest
  · exact hbreak [] _ (by simp) rfl

theorem dropWhile_blanks (p : Char → Bool) (hp : ∀ x, p x = true → Text.isBlank x = true)
    (cs : List Char) : ∃ front, cs = front ++ cs.dropWhile p ∧ ∀ x ∈ front, Text.isBlank x :=
  ⟨cs.takeWhile p, (List.takeWhile_append_dropWhile).symm,
    fun x hx => hp x (List.all_eq_true.mp List.all_takeWhile x hx)⟩

theorem dropEndWhile_blanks (p : Char → Bool) (hp : ∀ x, p x = true → Text.isBlank x = true)
    (cs : List Char) :
    ∃ back, cs = Text.dropEndWhile p cs ++ back ∧ ∀ x ∈ back, Text.isBlank x := by
  obtain ⟨front, hfront, hblank⟩ := dropWhile_blanks p hp cs.reverse
  refine ⟨front.reverse, ?_, fun x hx => hblank x (List.mem_reverse.mp hx)⟩
  rw [Text.dropEndWhile, ← List.reverse_append, ← hfront, List.reverse_reverse]

theorem Content.stripStart_stripsTo (c : Content) (all : Bool) :
    c.StripsTo (c.stripStart all) := by
  rw [Content.stripStart]
  split
  · exact Content.StripsTo.refl c
  · obtain ⟨front, hfront, hblank⟩ : ∃ front,
        c.value = front ++ (if all then Text.trimStart c.value else dropLineStart c.value) ∧
          ∀ x ∈ front, Text.isBlank x := by
      split
      · exact dropWhile_blanks Text.isBlank (fun _ h => h) c.value
      · exact dropLineStart_blanks c.value
    refine ⟨rfl, rfl, front, [], by simpa using hfront, ?_, hblank, by simp⟩
    have hbytes := congrArg Text.byteLength hfront
    rw [Text.byteLength_append] at hbytes
    simp only
    omega

theorem Content.stripEnd_stripsTo (c : Content) (all : Bool) : c.StripsTo (c.stripEnd all) := by
  rw [Content.stripEnd]
  split
  · exact Content.StripsTo.refl c
  · obtain ⟨back, hback, hblank⟩ : ∃ back,
        c.value = (if all then Text.trimEnd c.value else Text.dropEndWhile isIndent c.value)
          ++ back ∧ ∀ x ∈ back, Text.isBlank x := by
      split
      · exact dropEndWhile_blanks Text.isBlank (fun _ h => h) c.value
      · exact dropEndWhile_blanks isIndent (fun _ h => isBlank_of_isIndent h) c.value
    exact ⟨rfl, rfl, [], back, by simpa using hback, rfl, by simp, hblank⟩

/-! ### Statements -/

mutual

/-- A statement of which only runs of text change. -/
inductive Node.StripsTo : Node → Node → Prop
  | content {c c' : Content} (h : c.StripsTo c') : Node.StripsTo (.content c) (.content c')
  | comment {value : String} {strip : Strip} {span : Span} :
    Node.StripsTo (.comment value strip span) (.comment value strip span)
  | mustache {tag : MustacheTag} : Node.StripsTo (.mustache tag) (.mustache tag)
  | partialCall {tag : PartialTag} : Node.StripsTo (.partialCall tag) (.partialCall tag)
  | block {tag : BlockTag} {program program' : Program} {other other' : Option Program}
    (hprogram : ProgramStripsTo program program') (hother : OtherStripsTo other other') :
    Node.StripsTo (.block tag program other) (.block tag program' other')

/-- Statements in order. -/
inductive NodesStripTo : List Node → List Node → Prop
  | nil : NodesStripTo [] []
  | cons {n n' : Node} {rest rest' : List Node} (hfirst : Node.StripsTo n n')
    (hrest : NodesStripTo rest rest') : NodesStripTo (n :: rest) (n' :: rest')

/-- A program. -/
inductive ProgramStripsTo : Program → Program → Prop
  | mk {body body' : List Node} {names : List String} {chained : Bool} {span : Span}
    (hbody : NodesStripTo body body') :
    ProgramStripsTo ⟨body, names, chained, span⟩ ⟨body', names, chained, span⟩

/-- A program that may be missing. -/
inductive OtherStripsTo : Option Program → Option Program → Prop
  | none : OtherStripsTo none none
  | some {program program' : Program} (hprogram : ProgramStripsTo program program') :
    OtherStripsTo (some program) (some program')

end

mutual

theorem Node.StripsTo.refl (n : Node) : n.StripsTo n := by
  match n with
  | .content c => exact .content (.refl c)
  | .comment _ _ _ => exact .comment
  | .mustache _ => exact .mustache
  | .partialCall _ => exact .partialCall
  | .block _ program other => exact .block (ProgramStripsTo.refl program) (OtherStripsTo.refl other)

theorem NodesStripTo.refl (body : List Node) : NodesStripTo body body := by
  match body with
  | [] => exact .nil
  | n :: rest => exact .cons (Node.StripsTo.refl n) (NodesStripTo.refl rest)

theorem ProgramStripsTo.refl (program : Program) : ProgramStripsTo program program := by
  match program with
  | ⟨body, _, _, _⟩ => exact .mk (NodesStripTo.refl body)

theorem OtherStripsTo.refl (other : Option Program) : OtherStripsTo other other := by
  match other with
  | none => exact .none
  | some program => exact .some (ProgramStripsTo.refl program)

end

mutual

theorem Node.StripsTo.trans {a b c : Node} : a.StripsTo b → b.StripsTo c → a.StripsTo c
  | .content hab, .content hbc => .content (hab.trans hbc)
  | .comment, h => h
  | .mustache, h => h
  | .partialCall, h => h
  | .block hprogram hother, .block hprogram' hother' =>
    .block (hprogram.trans hprogram') (hother.trans hother')

theorem NodesStripTo.trans {a b c : List Node} :
    NodesStripTo a b → NodesStripTo b c → NodesStripTo a c
  | .nil, h => h
  | .cons hfirst hrest, .cons hfirst' hrest' => .cons (hfirst.trans hfirst') (hrest.trans hrest')

theorem ProgramStripsTo.trans {a b c : Program} :
    ProgramStripsTo a b → ProgramStripsTo b c → ProgramStripsTo a c
  | .mk hbody, .mk hbody' => .mk (hbody.trans hbody')

theorem OtherStripsTo.trans {a b c : Option Program} :
    OtherStripsTo a b → OtherStripsTo b c → OtherStripsTo a c
  | .none, h => h
  | .some hprogram, .some hprogram' => .some (hprogram.trans hprogram')

end

theorem ProgramStripsTo.of_body {program : Program} {body : List Node}
    (h : NodesStripTo program.body body) : ProgramStripsTo program { program with body } := by
  cases program
  exact .mk h

theorem applyIf_stripsTo {asked : Bool} {f : Content → Content}
    (hf : ∀ c : Content, c.StripsTo (f c)) (c : Content) : c.StripsTo (applyIf asked f c) := by
  rw [applyIf]
  split
  · exact hf c
  · exact .refl c

theorem applyIf_nodesStripTo {asked : Bool} {f : List Node → List Node}
    (hf : ∀ body, NodesStripTo body (f body)) (body : List Node) :
    NodesStripTo body (applyIf asked f body) := by
  rw [applyIf]
  split
  · exact hf body
  · exact .refl body

theorem onFirst_stripsTo {f : Content → Content} (hf : ∀ c : Content, c.StripsTo (f c))
    (body : List Node) : NodesStripTo body (onFirst f body) := by
  unfold onFirst
  split
  · exact .cons (.content (hf _)) (.refl _)
  · exact .refl _

theorem onLast_stripsTo {f : Content → Content} (hf : ∀ c : Content, c.StripsTo (f c))
    (body : List Node) : NodesStripTo body (onLast f body) := by
  fun_induction onLast f body with
  -- No statement.
  | case1 => exact .nil
  -- A run of text at the end.
  | case2 c => exact .cons (.content (hf c)) .nil
  -- A statement before the end, or one that is no text.
  | case3 n rest _ ih => exact .cons (.refl n) ih

theorem onInverseTarget_stripsTo {f : List Node → List Node}
    (hf : ∀ body, NodesStripTo body (f body)) (inverse : Program) :
    ProgramStripsTo inverse (onInverseTarget f inverse) := by
  rw [onInverseTarget]
  split
  · next tag program other rest _ hbody =>
    refine .of_body ?_
    rw [hbody]
    exact .cons (.block (.of_body (hf program.body)) (OtherStripsTo.refl other)) (.refl rest)
  · exact .of_body (hf inverse.body)

/-! ### Blocks -/

theorem first_stripsTo (asked all : Bool) (body : List Node) :
    NodesStripTo body (applyIf asked (onFirst (·.stripStart all)) body) :=
  applyIf_nodesStripTo (onFirst_stripsTo fun c => c.stripStart_stripsTo all) body

theorem last_stripsTo (asked all : Bool) (body : List Node) :
    NodesStripTo body (applyIf asked (onLast (·.stripEnd all)) body) :=
  applyIf_nodesStripTo (onLast_stripsTo fun c => c.stripEnd_stripsTo all) body

theorem stripBranches_stripsTo (tag : BlockTag) (program : Program) (inverse : Option Program) :
    ProgramStripsTo program (stripBranches tag program inverse).1 ∧
      OtherStripsTo inverse (stripBranches tag program inverse).2 := by
  unfold stripBranches
  cases inverse with
  | none =>
    exact ⟨.of_body ((first_stripsTo _ _ _).trans (last_stripsTo _ _ _)), .none⟩
  | some other =>
    refine ⟨.of_body ?_, .some (onInverseTarget_stripsTo (fun body => ?_) other)⟩
    · exact ((first_stripsTo _ _ _).trans (last_stripsTo _ _ _)).trans (last_stripsTo _ _ _)
    · exact ((first_stripsTo _ _ _).trans (last_stripsTo _ _ _)).trans (first_stripsTo _ _ _)

theorem stripStandalone_stripsTo (e : Edges) (program : Program) (inverse : Option Program) :
    ProgramStripsTo program (stripStandalone e (program, inverse)).1 ∧
      OtherStripsTo inverse (stripStandalone e (program, inverse)).2 := by
  unfold stripStandalone
  cases inverse with
  | none =>
    exact ⟨.of_body ((first_stripsTo _ _ _).trans (last_stripsTo _ _ _)), .none⟩
  | some other =>
    exact ⟨.of_body (first_stripsTo _ _ _), .some (.of_body (last_stripsTo _ _ _))⟩

/-- The two branches of a block, at its own tags and then at the lines of its
tags. -/
theorem branches_stripTo (tag : BlockTag) (e : Edges) {program program' : Program}
    {other other' : Option Program} (hprogram : ProgramStripsTo program program')
    (hother : OtherStripsTo other other') :
    Node.StripsTo (.block tag program other)
      (.block tag (stripStandalone e (stripBranches tag program' other')).1
        (stripStandalone e (stripBranches tag program' other')).2) := by
  obtain ⟨hprogram₁, hother₁⟩ := stripBranches_stripsTo tag program' other'
  obtain ⟨hprogram₂, hother₂⟩ := stripStandalone_stripsTo e (stripBranches tag program' other').1
    (stripBranches tag program' other').2
  exact .block ((hprogram.trans hprogram₁).trans hprogram₂) ((hother.trans hother₁).trans hother₂)

/-! ### Programs -/

theorem stripFollowing_stripsTo (e : Edges) (c : Content) : c.StripsTo (e.stripFollowing c) :=
  ((applyIf_stripsTo (fun c => c.stripStart_stripsTo true) c).trans
    (applyIf_stripsTo (fun c => c.stripStart_stripsTo false) _)).trans
    (applyIf_stripsTo (fun c => c.stripStart_stripsTo false) _)

theorem stripPreceding_stripsTo (e : Edges) (c : Content) : c.StripsTo (e.stripPreceding c) :=
  ((applyIf_stripsTo (fun c => c.stripEnd_stripsTo true) c).trans
    (applyIf_stripsTo (fun c => c.stripEnd_stripsTo false) _)).trans
    (applyIf_stripsTo (fun c => c.stripEnd_stripsTo false) _)

theorem stripContent_stripsTo (root : Bool) (before : List Node) (c : Content)
    (after : List Node) : c.StripsTo (stripContent root before c after) := by
  unfold stripContent
  extract_lets c₁
  -- The neighbour in front is asked first, and sees the run as it was.
  have hbefore : c.StripsTo c₁ := by
    unfold c₁
    split
    · exact .refl c
    · split
      · exact stripFollowing_stripsTo _ c
      · exact .refl c
  refine hbefore.trans ?_
  split
  · exact .refl c₁
  · split
    · exact stripPreceding_stripsTo _ c₁
    · exact .refl c₁

mutual

theorem stripNode_stripsTo (root : Bool) (before : List Node) (node : Node) (after : List Node) :
    node.StripsTo (stripNode root before node after) := by
  match node with
  | .content c =>
    unfold stripNode
    exact .content (stripContent_stripsTo root before c after)
  | .comment _ _ _ =>
    unfold stripNode
    exact .comment
  | .mustache _ =>
    unfold stripNode
    exact .mustache
  | .partialCall _ =>
    unfold stripNode
    exact .partialCall
  | .block tag ⟨body, names, chained, span⟩ none =>
    unfold stripNode
    exact branches_stripTo tag _ (.mk (stripBody_stripsTo false [] body)) .none
  | .block tag ⟨body, names, chained, span⟩ (some ⟨other, otherNames, otherChained, otherSpan⟩) =>
    unfold stripNode
    exact branches_stripTo tag _ (.mk (stripBody_stripsTo false [] body))
      (.some (.mk (stripBody_stripsTo false [] other)))

theorem stripBody_stripsTo (root : Bool) (before body : List Node) :
    NodesStripTo body (stripBody root before body) := by
  match body with
  | [] =>
    rw [stripBody]
    exact .nil
  | node :: rest =>
    rw [stripBody]
    exact .cons (stripNode_stripsTo root before node rest)
      (stripBody_stripsTo root (node :: before) rest)

end

/-- Whitespace control changes runs of text only, and of these only the ends. -/
theorem stripProgram_stripsTo (program : Program) :
    ProgramStripsTo program (stripProgram program) :=
  .of_body (stripBody_stripsTo true [] program.body)

/-! ### What is left of a run of text -/

mutual

theorem Node.StripsTo.content_within {n n' : Node} {text' : Content} :
    n.StripsTo n' → .content text' ∈ n'.within →
      ∃ text, .content text ∈ n.within ∧ text.StripsTo text'
  | .content h, hmem => by
    simp only [Node.within, List.mem_singleton, Node.content.injEq] at hmem
    subst hmem
    exact ⟨_, by simp [Node.within], h⟩
  | .comment, hmem => by simp [Node.within] at hmem
  | .mustache, hmem => by simp [Node.within] at hmem
  | .partialCall, hmem => by simp [Node.within] at hmem
  | .block hprogram hother, hmem => by
    simp only [Node.within, List.mem_cons, List.mem_append, reduceCtorEq, false_or] at hmem ⊢
    rcases hmem with hmem | hmem
    · obtain ⟨text, htext, hstrips⟩ := hprogram.content_within hmem
      exact ⟨text, .inl htext, hstrips⟩
    · obtain ⟨text, htext, hstrips⟩ := hother.content_within hmem
      exact ⟨text, .inr htext, hstrips⟩

theorem NodesStripTo.content_within {body body' : List Node} {text' : Content} :
    NodesStripTo body body' → .content text' ∈ nodesWithin body' →
      ∃ text, .content text ∈ nodesWithin body ∧ text.StripsTo text'
  | .nil, hmem => by simp [nodesWithin] at hmem
  | .cons hfirst hrest, hmem => by
    simp only [nodesWithin, List.mem_append] at hmem ⊢
    rcases hmem with hmem | hmem
    · obtain ⟨text, htext, hstrips⟩ := hfirst.content_within hmem
      exact ⟨text, .inl htext, hstrips⟩
    · obtain ⟨text, htext, hstrips⟩ := hrest.content_within hmem
      exact ⟨text, .inr htext, hstrips⟩

theorem ProgramStripsTo.content_within {program program' : Program} {text' : Content} :
    ProgramStripsTo program program' → .content text' ∈ programWithin program' →
      ∃ text, .content text ∈ programWithin program ∧ text.StripsTo text'
  | .mk hbody, hmem => by
    rw [programWithin_eq] at hmem ⊢
    exact hbody.content_within hmem

theorem OtherStripsTo.content_within {other other' : Option Program} {text' : Content} :
    OtherStripsTo other other' → .content text' ∈ otherWithin other' →
      ∃ text, .content text ∈ otherWithin other ∧ text.StripsTo text'
  | .none, hmem => by simp [otherWithin] at hmem
  | .some hprogram, hmem => by
    simp only [otherWithin] at hmem ⊢
    exact hprogram.content_within hmem

end

end TemplateCompiler.Mustache
