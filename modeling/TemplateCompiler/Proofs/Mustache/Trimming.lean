/-
What whitespace control takes from a run of text.

A run may be asked several times to give up blanks: by the tags beside it, by the
tags of the block around it and by an `else`.  Each time it is asked at its start
or at its end, for all of its blanks or for those of one line.

* `Content.Trims` — what a run that was asked for this and that has lost;
* `Content.Trims.stripStart`, `Content.Trims.stripEnd` — one more request;
* `stripProgram_holds` — what every request keeps holds of every run of a
  stripped program;
* `programAsWritten` — a program with every run as it was read;
* `stripProgram_trims` — whitespace control changes nothing but runs of text, takes
  blanks from their ends only, and takes no more than one line break where no tag
  has a tilde.

A run remembers at each end whether the last request took something there, and then
refuses to give up a line.  A request for a line that took nothing finds nothing
the next time either, because nothing is ever put back.  So without tildes what is
missing at an end was taken by one request alone.
-/
import TemplateCompiler.Proofs.Mustache.Stripping
import TemplateCompiler.Proofs.Mustache.Unambiguity

namespace TemplateCompiler.Mustache

open Template (BlockTag)

/-! ### One run of text -/

/-- The rest of a line: indentation, and at most one line break. -/
def IsLineStart (cs : List Char) : Prop :=
  ∃ indent breaks, cs = indent ++ breaks ∧ (∀ x ∈ indent, isIndent x = true) ∧
    breaks ∈ [[], ['\r'], ['\n'], ['\r', '\n']]

theorem IsLineStart.blank {cs : List Char} (h : IsLineStart cs) :
    ∀ x ∈ cs, Text.isBlank x = true := by
  obtain ⟨indent, breaks, rfl, hindent, hbreaks⟩ := h
  have hreturn : Text.isBlank '\r' = true := by decide
  have hfeed : Text.isBlank '\n' = true := by decide
  have hblank : ∀ x ∈ breaks, Text.isBlank x = true := by
    simp only [List.mem_cons, List.not_mem_nil, or_false] at hbreaks
    rcases hbreaks with rfl | rfl | rfl | rfl <;> simp [hreturn, hfeed]
  exact List.forall_mem_append.mpr ⟨fun x hx => isBlank_of_isIndent (hindent x hx), hblank⟩

/-- What is dropped at the start of a line is the rest of a line. -/
theorem dropLineStart_append (cs : List Char) :
    ∃ front, cs = front ++ dropLineStart cs ∧ IsLineStart front := by
  have hindent : ∀ x ∈ cs.takeWhile isIndent, isIndent x = true :=
    List.all_eq_true.mp List.all_takeWhile
  have hcs : cs.takeWhile isIndent ++ cs.dropWhile isIndent = cs :=
    List.takeWhile_append_dropWhile
  have hbreak : ∀ breaks rest : List Char, breaks ∈ [[], ['\r'], ['\n'], ['\r', '\n']] →
      cs.dropWhile isIndent = breaks ++ rest → ∃ front, cs = front ++ rest ∧ IsLineStart front := by
    intro breaks rest hbreaks hrest
    refine ⟨cs.takeWhile isIndent ++ breaks, ?_, _, _, rfl, hindent, hbreaks⟩
    rw [List.append_assoc, ← hrest, hcs]
  rw [dropLineStart]
  split
  · next rest hrest => exact hbreak ['\r', '\n'] rest (by simp) hrest
  · next rest _ hrest => exact hbreak ['\r'] rest (by simp) hrest
  · next rest hrest => exact hbreak ['\n'] rest (by simp) hrest
  · exact hbreak [] _ (by simp) rfl

/-- A text that starts with no blank has no line to drop at its start. -/
theorem dropLineStart_of_head {cs : List Char}
    (h : ∀ x ∈ cs.head?, Text.isBlank x = false) : dropLineStart cs = cs := by
  obtain ⟨front, hfront, hline⟩ := dropLineStart_append cs
  cases front with
  | nil => exact hfront.symm
  | cons x rest =>
    have hblank := hline.blank x List.mem_cons_self
    rw [hfront] at h
    rw [h x rfl] at hblank
    cases hblank

theorem dropWhile_head (p : Char → Bool) (cs : List Char) :
    ∀ x ∈ (cs.dropWhile p).head?, p x = false := by
  intro x hx
  have hne : cs.dropWhile p ≠ [] := by
    intro hnil
    rw [hnil] at hx
    cases hx
  have hhead := List.head_dropWhile_not p hne
  rw [List.head?_eq_some_head hne] at hx
  cases hx
  exact hhead

/-- What a request takes at the start: blanks, and no more than the rest of a line
unless it asks for all. -/
theorem takenStart (all : Bool) (cs : List Char) :
    ∃ taken, cs = taken ++ (if all = true then Text.trimStart cs else dropLineStart cs) ∧
      (∀ x ∈ taken, Text.isBlank x = true) ∧ (all = false → IsLineStart taken) := by
  cases all with
  | true =>
    obtain ⟨taken, htaken, hblank⟩ := dropWhile_blanks Text.isBlank (fun _ h => h) cs
    exact ⟨taken, htaken, hblank, fun hone => absurd hone (by decide)⟩
  | false =>
    obtain ⟨taken, htaken, hline⟩ := dropLineStart_append cs
    exact ⟨taken, htaken, hline.blank, fun _ => hline⟩

/-- What a request takes at the end: blanks, and no more than indentation unless
it asks for all. -/
theorem takenEnd (all : Bool) (cs : List Char) :
    ∃ taken,
      cs = (if all = true then Text.trimEnd cs else Text.dropEndWhile isIndent cs) ++ taken ∧
      (∀ x ∈ taken, Text.isBlank x = true) ∧ (all = false → ∀ x ∈ taken, isIndent x = true) := by
  cases all with
  | true =>
    obtain ⟨taken, htaken, hblank⟩ := dropEndWhile_blanks Text.isBlank (fun _ h => h) cs
    exact ⟨taken, htaken, hblank, fun hone => absurd hone (by decide)⟩
  | false =>
    have hindent : ∀ x ∈ (cs.reverse.takeWhile isIndent).reverse, isIndent x = true := by
      intro x hx
      exact List.all_eq_true.mp List.all_takeWhile x (List.mem_reverse.mp hx)
    refine ⟨(cs.reverse.takeWhile isIndent).reverse, ?_,
      fun x hx => isBlank_of_isIndent (hindent x hx), fun _ => hindent⟩
    show cs = (cs.reverse.dropWhile isIndent).reverse ++ (cs.reverse.takeWhile isIndent).reverse
    rw [← List.reverse_append, List.takeWhile_append_dropWhile, List.reverse_reverse]

/-- Once all blanks at the start are taken, no request finds one there. -/
theorem head_keptStart {all : Bool} {cs : List Char}
    (h : all = true ∨ ∀ x ∈ cs.head?, Text.isBlank x = false) :
    ∀ x ∈ (if all = true then Text.trimStart cs else dropLineStart cs).head?,
      Text.isBlank x = false := by
  split
  · exact dropWhile_head Text.isBlank cs
  · next hone =>
    have hhead := h.resolve_left hone
    rw [dropLineStart_of_head hhead]
    exact hhead

/-- Once all blanks at the end are taken, no request finds one there. -/
theorem last_keptEnd {all : Bool} {cs : List Char}
    (h : all = true ∨ ∀ x ∈ cs.getLast?, Text.isBlank x = false) :
    ∀ x ∈ (if all = true then Text.trimEnd cs else Text.dropEndWhile isIndent cs).getLast?,
      Text.isBlank x = false := by
  split
  · rw [Text.trimEnd, List.getLast?_reverse]
    exact dropWhile_head Text.isBlank cs.reverse
  · next hone =>
    have hlast := h.resolve_left hone
    obtain ⟨taken, htaken, hblank⟩ :=
      dropEndWhile_blanks isIndent (fun _ h => isBlank_of_isIndent h) cs
    rcases List.eq_nil_or_concat taken with rfl | ⟨rest, x, rfl⟩
    · rw [List.append_nil] at htaken
      rw [← htaken]
      exact hlast
    · -- A blank that was taken would be the last character.
      have hx := hlast x (by rw [htaken]; simp)
      rw [hblank x (by simp)] at hx
      cases hx

namespace Content

/-- What a run of text has lost: `front` at its start, which was asked for as
`starts` lists, and `back` at its end.  A request is for all blanks, or else for
those of one line. -/
structure Trims (c : Content) (starts ends : List Bool) (front back : List Char) : Prop where
  written : c.written = front ++ c.value ++ back
  start : c.valueStart = c.span.start + Text.byteLength front
  front_blank : ∀ x ∈ front, Text.isBlank x = true
  back_blank : ∀ x ∈ back, Text.isBlank x = true
  startAll : true ∈ starts → ∀ x ∈ c.value.head?, Text.isBlank x = false
  endAll : true ∈ ends → ∀ x ∈ c.value.getLast?, Text.isBlank x = false
  startLine : true ∉ starts →
    front = [] ∨ (c.rightStripped = true ∧ IsLineStart front ∧ false ∈ starts)
  endLine : true ∉ ends →
    back = [] ∨ (c.leftStripped = true ∧ (∀ x ∈ back, isIndent x = true) ∧ false ∈ ends)

theorem trims_ofText (text : String) (span : Span) :
    (Content.ofText text span).Trims [] [] [] [] where
  written := by simp [ofText]
  start := by simp [ofText]
  front_blank := by simp
  back_blank := by simp
  startAll := by simp
  endAll := by simp
  startLine _ := .inl rfl
  endLine _ := .inl rfl

variable {c : Content} {starts ends : List Bool} {front back : List Char}

/-- A run that refuses a request stays as it is. -/
theorem Trims.refuseStart (h : c.Trims starts ends front back)
    (hstripped : c.rightStripped = true) :
    c.Trims (false :: starts) ends front back where
  written := h.written
  start := h.start
  front_blank := h.front_blank
  back_blank := h.back_blank
  startAll hmem := h.startAll (by simpa using hmem)
  endAll := h.endAll
  startLine hmem := by
    rcases h.startLine (by simpa using hmem) with hfront | ⟨-, hline, -⟩
    · exact .inl hfront
    · exact .inr ⟨hstripped, hline, List.mem_cons_self⟩
  endLine := h.endLine

theorem Trims.refuseEnd (h : c.Trims starts ends front back) (hstripped : c.leftStripped = true) :
    c.Trims starts (false :: ends) front back where
  written := h.written
  start := h.start
  front_blank := h.front_blank
  back_blank := h.back_blank
  startAll := h.startAll
  endAll hmem := h.endAll (by simpa using hmem)
  startLine := h.startLine
  endLine hmem := by
    rcases h.endLine (by simpa using hmem) with hback | ⟨-, hindent, -⟩
    · exact .inl hback
    · exact .inr ⟨hstripped, hindent, List.mem_cons_self⟩

/-- A run that is asked for blanks at its start. -/
theorem Trims.stripStart (h : c.Trims starts ends front back) (all : Bool) :
    ∃ front', (c.stripStart all).Trims (all :: starts) ends front' back := by
  rw [Content.stripStart]
  split
  · next hrefused =>
    simp only [Bool.and_eq_true, Bool.not_eq_true'] at hrefused
    obtain ⟨rfl, hstripped⟩ := hrefused
    exact ⟨front, h.refuseStart hstripped⟩
  · next hasked =>
    generalize hkept : (if all = true then Text.trimStart c.value else dropLineStart c.value) = kept
    obtain ⟨removed, hremoved, hblank, hline⟩ := takenStart all c.value
    rw [hkept] at hremoved
    have hbytes := congrArg Text.byteLength hremoved
    have hlength := congrArg List.length hremoved
    rw [Text.byteLength_append] at hbytes
    rw [List.length_append] at hlength
    refine ⟨front ++ removed, ⟨?_, ?_, ?_, h.back_blank, ?_, ?_, ?_, h.endLine⟩⟩
    · show c.written = front ++ removed ++ kept ++ back
      rw [h.written, hremoved, List.append_assoc front removed kept]
    · show c.valueStart + (Text.byteLength c.value - Text.byteLength kept)
        = c.span.start + Text.byteLength (front ++ removed)
      rw [h.start, Text.byteLength_append]
      omega
    · exact List.forall_mem_append.mpr ⟨h.front_blank, hblank⟩
    · intro hmem
      show ∀ x ∈ kept.head?, Text.isBlank x = false
      rw [← hkept]
      rcases List.mem_cons.mp hmem with hall | hmem
      · exact head_keptStart (.inl hall.symm)
      · exact head_keptStart (.inr (h.startAll hmem))
    · intro hmem x hx
      refine h.endAll hmem x ?_
      rw [hremoved, List.getLast?_append]
      show x ∈ kept.getLast?.or removed.getLast?
      rw [Option.mem_def.mp hx]
      rfl
    · intro hnone
      have hone : all = false := by
        cases all with
        | true => exact absurd List.mem_cons_self hnone
        | false => rfl
      have hfirst : c.rightStripped = false := by simpa [hone] using hasked
      -- Nothing was taken before: a run that gave something up would have refused.
      have hfront : front = [] := by
        rcases h.startLine (fun hmem => hnone (List.mem_cons_of_mem _ hmem)) with
          hfront | ⟨hstripped, -⟩
        · exact hfront
        · rw [hfirst] at hstripped
          cases hstripped
      subst hfront
      cases removed with
      | nil => exact .inl rfl
      | cons x rest =>
        refine .inr ⟨?_, hline hone, by simp [hone]⟩
        show decide (kept.length < c.value.length) = true
        rw [List.length_cons] at hlength
        exact decide_eq_true (by omega)

/-- A run that is asked for blanks at its end. -/
theorem Trims.stripEnd (h : c.Trims starts ends front back) (all : Bool) :
    ∃ back', (c.stripEnd all).Trims starts (all :: ends) front back' := by
  rw [Content.stripEnd]
  split
  · next hrefused =>
    simp only [Bool.and_eq_true, Bool.not_eq_true'] at hrefused
    obtain ⟨rfl, hstripped⟩ := hrefused
    exact ⟨back, h.refuseEnd hstripped⟩
  · next hasked =>
    generalize hkept : (if all = true then Text.trimEnd c.value
      else Text.dropEndWhile isIndent c.value) = kept
    -- What is taken now goes in front of what was taken from the end before.
    obtain ⟨removed, hremoved, hblank, hindent⟩ := takenEnd all c.value
    rw [hkept] at hremoved
    have hlength := congrArg List.length hremoved
    rw [List.length_append] at hlength
    refine ⟨removed ++ back, ⟨?_, h.start, h.front_blank, ?_, ?_, ?_, h.startLine, ?_⟩⟩
    · show c.written = front ++ kept ++ (removed ++ back)
      rw [h.written, hremoved]
      simp only [List.append_assoc]
    · exact List.forall_mem_append.mpr ⟨hblank, h.back_blank⟩
    · intro hmem x hx
      refine h.startAll hmem x ?_
      rw [hremoved, List.head?_append]
      show x ∈ kept.head?.or removed.head?
      rw [Option.mem_def.mp hx]
      rfl
    · intro hmem
      show ∀ x ∈ kept.getLast?, Text.isBlank x = false
      rw [← hkept]
      rcases List.mem_cons.mp hmem with hall | hmem
      · exact last_keptEnd (.inl hall.symm)
      · exact last_keptEnd (.inr (h.endAll hmem))
    -- With no tilde so far, only indentation goes, and only once.
    · intro hnone
      have hone : all = false := by
        cases all with
        | true => exact absurd List.mem_cons_self hnone
        | false => rfl
      have hfirst : c.leftStripped = false := by simpa [hone] using hasked
      have hback : back = [] := by
        rcases h.endLine (fun hmem => hnone (List.mem_cons_of_mem _ hmem)) with
          hback | ⟨hstripped, -⟩
        · exact hback
        · rw [hfirst] at hstripped
          cases hstripped
      subst hback
      cases removed with
      | nil => exact .inl rfl
      | cons x rest =>
        refine .inr ⟨?_, by simpa using hindent hone, by simp [hone]⟩
        show decide (kept.length < c.value.length) = true
        rw [List.length_cons] at hlength
        exact decide_eq_true (by omega)

end Content

/-! ### Every run of a program -/

/-- Whether a tag of the statement itself has a tilde. -/
def Node.isMarked : Node → Bool
  | .content _ => false
  | .comment _ strip _ => strip.before || strip.after
  | .mustache tag => tag.strip.before || tag.strip.after
  | .partialCall tag => tag.strip.before || tag.strip.after
  | .block tag _ _ =>
    tag.openStrip.before || tag.openStrip.after || tag.inverseStrip.before ||
      tag.inverseStrip.after || tag.closeStrip.before || tag.closeStrip.after

/-- No statement at any depth has a tilde, unless tildes are allowed. -/
def Unmarked (tildes : Bool) (body : List Node) : Prop :=
  tildes = false → ∀ n ∈ nodesWithin body, n.isMarked = false

/-- Every run of text at any depth has a property. -/
def RunsHold (P : Content → Prop) (body : List Node) : Prop :=
  ∀ c, .content c ∈ nodesWithin body → P c

/-- Every run of a branch that may be missing has a property. -/
def OtherHolds (P : Content → Prop) : Option Program → Prop
  | none => True
  | some program => RunsHold P program.body

/-- Requests keep a property of runs; those for all blanks only where tildes are
allowed. -/
structure KeptByRequests (tildes : Bool) (P : Content → Prop) : Prop where
  start : ∀ {c : Content} {all : Bool}, (all = true → tildes = true) → P c → P (c.stripStart all)
  stop : ∀ {c : Content} {all : Bool}, (all = true → tildes = true) → P c → P (c.stripEnd all)

theorem Node.mem_within (n : Node) : n ∈ n.within := by
  cases n <;> simp [Node.within]

namespace Unmarked

variable {tildes : Bool} {n : Node} {rest : List Node}

theorem nil (tildes : Bool) : Unmarked tildes [] := by
  intro _ n hn
  rw [nodesWithin] at hn
  cases hn

theorem head (h : Unmarked tildes (n :: rest)) : tildes = false → n.isMarked = false := by
  intro htildes
  refine h htildes n ?_
  rw [nodesWithin]
  exact List.mem_append_left _ n.mem_within

theorem program {tag : BlockTag} {program : Program} {other : Option Program}
    (h : Unmarked tildes [.block tag program other]) : Unmarked tildes program.body := by
  intro htildes n hn
  refine h htildes n ?_
  simp [nodesWithin, Node.within, programWithin_eq, hn]

theorem other {tag : BlockTag} {program other : Program}
    (h : Unmarked tildes [.block tag program (some other)]) : Unmarked tildes other.body := by
  intro htildes n hn
  refine h htildes n ?_
  simp [nodesWithin, Node.within, otherWithin, programWithin_eq, hn]

/-- A tilde of a statement beside a run has been allowed. -/
theorem edges {root : Bool} {before after : List Node} {e : Edges} (h : Unmarked tildes (n :: rest))
    (hedges : n.edgesAt root before after = some e) :
    (e.strip.before = true → tildes = true) ∧ (e.strip.after = true → tildes = true) := by
  -- A tilde on an edge is one that the statement is marked with.
  have hmark : e.strip.before = true ∨ e.strip.after = true → n.isMarked = true := by
    obtain ⟨asked, hasked, rfl⟩ := Option.map_eq_some_iff.mp hedges
    cases n with
    | content c => cases hasked
    | comment value strip span =>
      cases hasked
      simp [Node.isMarked]
    | mustache tag =>
      cases hasked
      simp [Node.isMarked]
    | partialCall tag =>
      cases hasked
      simp [Node.isMarked]
    | block tag program other =>
      cases hasked
      rintro (hstrip | hstrip) <;> simp only at hstrip <;> simp [Node.isMarked, hstrip]
  have hallowed : e.strip.before = true ∨ e.strip.after = true → tildes = true := by
    intro hstrip
    cases htildes : tildes with
    | true => rfl
    | false =>
      have hnone := h.head htildes
      rw [hmark hstrip] at hnone
      cases hnone
  exact ⟨fun hstrip => hallowed (.inl hstrip), fun hstrip => hallowed (.inr hstrip)⟩

end Unmarked

theorem unmarked_cons {tildes : Bool} {n : Node} {rest : List Node} :
    Unmarked tildes (n :: rest) ↔ Unmarked tildes [n] ∧ Unmarked tildes rest := by
  simp only [Unmarked, nodesWithin, List.append_nil, List.mem_append]
  constructor
  · intro h
    exact ⟨fun htildes m hm => h htildes m (.inl hm), fun htildes m hm => h htildes m (.inr hm)⟩
  · rintro ⟨hfirst, hrest⟩ htildes m (hm | hm)
    · exact hfirst htildes m hm
    · exact hrest htildes m hm

section Holding

variable {P : Content → Prop} {tildes : Bool}

theorem runsHold_cons {n : Node} {rest : List Node} :
    RunsHold P (n :: rest) ↔ RunsHold P [n] ∧ RunsHold P rest := by
  simp only [RunsHold, nodesWithin, List.append_nil, List.mem_append]
  constructor
  · intro h
    exact ⟨fun c hmem => h c (.inl hmem), fun c hmem => h c (.inr hmem)⟩
  · rintro ⟨hfirst, hrest⟩ c (hmem | hmem)
    · exact hfirst c hmem
    · exact hrest c hmem

theorem runsHold_content {c : Content} : RunsHold P [.content c] ↔ P c := by
  simp [RunsHold, nodesWithin, Node.within]

theorem runsHold_block {tag : BlockTag} {program : Program} {other : Option Program} :
    RunsHold P [.block tag program other] ↔ RunsHold P program.body ∧ OtherHolds P other := by
  cases other with
  | none =>
    simp [RunsHold, OtherHolds, nodesWithin, Node.within, otherWithin, programWithin_eq]
  | some p =>
    simp only [RunsHold, OtherHolds, nodesWithin, Node.within, otherWithin, programWithin_eq,
      List.append_nil, List.mem_cons, List.mem_append, reduceCtorEq, false_or]
    constructor
    · intro h
      exact ⟨fun c hmem => h c (.inl hmem), fun c hmem => h c (.inr hmem)⟩
    · rintro ⟨hprogram, hother⟩ c (hmem | hmem)
      · exact hprogram c hmem
      · exact hother c hmem

theorem applyIf_holds {α : Type} {Q : α → Prop} {asked : Bool} {f : α → α} {a : α}
    (hf : asked = true → Q a → Q (f a)) (h : Q a) : Q (applyIf asked f a) := by
  cases asked with
  | true => exact hf rfl h
  | false => exact h

theorem onFirst_holds {f : Content → Content} (hf : ∀ c, P c → P (f c)) {body : List Node}
    (h : RunsHold P body) : RunsHold P (onFirst f body) := by
  unfold onFirst
  split
  · next c rest =>
    obtain ⟨hfirst, hrest⟩ := runsHold_cons.mp h
    exact runsHold_cons.mpr ⟨runsHold_content.mpr (hf c (runsHold_content.mp hfirst)), hrest⟩
  · exact h

theorem onLast_holds {f : Content → Content} (hf : ∀ c, P c → P (f c)) {body : List Node}
    (h : RunsHold P body) : RunsHold P (onLast f body) := by
  fun_induction onLast f body with
  -- No statement.
  | case1 => exact h
  -- A run of text at the end.
  | case2 c => exact runsHold_content.mpr (hf c (runsHold_content.mp h))
  -- A statement before the end, or one that is no text.
  | case3 n rest _ ih =>
    obtain ⟨hfirst, hrest⟩ := runsHold_cons.mp h
    exact runsHold_cons.mpr ⟨hfirst, ih hrest⟩

theorem onInverseTarget_holds {f : List Node → List Node}
    (hf : ∀ body, RunsHold P body → RunsHold P (f body)) {inverse : Program}
    (h : RunsHold P inverse.body) : RunsHold P (onInverseTarget f inverse).body := by
  rw [onInverseTarget]
  split
  · next tag program other rest _ hbody =>
    rw [hbody] at h
    obtain ⟨hlink, hrest⟩ := runsHold_cons.mp h
    obtain ⟨hprogram, hother⟩ := runsHold_block.mp hlink
    exact runsHold_cons.mpr ⟨runsHold_block.mpr ⟨hf _ hprogram, hother⟩, hrest⟩
  · exact hf _ h

variable (hP : KeptByRequests tildes P)

include hP

theorem first_holds {asked all : Bool} (hall : all = true → asked = true → tildes = true)
    {body : List Node} (h : RunsHold P body) :
    RunsHold P (applyIf asked (onFirst (·.stripStart all)) body) :=
  applyIf_holds (fun hasked h => onFirst_holds (fun _ => hP.start (hall · hasked)) h) h

theorem last_holds {asked all : Bool} (hall : all = true → asked = true → tildes = true)
    {body : List Node} (h : RunsHold P body) :
    RunsHold P (applyIf asked (onLast (·.stripEnd all)) body) :=
  applyIf_holds (fun hasked h => onLast_holds (fun _ => hP.stop (hall · hasked)) h) h

theorem stripBranches_holds {tag : BlockTag} {program : Program} {inverse : Option Program}
    (htag : tildes = false → (Node.block tag program inverse).isMarked = false)
    (h : RunsHold P [.block tag program inverse]) :
    RunsHold P [.block tag (stripBranches tag program inverse).1
      (stripBranches tag program inverse).2] := by
  -- A tilde that asks for something has been allowed.
  have hallowed : ∀ mark : Bool, (mark = true → (Node.block tag program inverse).isMarked = true) →
      true = true → mark = true → tildes = true := by
    intro mark hmark _ hon
    cases htildes : tildes with
    | true => rfl
    | false =>
      rw [hmark hon] at htag
      exact absurd (htag htildes) (by decide)
  have hline : ∀ mark : Bool, false = true → mark = true → tildes = true := by
    intro mark hfalse
    cases hfalse
  have hopen := hallowed tag.openStrip.after (by simp +contextual [Node.isMarked])
  have hbefore := hallowed tag.inverseStrip.before (by simp +contextual [Node.isMarked])
  have hafter := hallowed tag.inverseStrip.after (by simp +contextual [Node.isMarked])
  have hclose := hallowed tag.closeStrip.before (by simp +contextual [Node.isMarked])
  obtain ⟨hprogram, hother⟩ := runsHold_block.mp h
  unfold stripBranches
  cases inverse with
  | none =>
    exact runsHold_block.mpr ⟨last_holds hP hclose (first_holds hP hopen hprogram), trivial⟩
  | some other =>
    refine runsHold_block.mpr
      ⟨last_holds hP (hline _) (last_holds hP hbefore (first_holds hP hopen hprogram)), ?_⟩
    refine onInverseTarget_holds (fun body hbody => ?_) hother
    exact first_holds hP (hline _) (last_holds hP hclose (first_holds hP hafter hbody))

theorem stripStandalone_holds {tag : BlockTag} {e : Edges} {program : Program}
    {inverse : Option Program} (h : RunsHold P [.block tag program inverse]) :
    RunsHold P [.block tag (stripStandalone e (program, inverse)).1
      (stripStandalone e (program, inverse)).2] := by
  have hline : ∀ mark : Bool, false = true → mark = true → tildes = true := by
    intro mark hfalse
    cases hfalse
  obtain ⟨hprogram, hother⟩ := runsHold_block.mp h
  unfold stripStandalone
  cases inverse with
  | none =>
    exact runsHold_block.mpr
      ⟨last_holds hP (hline _) (first_holds hP (hline _) hprogram), trivial⟩
  | some other =>
    exact runsHold_block.mpr
      ⟨first_holds hP (hline _) hprogram, last_holds hP (hline _) hother⟩

/-- The two branches of a block, at its own tags and then at the lines of its
tags. -/
theorem branches_hold {tag : BlockTag} {e : Edges} {program : Program} {other : Option Program}
    (htag : tildes = false → (Node.block tag program other).isMarked = false)
    (hprogram : RunsHold P program.body) (hother : OtherHolds P other) :
    RunsHold P [.block tag (stripStandalone e (stripBranches tag program other)).1
      (stripStandalone e (stripBranches tag program other)).2] :=
  stripStandalone_holds hP (stripBranches_holds hP htag (runsHold_block.mpr ⟨hprogram, hother⟩))

theorem stripFollowing_holds {e : Edges} (he : e.strip.after = true → tildes = true) {c : Content}
    (h : P c) : P (e.stripFollowing c) := by
  have hline : false = true → tildes = true := by
    intro hfalse
    cases hfalse
  unfold Edges.stripFollowing
  refine applyIf_holds (fun _ => hP.start hline) (applyIf_holds (fun _ => hP.start hline) ?_)
  exact applyIf_holds (fun hasked => hP.start (fun _ => he hasked)) h

theorem stripPreceding_holds {e : Edges} (he : e.strip.before = true → tildes = true) {c : Content}
    (h : P c) : P (e.stripPreceding c) := by
  have hline : false = true → tildes = true := by
    intro hfalse
    cases hfalse
  unfold Edges.stripPreceding
  refine applyIf_holds (fun _ => hP.stop hline) (applyIf_holds (fun _ => hP.stop hline) ?_)
  exact applyIf_holds (fun hasked => hP.stop (fun _ => he hasked)) h

theorem stripContent_holds {root : Bool} {before after : List Node} {c : Content}
    (hbefore : Unmarked tildes before) (hafter : Unmarked tildes after) (h : P c) :
    P (stripContent root before c after) := by
  unfold stripContent
  extract_lets c₁
  have hc₁ : P c₁ := by
    unfold c₁
    split
    · exact h
    · split
      · next hedges => exact stripFollowing_holds hP (hbefore.edges hedges).2 h
      · exact h
  split
  · exact hc₁
  · split
    · next hedges => exact stripPreceding_holds hP (hafter.edges hedges).1 hc₁
    · exact hc₁

end Holding

section Programs

variable {P : Content → Prop} {tildes : Bool}

mutual

theorem stripNode_holds (hP : KeptByRequests tildes P) (root : Bool) {before after : List Node}
    (hbefore : Unmarked tildes before) (hafter : Unmarked tildes after) (node : Node)
    (hnode : Unmarked tildes [node])
    (h : RunsHold P [node]) : RunsHold P [stripNode root before node after] := by
  match node with
  | .content c =>
    unfold stripNode
    exact runsHold_content.mpr (stripContent_holds hP hbefore hafter (runsHold_content.mp h))
  | .comment _ _ _ | .mustache _ | .partialCall _ =>
    unfold stripNode
    exact h
  | .block tag ⟨body, names, chained, span⟩ none =>
    unfold stripNode
    obtain ⟨hprogram, -⟩ := runsHold_block.mp h
    have hbody := stripBody_holds hP false (Unmarked.nil tildes) body hnode.program hprogram
    exact branches_hold hP hnode.head hbody trivial
  | .block tag ⟨body, names, chained, span⟩ (some ⟨other, otherNames, otherChained, otherSpan⟩) =>
    unfold stripNode
    obtain ⟨hprogram, hother⟩ := runsHold_block.mp h
    have hbody := stripBody_holds hP false (Unmarked.nil tildes) body hnode.program hprogram
    have hrest := stripBody_holds hP false (Unmarked.nil tildes) other hnode.other hother
    exact branches_hold hP hnode.head hbody hrest

theorem stripBody_holds (hP : KeptByRequests tildes P) (root : Bool) {before : List Node}
    (hbefore : Unmarked tildes before) (body : List Node) (hbody : Unmarked tildes body)
    (h : RunsHold P body) :
    RunsHold P (stripBody root before body) := by
  match body with
  | [] =>
    rw [stripBody]
    exact h
  | node :: rest =>
    rw [stripBody]
    obtain ⟨hmarks, hmore⟩ := unmarked_cons.mp hbody
    obtain ⟨hfirst, hrest⟩ := runsHold_cons.mp h
    exact runsHold_cons.mpr ⟨stripNode_holds hP root hbefore hmore node hmarks hfirst,
      stripBody_holds hP root (unmarked_cons.mpr ⟨hmarks, hbefore⟩) rest hmore hrest⟩

end

/-- What requests keep holds of every run after whitespace control. -/
theorem stripProgram_holds (hP : KeptByRequests tildes P) {program : Program}
    (hmarks : Unmarked tildes program.body)
    (h : RunsHold P program.body) : RunsHold P (stripProgram program).body :=
  stripBody_holds hP true (Unmarked.nil tildes) program.body hmarks h

end Programs

/-! ### Programs as they are read -/

/-- A run of text before whitespace control. -/
def Content.asWritten (c : Content) : Content :=
  { value := c.written, written := c.written, valueStart := c.span.start, span := c.span }

mutual

/-- A statement with every run of text as it was read. -/
def Node.asWritten : Node → Node
  | .content c => .content c.asWritten
  | .block tag program other => .block tag (programAsWritten program) (otherAsWritten other)
  | node => node

/-- Statements with every run of text as it was read. -/
def nodesAsWritten : List Node → List Node
  | [] => []
  | n :: rest => n.asWritten :: nodesAsWritten rest

/-- A program with every run of text as it was read. -/
def programAsWritten : Program → Program
  | ⟨body, names, chained, span⟩ => ⟨nodesAsWritten body, names, chained, span⟩

/-- A program that may be missing, with every run of text as it was read. -/
def otherAsWritten : Option Program → Option Program
  | none => none
  | some program => some (programAsWritten program)

end

mutual

theorem Node.StripsTo.asWritten_eq {n n' : Node} : n.StripsTo n' → n'.asWritten = n.asWritten
  | .content h => by simp only [Node.asWritten, Content.asWritten, h.written, h.span]
  | .comment | .mustache | .partialCall => rfl
  | .block hprogram hother => by
    simp only [Node.asWritten, hprogram.asWritten_eq, hother.asWritten_eq]

theorem NodesStripTo.asWritten_eq {body body' : List Node} :
    NodesStripTo body body' → nodesAsWritten body' = nodesAsWritten body
  | .nil => rfl
  | .cons hfirst hrest => by
    simp only [nodesAsWritten, hfirst.asWritten_eq, hrest.asWritten_eq]

theorem ProgramStripsTo.asWritten_eq {program program' : Program} :
    ProgramStripsTo program program' → programAsWritten program' = programAsWritten program
  | .mk hbody => by
    rw [programAsWritten, programAsWritten, hbody.asWritten_eq]

theorem OtherStripsTo.asWritten_eq {other other' : Option Program} :
    OtherStripsTo other other' → otherAsWritten other' = otherAsWritten other
  | .none => rfl
  | .some hprogram => by simp only [otherAsWritten, hprogram.asWritten_eq]

end

/-! A program that was read has every run as it was read. -/

mutual

theorem StatementTree.node_asWritten (t : StatementTree) : t.node.asWritten = t.node := by
  match t with
  | .content text => rfl
  | .comment _ | .mustache .. | .unescaped .. | .partialCall .. => rfl
  | .block mark opening body inverse closing =>
    simp only [StatementTree.node, Node.asWritten, programAsWritten, nodesOf_asWritten body,
      otherOf_asWritten _ _ inverse]

theorem nodesOf_asWritten (ts : List StatementTree) : nodesAsWritten (nodesOf ts) = nodesOf ts := by
  match ts with
  | [] => rfl
  | t :: rest =>
    simp only [nodesOf, nodesAsWritten, StatementTree.node_asWritten t, nodesOf_asWritten rest]

theorem InverseTree.program_asWritten (stop : Nat) (close : Strip) (t : InverseTree) :
    programAsWritten (t.program stop close) = t.program stop close := by
  match t with
  | .plain mark body => simp only [InverseTree.program, programAsWritten, nodesOf_asWritten body]
  | .chain mark opening body inverse =>
    simp only [InverseTree.program, programAsWritten, nodesAsWritten, Node.asWritten,
      nodesOf_asWritten body, otherOf_asWritten _ _ inverse]

theorem otherOf_asWritten (stop : Nat) (close : Strip) (t : Option InverseTree) :
    otherAsWritten (otherOf stop close t) = otherOf stop close t := by
  match t with
  | none => rfl
  | some inverse => simp only [otherOf, otherAsWritten, InverseTree.program_asWritten _ _ inverse]

end

theorem parseProgram_asWritten {source : String} {p : Program}
    (h : parseProgram (lex source) = .ok p) : programAsWritten p = p := by
  obtain ⟨t, -, -, rfl⟩ := parseProgram_sound (lex_ends source) h
  simp only [RootTree.program, programAsWritten, nodesOf_asWritten]

mutual

theorem Node.asWritten_runs {n : Node} {c : Content} (h : .content c ∈ n.asWritten.within) :
    c = c.asWritten := by
  match n with
  | .content d =>
    simp only [Node.asWritten, Node.within, List.mem_singleton, Node.content.injEq] at h
    rw [h]
    rfl
  | .comment _ _ _ | .mustache _ | .partialCall _ => simp [Node.asWritten, Node.within] at h
  | .block tag program other =>
    simp only [Node.asWritten, Node.within, List.mem_cons, List.mem_append, reduceCtorEq,
      false_or] at h
    rcases h with h | h
    · exact programAsWritten_runs h
    · exact otherAsWritten_runs h

theorem nodesAsWritten_runs {body : List Node} {c : Content}
    (h : .content c ∈ nodesWithin (nodesAsWritten body)) : c = c.asWritten := by
  match body with
  | [] => simp [nodesAsWritten, nodesWithin] at h
  | n :: rest =>
    simp only [nodesAsWritten, nodesWithin, List.mem_append] at h
    rcases h with h | h
    · exact Node.asWritten_runs h
    · exact nodesAsWritten_runs h

theorem programAsWritten_runs {program : Program} {c : Content}
    (h : .content c ∈ programWithin (programAsWritten program)) : c = c.asWritten := by
  match program with
  | ⟨body, _, _, _⟩ =>
    simp only [programAsWritten, programWithin] at h
    exact nodesAsWritten_runs h

theorem otherAsWritten_runs {other : Option Program} {c : Content}
    (h : .content c ∈ otherWithin (otherAsWritten other)) : c = c.asWritten := by
  match other with
  | none => simp [otherAsWritten, otherWithin] at h
  | some program =>
    simp only [otherAsWritten, otherWithin] at h
    exact programAsWritten_runs h

end

/-! ### Whole templates -/

/-- What a run has lost; without tildes no request was for all blanks. -/
def Content.Trimmed (tildes : Bool) (c : Content) : Prop :=
  ∃ starts ends front back, c.Trims starts ends front back ∧
    (tildes = false → true ∉ starts ∧ true ∉ ends)

theorem keptByRequests_trimmed (tildes : Bool) :
    KeptByRequests tildes (Content.Trimmed tildes) where
  start := by
    rintro c all hall ⟨starts, ends, front, back, htrims, hmarks⟩
    obtain ⟨front', htrims'⟩ := htrims.stripStart all
    refine ⟨all :: starts, ends, front', back, htrims', fun htildes => ?_⟩
    obtain ⟨hstarts, hends⟩ := hmarks htildes
    subst htildes
    have hone : all = false := by simpa using hall
    simpa using ⟨⟨hone, hstarts⟩, hends⟩
  stop := by
    rintro c all hall ⟨starts, ends, front, back, htrims, hmarks⟩
    obtain ⟨back', htrims'⟩ := htrims.stripEnd all
    refine ⟨starts, all :: ends, front, back', htrims', fun htildes => ?_⟩
    obtain ⟨hstarts, hends⟩ := hmarks htildes
    subst htildes
    have hone : all = false := by simpa using hall
    simpa using ⟨hstarts, hone, hends⟩

theorem Content.trimmed_asWritten (tildes : Bool) (c : Content) : c.asWritten.Trimmed tildes := by
  refine ⟨[], [], [], [], ⟨?_, ?_, ?_, ?_, ?_, ?_, ?_, ?_⟩, ?_⟩ <;> simp [Content.asWritten]

/-- Whitespace control changes nothing but what is left of each run of text.  Of a
run it takes blanks at both ends, and it keeps the place of the rest; where no tag
has a tilde it takes the rest of a line at the start and indentation at the end. -/
theorem stripProgram_trims {source : String} {p : Program}
    (h : parseProgram (lex source) = .ok p) :
    programAsWritten (stripProgram p) = p ∧
    ∀ c, .content c ∈ programWithin (stripProgram p) → ∃ front back,
      c.written = front ++ c.value ++ back ∧
      c.valueStart = c.span.start + Text.byteLength front ∧
      (∀ x ∈ front, Text.isBlank x = true) ∧ (∀ x ∈ back, Text.isBlank x = true) ∧
      ((∀ n ∈ programWithin p, n.isMarked = false) →
        IsLineStart front ∧ ∀ x ∈ back, isIndent x = true) := by
  have hwritten := parseProgram_asWritten h
  refine ⟨(stripProgram_stripsTo p).asWritten_eq.trans hwritten, fun c hc => ?_⟩
  -- Before whitespace control every run is as it was written.
  have hread : ∀ tildes, RunsHold (Content.Trimmed tildes) p.body := by
    intro tildes d hd
    rw [← programWithin_eq, ← hwritten] at hd
    rw [programAsWritten_runs hd]
    exact d.trimmed_asWritten tildes
  rw [programWithin_eq] at hc
  by_cases hmarks : ∀ n ∈ programWithin p, n.isMarked = false
  · rw [programWithin_eq] at hmarks
    obtain ⟨starts, ends, front, back, htrims, hnone⟩ :=
      stripProgram_holds (keptByRequests_trimmed false) (fun _ => hmarks) (hread false) c hc
    obtain ⟨hstarts, hends⟩ := hnone rfl
    refine ⟨front, back, htrims.written, htrims.start, htrims.front_blank, htrims.back_blank,
      fun _ => ⟨?_, ?_⟩⟩
    · rcases htrims.startLine hstarts with rfl | ⟨-, hline, -⟩
      · exact ⟨[], [], rfl, by simp, by simp⟩
      · exact hline
    · rcases htrims.endLine hends with rfl | ⟨-, hindent, -⟩
      · simp
      · exact hindent
  · have hallowed : Unmarked true p.body := by
      intro hfalse
      cases hfalse
    obtain ⟨starts, ends, front, back, htrims, -⟩ :=
      stripProgram_holds (keptByRequests_trimmed true) hallowed (hread true) c hc
    exact ⟨front, back, htrims.written, htrims.start, htrims.front_blank, htrims.back_blank,
      fun hnone => absurd hnone hmarks⟩

/-- A comment on a line of its own. -/
def commentLine : Program :=
  { body := [.content (.ofText "a\n  " ⟨0, 4⟩), .comment "c" {} ⟨4, 10⟩,
      .content (.ofText " \n b" ⟨10, 14⟩)]
    span := ⟨0, 14⟩ }

theorem stripProgram_trims_commentLine :
    parseProgram (lex "a\n  \x7b\x7b!c\x7d\x7d \n b") = .ok commentLine ∧
      ∃ c front back, .content c ∈ programWithin (stripProgram commentLine) ∧
        c.value = [' ', 'b'] ∧ c.written = front ++ c.value ++ back ∧ IsLineStart front := by
  have hparse : parseProgram (lex "a\n  \x7b\x7b!c\x7d\x7d \n b") = .ok commentLine := by
    with_unfolding_all rfl
  have hrun : .content ((Content.ofText " \n b" ⟨10, 14⟩).stripStart false)
      ∈ programWithin (stripProgram commentLine) := by
    have hstrip : (stripProgram commentLine).body
        = [.content ((Content.ofText "a\n  " ⟨0, 4⟩).stripEnd false), .comment "c" {} ⟨4, 10⟩,
            .content ((Content.ofText " \n b" ⟨10, 14⟩).stripStart false)] := rfl
    rw [programWithin_eq, hstrip]
    simp [nodesWithin, Node.within]
  obtain ⟨front, back, hwritten, -, -, -, hline⟩ := (stripProgram_trims hparse).2 _ hrun
  refine ⟨hparse, _, front, back, hrun, by decide +kernel, hwritten, (hline ?_).1⟩
  simp [commentLine, programWithin_eq, nodesWithin, Node.within, Node.isMarked]

end TemplateCompiler.Mustache
