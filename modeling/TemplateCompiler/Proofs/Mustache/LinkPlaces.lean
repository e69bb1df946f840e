/-
Where a link stands, in a chain and as a block of its own.

* `Link.slice_front`, `Link.slice_link`, `Link.slice_back` — the text before, in and
  behind a link is found in both templates;
* `Link.lex_nested_moved` — the tokens of the second template are those of the first,
  moved, and the tags of the block;
* `Link.parseProgram_matches` — so statements of the two programs cover the same text,
  but for those that reach over the link.
-/
import TemplateCompiler.Proofs.Mustache.Links
import TemplateCompiler.Proofs.Source.Slices
import TemplateCompiler.Proofs.Template.Tags

namespace TemplateCompiler.Mustache

open Text (byteLength byteLength_append)

/-! ### Cuts in two places -/

section

variable {cuts : List Cut} {count a b : Nat}

/-- Cuts are moved from one place to another, as far as offsets are held exactly. -/
theorem CutsWithin.move {g : Nat → Nat} (h : CutsWithin count cuts)
    (hg : ∀ x ≤ count, g (a + x) = b + x) (ha : a + count ≤ maxOffset)
    (hb : b + count ≤ maxOffset) :
    (cuts.map (·.place a)).map (·.move g) = cuts.map (·.place b) := by
  rw [List.map_map]
  refine List.map_congr_left fun c hc => ?_
  obtain ⟨hle, hstop⟩ := h c hc
  simp only [Function.comp_apply, Cut.place, Token.move, Span.move, Span.ofOffsets]
  rw [Nat.min_eq_left (by omega), Nat.min_eq_left (by omega), Nat.min_eq_left (by omega),
    Nat.min_eq_left (by omega), hg _ (by omega), hg _ hstop]

theorem CutsWithin.onEdges {edge : Nat → Prop} (h : CutsWithin count cuts)
    (hedge : ∀ x ≤ count, edge (a + x)) (ha : a + count ≤ maxOffset) :
    OnEdges edge (cuts.map (·.place a)) := by
  intro t ht
  obtain ⟨c, hc, rfl⟩ := List.mem_map.mp ht
  obtain ⟨hle, hstop⟩ := h c hc
  simp only [Cut.place, Span.ofOffsets]
  rw [Nat.min_eq_left (by omega), Nat.min_eq_left (by omega)]
  exact ⟨hedge _ (by omega), hedge _ hstop⟩

end

namespace Link

variable (l : Link)

/-- No offset in either text is held at the largest one. -/
def Fits : Prop := byteLength l.chained ≤ maxOffset ∧ byteLength l.nested ≤ maxOffset

/-- A span begins at the link or before it, and ends where the link does or behind it. -/
def Covered (span : Span) : Prop := span.start ≤ l.start ∧ l.stop ≤ span.stop

/-- The template with the link, in a module. -/
def chainedSource (moduleName : String) : Source := ⟨String.ofList l.chained, moduleName⟩

/-- The template with the block, in a module. -/
def nestedSource (moduleName : String) : Source := ⟨String.ofList l.nested, moduleName⟩

/-- Where an offset around the link is when the link is a block. -/
def moveAround (x : Nat) : Nat := if x ≤ l.start then x else l.behind + (x - l.stop)

/-- Where an offset in the link is when the link is a block. -/
def moveInside (x : Nat) : Nat := l.nestedInside + (x - l.inside)

theorem length_chained : byteLength l.chained = l.stop + byteLength l.after := by
  simp only [LinkText.chained, byteLength_append, stop, inside, start]
  omega

theorem length_nested : byteLength l.nested = l.behind + byteLength l.after := by
  simp only [LinkText.nested, LinkText.closing, byteLength_append, Text.byteLength_cons, behind,
    nestedStop, nestedInside, start, Text.byteLength_nil]
  simp only [show Char.utf8Size '{' = 1 from rfl, show Char.utf8Size '}' = 1 from rfl,
    show Char.utf8Size '#' = 1 from rfl, show Char.utf8Size '/' = 1 from rfl]
  omega

variable {m : String}

theorem slice_front {x y : Nat} (hx : x ≤ l.start) (hy : y ≤ l.start) :
    (l.chainedSource m).slice ⟨x, y⟩ = (l.nestedSource m).slice ⟨x, y⟩ := by
  have hchained : (l.chainedSource m).text.toList = [] ++ (l.front ++ _) := String.toList_ofList
  have hnested : (l.nestedSource m).text.toList = [] ++ (l.front ++ _) := String.toList_ofList
  simpa using Source.slice_moved _ _ hchained hnested hx hy

theorem slice_link {x y : Nat} (hx : l.inside ≤ x ∧ x ≤ l.stop) (hy : l.inside ≤ y ∧ y ≤ l.stop) :
    (l.chainedSource m).slice ⟨x, y⟩
      = (l.nestedSource m).slice ⟨l.moveInside x, l.moveInside y⟩ := by
  obtain ⟨⟨dx, rfl⟩, hx⟩ := hx.imp_left Nat.exists_eq_add_of_le
  obtain ⟨⟨dy, rfl⟩, hy⟩ := hy.imp_left Nat.exists_eq_add_of_le
  have hpre : byteLength (l.front ++ (elseMark l.strip l.pad ++ l.gap)) = l.inside := by
    simp [inside, start, Nat.add_assoc]
  have hpre' : byteLength (l.front ++ (elseMark l.strip l.pad ++ ['}', '}', '{', '{', '#']))
      = l.nestedInside := by
    simp [nestedInside, start, Nat.add_assoc]
    rfl
  have hchained : (l.chainedSource m).text.toList
      = l.front ++ (elseMark l.strip l.pad ++ l.gap) ++ (l.name ++ l.inner ++ l.after) := by
    simp [chainedSource, LinkText.chained]
  have hnested : (l.nestedSource m).text.toList
      = l.front ++ (elseMark l.strip l.pad ++ ['}', '}', '{', '{', '#'])
        ++ (l.name ++ l.inner ++ l.closing) := by
    simp [nestedSource, LinkText.nested]
  have hmoved := Source.slice_moved _ _ hchained hnested (Nat.le_of_add_le_add_left hx)
    (Nat.le_of_add_le_add_left hy)
  rw [hpre, hpre'] at hmoved
  simpa [moveInside] using hmoved

theorem start_lt_stop : l.start < l.stop := by
  have hmark : 0 < byteLength (elseMark l.strip l.pad) := byteLength_pos (by simp [elseMark])
  rw [stop, inside]
  omega

theorem moveAround_stop (x : Nat) : l.moveAround (l.stop + x) = l.behind + x := by
  have := l.start_lt_stop
  rw [moveAround, if_neg (by omega), Nat.add_sub_cancel_left]

theorem slice_back {x y : Nat} (hx : l.stop ≤ x ∧ x ≤ l.stop + byteLength l.after)
    (hy : l.stop ≤ y ∧ y ≤ l.stop + byteLength l.after) :
    (l.chainedSource m).slice ⟨x, y⟩
      = (l.nestedSource m).slice ⟨l.moveAround x, l.moveAround y⟩ := by
  obtain ⟨⟨dx, rfl⟩, hx⟩ := hx.imp_left Nat.exists_eq_add_of_le
  obtain ⟨⟨dy, rfl⟩, hy⟩ := hy.imp_left Nat.exists_eq_add_of_le
  -- Both templates end with the same text, and differ in what stands before it.
  obtain ⟨pre, hchained⟩ : ∃ pre, l.chained = pre ++ (l.after ++ []) :=
    ⟨l.front ++ (elseMark l.strip l.pad ++ (l.gap ++ (l.name ++ l.inner))),
      by simp [LinkText.chained]⟩
  obtain ⟨pre', hnested⟩ : ∃ pre', l.nested = pre' ++ (l.after ++ []) :=
    ⟨l.front ++ (elseMark l.strip l.pad ++ '}' :: '}' :: '{' :: '{' :: '#'
      :: (l.name ++ (l.inner ++ '{' :: '{' :: '/' :: (l.name ++ ['}', '}'])))),
      by simp [LinkText.nested, LinkText.closing]⟩
  have hpre : byteLength pre = l.stop := by
    have hlength := l.length_chained
    rw [hchained, byteLength_append, List.append_nil] at hlength
    exact Nat.add_right_cancel hlength
  have hpre' : byteLength pre' = l.behind := by
    have hlength := l.length_nested
    rw [hnested, byteLength_append, List.append_nil] at hlength
    exact Nat.add_right_cancel hlength
  have hmoved := Source.slice_moved (l.chainedSource m) (l.nestedSource m)
    (String.toList_ofList.trans hchained) (String.toList_ofList.trans hnested)
    (Nat.le_of_add_le_add_left hx) (Nat.le_of_add_le_add_left hy)
  rw [hpre, hpre'] at hmoved
  rw [moveAround_stop, moveAround_stop]
  exact hmoved

/-! ### The two programs -/

theorem inside_bounds : l.start ≤ l.inside ∧ l.inside ≤ l.stop := by
  have hinside : l.inside
    = l.start + byteLength (elseMark l.strip l.pad) + byteLength l.gap := rfl
  have hstop : l.stop = l.inside + byteLength (l.name ++ l.inner) := rfl
  omega

theorem nestedStop_le : l.nestedStop ≤ l.behind := by
  rw [behind]
  omega

variable {backCuts : List Cut}

theorem startOf_back
    (hback : ∀ offset, lexFrom .tag offset l.after = backCuts.map (·.place offset))
    (hfits : l.Fits) :
    startOf (backCuts.map (·.place l.stop)) 0 = l.stop := by
  have hstop := hfits.1
  rw [length_chained] at hstop
  have hafter : l.after = '{' :: '{' :: (tilde l.endStrip ++ ['/']) ++ l.rest := by
    simp [LinkText.after]
  rw [← hback, hafter, (step_openEndBlock l.endStrip l.rest).lexFrom_eq]
  exact Nat.min_eq_left (Nat.le_trans (Nat.le_add_right _ _) hstop)

/-- The tags of the block that the link becomes. -/
def tags : NestingTags where
  mark := ⟨⟨l.strip, false⟩,
    .ofOffsets l.start (l.start + byteLength (elseMark l.strip l.pad ++ ['}', '}']))⟩
  opens :=
    let start := l.start + byteLength (elseMark l.strip l.pad ++ ['}', '}'])
    ⟨false, .ofOffsets start (start + 3)⟩
  closes := ⟨false, .ofOffsets l.nestedStop (l.nestedStop + 3)⟩
  ends :=
    let start := l.nestedStop + 3 + byteLength l.name
    ⟨false, .ofOffsets start (start + 2)⟩

/-- The tokens of the template with the block are those of the template with the link, moved, and
the tags of the block. -/
theorem lex_nested_moved {nameCuts : List Cut} (hfits : l.Fits)
    (hfront : ∀ c ∈ l.frontCuts, c.kind.isInvalid = false)
    (hlink : ∀ c ∈ l.linkCuts, c.kind.isInvalid = false)
    (hname : Lexes .tag l.name ('}' :: '}' :: l.after) nameCuts .tag)
    (hwithin : CutsWithin (byteLength l.after) backCuts)
    (hback : ∀ offset, lexFrom .tag offset l.after = backCuts.map (·.place offset)) :
    lex (String.ofList l.nested)
      = l.tags.tokens l.moveAround l.moveInside (l.frontCuts.map (·.place 0))
        (l.linkCuts.map (·.place l.inside)) (nameCuts.map (·.place (l.nestedStop + 3)))
        (backCuts.map (·.place l.stop)) := by
  obtain ⟨hstop, hbehind⟩ := hfits
  rw [length_chained] at hstop
  rw [length_nested] at hbehind
  have hinside := l.inside_bounds
  have hnested := l.nestedStop_le
  -- The tokens in front of the link stay where they are.
  have hfronts : (l.frontCuts.map (·.place 0)).map (·.move l.moveAround)
      = l.frontCuts.map (·.place 0) := by
    refine l.front_lexes.within.move (fun x hx => ?_) ?_ ?_
    · rw [Nat.zero_add]
      exact if_pos hx
    all_goals
      rw [Nat.zero_add, ← start]
      omega
  -- Those of the link move by the tag that is closed before them.
  have hlinks : (l.linkCuts.map (·.place l.inside)).map (·.move l.moveInside)
      = l.linkCuts.map (·.place l.nestedInside) := by
    refine l.link_lexes.within.move (fun x _ => ?_) ?_ ?_
    · rw [moveInside, Nat.add_sub_cancel_left]
    · rw [← stop]
      omega
    · rw [← nestedStop]
      omega
  -- Those behind it move by the closing tag, too.
  have hbacks : (backCuts.map (·.place l.stop)).map (·.move l.moveAround)
      = backCuts.map (·.place l.behind) :=
    hwithin.move (fun x _ => l.moveAround_stop x) hstop hbehind
  rw [NestingTags.tokens, hfronts, hlinks, hbacks, l.lex_nested hfront hlink hname hback]
  rfl

/-- Statements of the two programs cover the same text, but for those that reach over the link. -/
theorem parseProgram_matches (hname : l.NameCloses) (hfits : l.Fits) {p : Program}
    (h : parseProgram (lex (String.ofList l.chained)) = .ok p) (m : String) :
    ∃ p', parseProgram (lex (String.ofList l.nested)) = .ok p' ∧
      ProgramMatches
        (fun span span' => (l.chainedSource m).slice span = (l.nestedSource m).slice span')
        (fun n => l.Covered n.span) p p' := by
  obtain ⟨backCuts, hwithin, hback⟩ := lexFrom_cuts .tag l.after
  obtain ⟨nameCuts, closing, hlexes, hkinds, hadmits, hspelling⟩ := hname
  obtain ⟨hfront, hlink⟩ := l.valid h
  have htokens := l.lex_nested_moved hfits hfront hlink hlexes hwithin hback
  have hends := lex_ends (String.ofList l.chained)
  have hends' := lex_ends (String.ofList l.nested)
  rw [l.lex_chained hback] at h hends
  rw [htokens] at hends' ⊢
  have hstop := hfits.1
  rw [length_chained] at hstop
  have hinside := l.inside_bounds
  have hstart := l.startOf_back hback hfits
  -- Offsets in front of the link stay where they are.
  have hfixed : ∀ x ≤ l.start, l.moveAround x = x := fun x hx => if_pos hx
  have harea : Around l.moveAround
      (fun span span' => (l.chainedSource m).slice span = (l.nestedSource m).slice span')
      (fun n => l.Covered n.span) (· ≤ l.start)
      (fun x => l.stop ≤ x ∧ x ≤ l.stop + byteLength l.after) := by
    refine ⟨fun x y hx hy => ?_, fun x y hx hy => l.slice_back hx hy,
      fun tag program other hbefore hbehind => ⟨hbefore, hbehind.1⟩⟩
    rw [hfixed x hx, hfixed y hy]
    exact l.slice_front hx hy
  have hedges :
      OnEdges (fun x => l.inside ≤ x ∧ x ≤ l.stop) (l.linkCuts.map (·.place l.inside)) := by
    refine l.link_lexes.within.onEdges (fun x hx => ?_) (by rw [← stop]; omega)
    exact ⟨Nat.le_add_right _ _, Nat.add_le_add_left hx _⟩
  refine parseProgram_nested ⟨l.strip, _⟩ hends h l.link_kinds_place (by rw [kinds_place, hkinds])
    hadmits hspelling (l.beginsEnd hback _) harea ?_ ?_ ?_ ?_ hedges ?_ l.tags ?_ hends'
  · refine l.front_lexes.within.onEdges (fun x hx => ?_) ?_
    · rw [Nat.zero_add]
      exact hx
    · rw [← start]
      omega
  · exact hwithin.onEdges (fun x hx => ⟨Nat.le_add_right _ _, Nat.add_le_add_left hx _⟩) hstop
  · intro tag program other hspan
    show l.Covered tag.span
    rw [hspan, hstart]
    exact ⟨Nat.min_le_left _ _, Nat.le_refl _⟩
  · exact fun x y hx hy => l.slice_link hx hy
  · rw [hstart]
    exact ⟨hinside.2, Nat.le_refl _⟩
  · rw [hstart]
    have hbehind := hfits.2
    have hnested := l.nestedStop_le
    rw [length_nested] at hbehind
    have hclosing : l.moveInside l.stop = l.nestedStop := by
      rw [moveInside, stop, Nat.add_sub_cancel_left, nestedStop]
    rw [hclosing]
    exact Nat.min_eq_left (by omega)

end Link

end TemplateCompiler.Mustache
