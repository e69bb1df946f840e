/-
A tag on a line of its own takes its indentation along.

Whitespace control takes the line break after a tag and the indentation before it in
two steps, which look at different runs of text.

* `Side`, `TagSite` — what stands beside a tag, and the tags of a program that may
  stand alone;
* `TagSite.Clears` — a tag after which something is missing has no indentation before
  it;
* `BodyClears` — the tags of a branch do so, and what its first and last runs owe to
  the tags around it;
* `stripBody_clears`, `stripInverse_clears` — so it is for every branch;
* `stripProgram_clears` — and for all tags of a template but those that close a chain.

Whether the tag that closes a block stands alone is judged by the first `else` of the
block, and the indentation is taken from the other branch as a whole. In a chain that
branch ends with a block and not with text, so nothing is taken.
-/
import TemplateCompiler.Proofs.Mustache.Tildes

namespace TemplateCompiler.Mustache

open Template (BlockTag)

/-! ### Tags and what stands beside them -/

/-- What stands beside a tag: nothing more of the template, another tag, or a run of
text. -/
inductive Side where
  | outer
  | tag
  | run (c : Content)
deriving DecidableEq, Repr

/-- A tag that may stand alone, with what stands beside it. -/
structure TagSite where
  before : Side
  strip : Strip
  after : Side
  /-- The tag closes a block whose first `else` is a link of a chain. -/
  closesChain : Bool := false
deriving DecidableEq, Repr

/-- What a statement is to a tag beside it. -/
def Node.side : Node → Side
  | .content c => .run c
  | _ => .tag

/-- What statements begin with; `after` follows them. -/
def firstSide (after : Side) : List Node → Side
  | [] => after
  | n :: _ => n.side

/-- What statements end with; `before` precedes them. -/
def lastSide (before : Side) : List Node → Side
  | [] => before
  | n :: rest => lastSide n.side rest

/-- Whether another branch begins with a link of a chain. -/
def isChain (other : Option Program) : Bool := (other.map (·.chained)).getD false

/-- What stands before the tag that closes a block; `before` ends its first branch. -/
def otherLast (before : Side) : Option Program → Side
  | none => before
  | some ⟨.block _ ⟨body, _, _, _⟩ other :: _, _, true, _⟩ => otherLast (lastSide .tag body) other
  | some ⟨body, _, _, _⟩ => lastSide .tag body
  termination_by other => sizeOf other

mutual

/-- The tags of a statement that may stand alone. -/
def Node.sites (before after : Side) : Node → List TagSite
  | .content _ => []
  | .mustache _ => []
  | .comment _ strip _ => [⟨before, strip, after, false⟩]
  | .partialCall tag => [⟨before, tag.strip, after, false⟩]
  | .block tag ⟨body, _, _, _⟩ other =>
    ⟨before, tag.openStrip, firstSide .tag body, false⟩ :: (nodesSites .tag .tag body
      ++ otherSites (lastSide .tag body) tag.inverseStrip other
      ++ [⟨otherLast (lastSide .tag body) other, tag.closeStrip, after, isChain other⟩])

/-- The tags of statements. -/
def nodesSites (before after : Side) : List Node → List TagSite
  | [] => []
  | n :: rest => n.sites before (firstSide after rest) ++ nodesSites n.side after rest

/-- The tags from an `else` on, up to the one that closes the block. -/
def otherSites (before : Side) (strip : Strip) : Option Program → List TagSite
  | none => []
  | some ⟨.block tag ⟨body, _, _, _⟩ other :: _, _, true, _⟩ =>
    ⟨before, strip, firstSide .tag body, false⟩ :: (nodesSites .tag .tag body
      ++ otherSites (lastSide .tag body) tag.inverseStrip other)
  | some ⟨body, _, _, _⟩ =>
    ⟨before, strip, firstSide .tag body, false⟩ :: nodesSites .tag .tag body

end

/-- The run that begins here has lost something at its start. -/
def Side.LostStart : Side → Prop
  | .run c => c.valueStart ≠ c.span.start
  | _ => False

/-- A text does not end with a space or a tab. -/
def NoIndent (cs : List Char) : Prop := ∀ x ∈ cs.getLast?, isIndent x = false

/-- No indentation is left here: the template starts, or a run of text ends without. -/
def Side.Clear : Side → Prop
  | .outer => True
  | .tag => False
  | .run c => NoIndent c.value

/-- If something is missing after a tag, though it has no tilde there, then nothing is
left of the indentation before it. -/
def TagSite.Clears (s : TagSite) : Prop :=
  s.closesChain = false → s.strip.after = false → s.after.LostStart → s.before.Clear

/-! ### One run of text -/

theorem NoIndent.of_append {cs ds : List Char} (h : NoIndent (cs ++ ds)) : NoIndent ds := by
  intro x hx
  refine h x ?_
  rw [List.getLast?_append, Option.mem_def.mp hx]
  rfl

/-- A run that refuses to give up indentation has none. -/
def Content.Tidy (c : Content) : Prop := c.leftStripped = true → NoIndent c.value

namespace Content

theorem tidy_ofText (text : String) (span : Span) : (Content.ofText text span).Tidy := by
  intro h
  cases h

/-- Taking blanks from the start leaves the end as it is. -/
theorem noIndent_stripStart {c : Content} (all : Bool) (h : NoIndent c.value) :
    NoIndent (c.stripStart all).value := by
  rw [stripStart]
  split
  · exact h
  · obtain ⟨taken, htaken, -⟩ := takenStart all c.value
    rw [htaken] at h
    exact h.of_append

theorem tidy_stripStart {c : Content} (all : Bool) (h : c.Tidy) : (c.stripStart all).Tidy := by
  intro hstripped
  have hsame : (c.stripStart all).leftStripped = c.leftStripped := by
    rw [stripStart]
    split <;> rfl
  rw [hsame] at hstripped
  exact noIndent_stripStart all (h hstripped)

/-- A run that was asked at its end has no indentation there. -/
theorem noIndent_stripEnd {c : Content} (all : Bool) (h : c.Tidy) :
    NoIndent (c.stripEnd all).value := by
  rw [stripEnd]
  split
  · rename_i hrefused
    rw [Bool.and_eq_true] at hrefused
    exact h hrefused.2
  · intro x hx
    simp only at hx
    split at hx
    · rw [Text.trimEnd, List.getLast?_reverse] at hx
      have hblank := dropWhile_head Text.isBlank c.value.reverse x hx
      cases hindent : isIndent x with
      | false => rfl
      | true => rw [isBlank_of_isIndent hindent] at hblank; cases hblank
    · rw [Text.dropEndWhile, List.getLast?_reverse] at hx
      exact dropWhile_head isIndent c.value.reverse x hx

theorem tidy_stripEnd {c : Content} (all : Bool) (h : c.Tidy) : (c.stripEnd all).Tidy :=
  fun _ => noIndent_stripEnd all h

/-- Taking blanks from the end leaves the start as it is. -/
theorem stripEnd_start (c : Content) (all : Bool) :
    (c.stripEnd all).valueStart = c.valueStart ∧ (c.stripEnd all).span = c.span := by
  rw [stripEnd]
  split <;> exact ⟨rfl, rfl⟩

end Content

theorem keptByRequests_tidy : KeptByRequests true Content.Tidy where
  start _ h := Content.tidy_stripStart _ h
  stop _ h := Content.tidy_stripEnd _ h

/-! ### Tags between changed runs -/

section Mono

variable {before before' after after' : Side}

/-- Tags stay clear when what is before them gets clear and nothing gets lost after
them. -/
theorem Node.sites_mono {n : Node} (h : ∀ s ∈ n.sites before after, s.Clears)
    (hbefore : before.Clear → before'.Clear) (hafter : after'.LostStart → after.LostStart) :
    ∀ s ∈ n.sites before' after', s.Clears := by
  have hmono : ∀ {first last : Side} {strip : Strip} {chain : Bool},
      TagSite.Clears ⟨first, strip, last, chain⟩ → ∀ {first' last' : Side},
      (first.Clear → first'.Clear) → (last'.LostStart → last.LostStart) →
      TagSite.Clears ⟨first', strip, last', chain⟩ :=
    fun hclears _ _ hfirst hlast hchain hstrip hlost =>
      hfirst (hclears hchain hstrip (hlast hlost))
  cases n with
  | content c => simp [Node.sites]
  | mustache tag => simp [Node.sites]
  | comment value strip span =>
    simp only [Node.sites, List.forall_mem_singleton] at h ⊢
    exact hmono h hbefore hafter
  | partialCall tag =>
    simp only [Node.sites, List.forall_mem_singleton] at h ⊢
    exact hmono h hbefore hafter
  | block tag program other =>
    simp only [Node.sites, List.forall_mem_cons, List.forall_mem_append, List.not_mem_nil,
      IsEmpty.forall_iff, implies_true, and_true] at h ⊢
    obtain ⟨hopen, hinner, hclose⟩ := h
    exact ⟨hmono hopen hbefore id, hinner, hmono hclose id hafter⟩

theorem nodesSites_mono {ns : List Node} (h : ∀ s ∈ nodesSites before after ns, s.Clears)
    (hbefore : before.Clear → before'.Clear) (hafter : after'.LostStart → after.LostStart) :
    ∀ s ∈ nodesSites before' after' ns, s.Clears := by
  induction ns generalizing before before' with
  | nil => simp [nodesSites]
  | cons n rest ih =>
    rw [nodesSites, List.forall_mem_append] at h ⊢
    refine ⟨Node.sites_mono h.1 hbefore ?_, ih h.2 id⟩
    cases rest with
    | nil => exact hafter
    | cons m rest => exact id

/-- The tags from an `else` on stay clear when what is before it gets clear. -/
theorem otherSites_mono {strip : Strip} {other : Option Program}
    (h : ∀ s ∈ otherSites before strip other, s.Clears) (hbefore : before.Clear → before'.Clear) :
    ∀ s ∈ otherSites before' strip other, s.Clears := by
  unfold otherSites at h ⊢
  split at h
  · simp
  · simp only [List.forall_mem_cons] at h ⊢
    exact ⟨fun hchain hstrip hlost => hbefore (h.1 hchain hstrip hlost), h.2⟩
  · simp only [List.forall_mem_cons] at h ⊢
    exact ⟨fun hchain hstrip hlost => hbefore (h.1 hchain hstrip hlost), h.2⟩

end Mono

/-! ### First and last runs -/

/-- Statements end with a run of text. -/
def EndsText (ns : List Node) : Prop := ∃ front c, ns = front ++ [.content c]

theorem endsText_of_endsLine {ns : List Node} (h : endsLine false ns.reverse = true) :
    EndsText ns := by
  rcases List.eq_nil_or_concat ns with rfl | ⟨front, n, rfl⟩
  · cases h
  · rw [List.concat_eq_append, List.reverse_append, List.reverse_singleton,
      List.singleton_append] at h
    cases n with
    | content c => exact ⟨front, c, List.concat_eq_append⟩
    | _ => cases h

theorem onLast_concat (f : Content → Content) (front : List Node) (c : Content) :
    onLast f (front ++ [Node.content c]) = front ++ [Node.content (f c)] := by
  induction front with
  | nil => rfl
  | cons n front ih =>
    obtain ⟨m, rest, hrest⟩ := List.exists_cons_of_ne_nil
      (List.append_ne_nil_of_right_ne_nil front (List.cons_ne_nil (Node.content c) []))
    rw [List.cons_append, List.cons_append, ← ih, hrest]
    cases n <;> rfl

/-- Where no text is last, nothing is changed. -/
theorem onLast_of_not_endsText (f : Content → Content) {ns : List Node} (h : ¬ EndsText ns) :
    onLast f ns = ns := by
  induction ns with
  | nil => rfl
  | cons n rest ih =>
    cases rest with
    | nil =>
      cases n with
      | content c => exact absurd ⟨[], c, rfl⟩ h
      | _ => rfl
    | cons m rest =>
      have hrest : ¬ EndsText (m :: rest) := by
        rintro ⟨front, c, hfront⟩
        exact h ⟨n :: front, c, by rw [hfront, List.cons_append]⟩
      have hstep : onLast f (n :: m :: rest) = n :: onLast f (m :: rest) := by cases n <;> rfl
      rw [hstep, ih hrest]

theorem lastSide_concat (before : Side) (front : List Node) (n : Node) :
    lastSide before (front ++ [n]) = n.side := by
  induction front generalizing before with
  | nil => rfl
  | cons m front ih => exact ih m.side

theorem lastSide_mono {before before' : Side} (h : before.Clear → before'.Clear)
    {ns : List Node} (hns : (lastSide before ns).Clear) : (lastSide before' ns).Clear := by
  cases ns with
  | nil => exact h hns
  | cons n rest => exact hns

theorem firstSide_append (after : Side) (front rest : List Node) :
    firstSide after (front ++ rest) = firstSide (firstSide after rest) front := by
  cases front <;> rfl

theorem nodesSites_concat (before after : Side) (front : List Node) (n : Node) :
    nodesSites before after (front ++ [n])
      = nodesSites before n.side front ++ n.sites (lastSide before front) after := by
  induction front generalizing before with
  | nil => simp [nodesSites, firstSide, lastSide]
  | cons m front ih =>
    rw [List.cons_append, nodesSites, nodesSites, ih, firstSide_append, lastSide, List.append_assoc]
    rfl

/-- The tags of a branch are clear.  Its first run has lost something at its start only
if `opened`, and its last run ends without indentation if `closed`; it stands for the
statements `read`. -/
structure BodyClears (read : List Node) (opened closed : Prop) (ns : List Node) : Prop where
  sites : ∀ s ∈ nodesSites .tag .tag ns, s.Clears
  tidy : ∀ c, .content c ∈ ns → c.Tidy
  first : (firstSide .tag ns).LostStart → opened
  last : closed → (lastSide .tag ns).Clear
  text : EndsText read → EndsText ns

namespace BodyClears

variable {read ns : List Node} {opened closed opened' closed' : Prop}

theorem mono (h : BodyClears read opened closed ns) (hopened : opened → opened')
    (hclosed : closed' → closed) : BodyClears read opened' closed' ns :=
  ⟨h.sites, h.tidy, fun hlost => hopened (h.first hlost), fun hc => h.last (hclosed hc), h.text⟩

/-- Branches stand for themselves. -/
theorem reread (h : BodyClears read opened closed ns) : BodyClears ns opened closed ns :=
  ⟨h.sites, h.tidy, h.first, h.last, id⟩

theorem stripFirst (h : BodyClears read opened closed ns) (all : Bool) :
    BodyClears read True closed (onFirst (·.stripStart all) ns) := by
  match ns with
  | [] => exact h.mono (fun _ => trivial) id
  | .content c :: rest =>
    -- Only the first run changes, and it loses what stood at its start.
    have hclear : (Side.run c).Clear → (Side.run (c.stripStart all)).Clear :=
      Content.noIndent_stripStart all
    refine ⟨?_, ?_, fun _ => trivial, fun hclosed => lastSide_mono hclear (h.last hclosed), ?_⟩
    · have hsites := h.sites
      rw [nodesSites, Node.sites, List.nil_append] at hsites
      rw [onFirst, nodesSites, Node.sites, List.nil_append]
      exact nodesSites_mono hsites hclear id
    · intro d hd
      rcases List.mem_cons.mp hd with heq | hrest
      · cases heq
        exact Content.tidy_stripStart all (h.tidy c List.mem_cons_self)
      · exact h.tidy d (List.mem_cons_of_mem _ hrest)
    · intro hread
      obtain ⟨front, d, hfront⟩ := h.text hread
      cases front with
      | nil =>
        cases hfront
        exact ⟨[], _, rfl⟩
      | cons n front =>
        obtain ⟨rfl, rfl⟩ := List.cons.inj hfront
        exact ⟨_ :: front, d, rfl⟩
  | .comment _ _ _ :: rest | .mustache _ :: rest | .partialCall _ :: rest | .block _ _ _ :: rest =>
    exact h.mono (fun _ => trivial) id

theorem stripLast (h : BodyClears read opened closed ns) (all : Bool) :
    BodyClears read opened (closed ∨ EndsText ns) (onLast (·.stripEnd all) ns) := by
  by_cases htext : EndsText ns
  -- The last run loses what stood at its end; its start is seen where it is the first, too.
  · obtain ⟨front, c, rfl⟩ := htext
    rw [onLast_concat]
    have hstart := c.stripEnd_start all
    have hlost : (Side.run (c.stripEnd all)).LostStart → (Side.run c).LostStart := by
      intro hlost
      rw [Side.LostStart, hstart.1, hstart.2] at hlost
      exact hlost
    have htidy : c.Tidy := h.tidy c (by simp)
    refine ⟨?_, ?_, fun hfirst => h.first ?_, fun _ => ?_, fun _ => ⟨front, _, rfl⟩⟩
    · have hsites := h.sites
      rw [nodesSites_concat, List.forall_mem_append] at hsites ⊢
      exact ⟨nodesSites_mono hsites.1 id hlost, by simp [Node.sites]⟩
    · intro d hd
      rcases List.mem_append.mp hd with hfront | hlast
      · exact h.tidy d (List.mem_append_left _ hfront)
      · cases List.mem_singleton.mp hlast
        exact Content.tidy_stripEnd all htidy
    · rw [firstSide_append] at hfirst ⊢
      cases front with
      | nil => exact hlost hfirst
      | cons n front => exact hfirst
    · rw [lastSide_concat]
      exact Content.noIndent_stripEnd all htidy
  · rw [onLast_of_not_endsText _ htext]
    exact h.mono id fun hclosed => hclosed.resolve_right htext

/-- The first run is asked if `asked` says so. -/
theorem askFirst (h : BodyClears read opened closed ns) (asked all : Bool) :
    BodyClears read (opened ∨ asked = true) closed
      (applyIf asked (onFirst (·.stripStart all)) ns) := by
  cases asked with
  | false => exact h.mono .inl id
  | true => exact (h.stripFirst all).mono (fun _ => .inr rfl) id

/-- The last run is asked if `asked` says so. -/
theorem askLast (h : BodyClears read opened closed ns) (asked all : Bool)
    (hclosed : closed' → closed ∨ (asked = true ∧ EndsText ns)) :
    BodyClears read opened closed' (applyIf asked (onLast (·.stripEnd all)) ns) := by
  cases asked with
  | false => exact h.mono id fun hc => (hclosed hc).resolve_right (by simp)
  | true => exact (h.stripLast all).mono id fun hc => (hclosed hc).imp id And.right

end BodyClears

/-! ### Runs between statements -/

/-- A request for a run's start was made. -/
def Edges.AsksFollowing (e : Edges) : Prop :=
  e.strip.after = true ∨ e.inlineStandalone = true ∨ e.closeStandalone = true

/-- A request for a line's indentation was made. -/
def Edges.AsksIndent (e : Edges) : Prop := e.inlineStandalone = true ∨ e.openStandalone = true

section Statements

variable {root : Bool} {before after : List Node} {e : Edges} {c : Content}

/-- What a statement asks depends on the text before it as it was read. -/
theorem edgesAt_content (n : Node) {c' : Content} (hwritten : c'.written = c.written) :
    n.edgesAt root (.content c' :: before) after = n.edgesAt root (.content c :: before) after := by
  simp only [Node.edgesAt, endsLine, hwritten]

theorem stripFollowing_lost (hc : c.valueStart = c.span.start)
    (hlost : (Side.run (e.stripFollowing c)).LostStart) : e.AsksFollowing := by
  by_contra hnone
  simp only [Edges.AsksFollowing, not_or, Bool.not_eq_true] at hnone
  rw [Edges.stripFollowing] at hlost
  simp only [hnone, applyIf, Bool.false_eq_true, if_false] at hlost
  exact hlost hc

theorem applyIf_stripEnd_start (asked all : Bool) (c : Content) :
    (applyIf asked (·.stripEnd all) c).valueStart = c.valueStart ∧
      (applyIf asked (·.stripEnd all) c).span = c.span := by
  cases asked with
  | false => exact ⟨rfl, rfl⟩
  | true => exact c.stripEnd_start all

theorem stripPreceding_start (e : Edges) (c : Content) :
    (e.stripPreceding c).valueStart = c.valueStart ∧ (e.stripPreceding c).span = c.span := by
  simp only [Edges.stripPreceding, applyIf_stripEnd_start, and_self]

theorem stripPreceding_clear (h : c.Tidy) (hasked : e.AsksIndent) :
    NoIndent (e.stripPreceding c).value := by
  have htilde : (applyIf e.strip.before (·.stripEnd true) c).Tidy :=
    applyIf_holds (fun _ => Content.tidy_stripEnd true) h
  rw [Edges.stripPreceding]
  rcases hasked with hinline | hopen
  · rw [hinline]
    exact applyIf_holds (Q := fun d : Content => NoIndent d.value)
      (fun _ _ => Content.noIndent_stripEnd false (Content.tidy_stripEnd false htilde))
      (Content.noIndent_stripEnd false htilde)
  · rw [hopen]
    exact Content.noIndent_stripEnd false
      (applyIf_holds (fun _ => Content.tidy_stripEnd false) htilde)

/-- A run loses something at its start only if the statement before it asks. -/
theorem stripContent_lost (hc : c.valueStart = c.span.start)
    (hlost : (Side.run (stripContent root before c after)).LostStart) :
    ∃ n rest e, before = n :: rest ∧ n.edgesAt root rest (.content c :: after) = some e ∧
      e.AsksFollowing := by
  unfold stripContent at hlost
  extract_lets c₁ at hlost
  -- What the statement after the run asks does not touch its start.
  have hstart : (Side.run c₁).LostStart := by
    split at hlost
    · exact hlost
    · split at hlost
      · rw [Side.LostStart, (stripPreceding_start _ c₁).1, (stripPreceding_start _ c₁).2] at hlost
        exact hlost
      · exact hlost
  unfold c₁ at hstart
  split at hstart
  · exact absurd hc hstart
  · rename_i n rest
    split at hstart
    · rename_i e he
      exact ⟨n, rest, e, rfl, he, stripFollowing_lost hc hstart⟩
    · exact absurd hc hstart

/-- A run is left without indentation if the statement after it asks for that. -/
theorem stripContent_clear (hc : c.Tidy) {n : Node} {rest : List Node}
    (he : n.edgesAt root (.content c :: before) rest = some e) (hasked : e.AsksIndent) :
    NoIndent (stripContent root before c (n :: rest)).value := by
  unfold stripContent
  extract_lets c₁
  have hfollowing : c₁.Tidy ∧ c₁.written = c.written := by
    unfold c₁
    split
    · exact ⟨hc, rfl⟩
    · split
      · exact ⟨stripFollowing_holds keptByRequests_tidy (fun _ => rfl) hc,
          (stripFollowing_stripsTo _ c).written⟩
      · exact ⟨hc, rfl⟩
  simp only [edgesAt_content n hfollowing.2, he]
  exact stripPreceding_clear hfollowing.1 hasked

end Statements

/-! ### The other branch of a block -/

/-- The text from an `else` on is clear: the branch up to the next `else` stands for
the statements `read`, and the tags behind it are clear. -/
inductive InverseClears (read : List Node) (opened closed : Prop) : Program → Prop
  | plain {body : List Node} {names : List String} {span : Span}
    (h : BodyClears read opened closed body) :
    InverseClears read opened closed ⟨body, names, false, span⟩
  | chain {tag : BlockTag} {program : Program} {other : Option Program} {names : List String}
    {span : Span} (h : BodyClears read opened False program.body)
    (hother : ∀ s ∈ otherSites (lastSide .tag program.body) tag.inverseStrip other, s.Clears) :
    InverseClears read opened closed ⟨[.block tag program other], names, true, span⟩

namespace InverseClears

variable {read : List Node} {opened closed opened' closed' : Prop} {p : Program}

theorem onTarget (h : InverseClears read opened False p) {f : List Node → List Node}
    (hf : ∀ (closed : Prop) ns, BodyClears read opened closed ns →
      BodyClears read opened' closed (f ns)) :
    InverseClears read opened' False (onInverseTarget f p) := by
  cases h with
  | plain hbody => exact .plain (hf False _ hbody)
  | @chain tag program other names span hbody hother =>
    -- What ends the branch is clear after the change if it was so before.
    have hlast : BodyClears read opened (lastSide .tag program.body).Clear program.body :=
      ⟨hbody.sites, hbody.tidy, hbody.first, id, hbody.text⟩
    exact .chain (hf False _ hbody) (otherSites_mono hother (hf _ _ hlast).last)

/-- The line before the tag that closes the block is taken from a plain `else` only. -/
theorem lastLine (h : InverseClears read opened False p) (alone : Bool)
    (halone : alone = true → EndsText read) :
    InverseClears read opened (alone = true)
      { p with body := applyIf alone (onLast (·.stripEnd false)) p.body } := by
  cases h with
  | plain hbody =>
    exact .plain (hbody.askLast alone false fun hasked => .inr ⟨hasked, hbody.text (halone hasked)⟩)
  | chain hbody hother =>
    have hsame : ∀ link : List Node, applyIf alone (fun ns => ns) link = link := by
      intro link
      rw [applyIf, ite_self]
    exact (hsame _).symm ▸ .chain hbody hother

/-- The tags from the `else` on, if what is before it is clear where the `else` takes
something after it. -/
theorem sites (h : InverseClears read opened closed p) {before : Side} {strip : Strip}
    (hbefore : opened → strip.after = false → before.Clear) :
    ∀ s ∈ otherSites before strip (some p), s.Clears := by
  cases h with
  | @plain body names span hbody =>
    have hsites : otherSites before strip (some ⟨body, names, false, span⟩)
        = ⟨before, strip, firstSide .tag body, false⟩ :: nodesSites .tag .tag body := by
      rw [otherSites]
      simp
    rw [hsites, List.forall_mem_cons]
    exact ⟨fun _ hstrip hlost => hbefore (hbody.first hlost) hstrip, hbody.sites⟩
  | @chain tag program other names span hbody hother =>
    rw [otherSites, List.forall_mem_cons, List.forall_mem_append]
    exact ⟨fun _ hstrip hlost => hbefore (hbody.first hlost) hstrip, hbody.sites, hother⟩

/-- What stands before the tag that closes a block without a chain. -/
theorem last (h : InverseClears read opened closed p) (hclosed : closed)
    (hchain : isChain (some p) = false) (before : Side) : (otherLast before (some p)).Clear := by
  cases h with
  | @plain body names span hbody =>
    have hlast : otherLast before (some ⟨body, names, false, span⟩) = lastSide .tag body := by
      rw [otherLast]
      simp
    rw [hlast]
    exact hbody.last hclosed
  | chain _ _ => cases hchain

end InverseClears

/-! ### Blocks -/

theorem Node.sites_block (tag : BlockTag) (program : Program) (other : Option Program)
    (before after : Side) :
    (Node.block tag program other).sites before after
      = ⟨before, tag.openStrip, firstSide .tag program.body, false⟩ ::
        (nodesSites .tag .tag program.body
          ++ otherSites (lastSide .tag program.body) tag.inverseStrip other
          ++ [⟨otherLast (lastSide .tag program.body) other, tag.closeStrip, after,
            isChain other⟩]) := by
  obtain ⟨body, names, chained, span⟩ := program
  rw [Node.sites]

section Blocks

variable {read otherRead : List Node} {tag : BlockTag} {program other : Program}

/-- The branch of a block that has no other. -/
theorem stripBranches_alone_clears (tag : BlockTag) (program : Program)
    (h : BodyClears read False False program.body) :
    BodyClears read (tag.openStrip.after = true) False
      (stripBranches tag program none).1.body :=
  ((h.askFirst tag.openStrip.after true).askLast tag.closeStrip.before true
    (fun hfalse => .inl hfalse)).mono (fun hopened => hopened.resolve_left id) id

/-- The two branches of a block or of a link; `alone` says that the `else` stands
alone. -/
theorem stripBranches_both_clears (program : Program)
    (hbody : BodyClears read False False program.body)
    (hother : InverseClears otherRead (tag.inverseStrip.after = true) False other) :
    ∃ alone : Bool, BodyClears read (tag.openStrip.after = true) (alone = true)
        (stripBranches tag program (some other)).1.body ∧
      ∃ p, (stripBranches tag program (some other)).2 = some p ∧
        InverseClears otherRead (tag.inverseStrip.after = true ∨ alone = true) False p := by
  obtain ⟨alone, hlines, hbranches⟩ := stripBranches_some tag program other
  refine ⟨alone, ?_, _, congrArg Prod.snd hbranches, ?_⟩
  · rw [hbranches]
    have hfirst := (hbody.askFirst tag.openStrip.after true).mono
      (fun hopened => hopened.resolve_left id) id
    have htilde : BodyClears read _ False _ :=
      hfirst.askLast tag.inverseStrip.before true (fun hfalse => .inl hfalse)
    refine htilde.askLast alone false fun halone => .inr ⟨halone, ?_⟩
    -- A line ends before the `else`, so there is text before it, also after a tilde.
    have hends := endsText_of_endsLine (hlines halone).1
    have hasked := hfirst.reread.askLast tag.inverseStrip.before true (fun hfalse => .inl hfalse)
    exact hasked.text hends
  · refine hother.onTarget fun closed ns hns => ?_
    have htilde := (hns.askFirst tag.inverseStrip.after true).mono (fun h => h.elim id id) id
    have hclose := htilde.askLast tag.closeStrip.before true (fun hc => .inl hc)
    exact hclose.askFirst alone false

variable {root : Bool} {before after : List Node} {first last : Side} {e : Edges}
  {otherBranch : Option Program}

/-- What a block asks of the text around it. -/
theorem block_asks (he : (Node.block tag program otherBranch).edgesAt root before after = some e) :
    (e.AsksFollowing → tag.closeStrip.after = true ∨ e.closeStandalone = true) ∧
    (e.closeStandalone = true →
      EndsText ((otherBranch.map inverseTarget).getD program).body) := by
  cases he
  refine ⟨fun hasks => ?_, fun halone => ?_⟩
  · simpa [Edges.AsksFollowing] using hasks
  · exact endsText_of_endsLine (Bool.and_eq_true_iff.mp halone).1

/-- The tags of a block, if its branches owe to them what they have lost. -/
theorem block_clears {closed : Prop}
    (hbody : BodyClears read (tag.openStrip.after = true ∨ e.openStandalone = true) closed
      program.body)
    (hother : ∀ s ∈ otherSites (lastSide .tag program.body) tag.inverseStrip otherBranch, s.Clears)
    (hlast : isChain otherBranch = false → e.closeStandalone = true →
      (otherLast (lastSide .tag program.body) otherBranch).Clear)
    (hopen : e.AsksIndent → first.Clear)
    (hclose : last.LostStart → tag.closeStrip.after = true ∨ e.closeStandalone = true) :
    ∀ s ∈ (Node.block tag program otherBranch).sites first last, s.Clears := by
  rw [Node.sites_block, List.forall_mem_cons, List.forall_mem_append, List.forall_mem_append,
    List.forall_mem_singleton]
  refine ⟨fun _ hstrip hlost => hopen (.inr ?_), ⟨hbody.sites, hother⟩,
    fun hchain hstrip hlost => ?_⟩
  · refine (hbody.first hlost).resolve_left fun htilde => ?_
    rw [show tag.openStrip.after = false from hstrip] at htilde
    cases htilde
  · refine hlast hchain ((hclose hlost).resolve_left fun htilde => ?_)
    rw [show tag.closeStrip.after = false from hstrip] at htilde
    cases htilde

theorem stripBlock_alone_clears
    (hbody : BodyClears program.body False False (stripBody false [] program.body))
    (he : (Node.block tag program none).edgesAt root before after = some e)
    (hopen : e.AsksIndent → first.Clear) (hclose : last.LostStart → e.AsksFollowing) :
    ∀ s ∈ (stripNode root before (.block tag program none) after).sites first last, s.Clears := by
  obtain ⟨hasks, hends⟩ := block_asks he
  rw [stripNode_block, he, Option.getD_some]
  have hbranch := stripBranches_alone_clears tag
    { program with body := stripBody false [] program.body } hbody
  have hfirst := hbranch.askFirst e.openStandalone false
  have hclosed : e.closeStandalone = true → False ∨ (e.closeStandalone = true ∧ EndsText _) :=
    fun halone => .inr ⟨halone, hfirst.text (hends halone)⟩
  have hfinal := hfirst.askLast e.closeStandalone false hclosed
  simp only [stripStandalone, stripBranches, Option.map_none] at hfinal ⊢
  refine block_clears hfinal ?_ (fun _ halone => ?_) hopen (fun hlost => hasks (hclose hlost))
  · simp [otherSites]
  · rw [otherLast]
    exact hfinal.last halone

theorem stripBlock_both_clears
    (hbody : BodyClears program.body False False (stripBody false [] program.body))
    (hother : InverseClears (inverseTarget other).body (tag.inverseStrip.after = true) False
      { other with body := stripBody false [] other.body })
    (he : (Node.block tag program (some other)).edgesAt root before after = some e)
    (hopen : e.AsksIndent → first.Clear) (hclose : last.LostStart → e.AsksFollowing) :
    ∀ s ∈ (stripNode root before (.block tag program (some other)) after).sites first last,
      s.Clears := by
  obtain ⟨hasks, hends⟩ := block_asks he
  rw [stripNode_block, he, Option.getD_some]
  obtain ⟨alone, hbranch, p, hp, hinverse⟩ := stripBranches_both_clears
    { program with body := stripBody false [] program.body } hbody hother
  simp only [stripStandalone, Option.map_some, hp]
  have hfirst := hbranch.askFirst e.openStandalone false
  have hlast := hinverse.lastLine e.closeStandalone hends
  refine block_clears hfirst ?_ (fun hchain halone => hlast.last halone hchain _) hopen
    (fun hlost => hasks (hclose hlost))
  refine hlast.sites fun hopened hstrip => hfirst.last (hopened.resolve_left fun htilde => ?_)
  rw [hstrip] at htilde
  cases htilde

/-- A link of a chain without another behind it. -/
theorem stripLink_alone_clears {tilde : Bool} {names : List String} {span : Span}
    (hopen : tag.openStrip.after = tilde) (hread : program.body = read)
    (hbody : BodyClears read False False (stripBody false [] read)) :
    InverseClears read (tilde = true) False
      ⟨stripBody false [] [.block tag program none], names, true, span⟩ := by
  subst hopen hread
  rw [stripBody_link]
  refine .chain (stripBranches_alone_clears _ _ hbody) ?_
  simp [stripBranches, otherSites]

/-- A link of a chain with another `else` behind it. -/
theorem stripLink_both_clears {tilde : Bool} {names : List String} {span : Span}
    (hopen : tag.openStrip.after = tilde) (hread : program.body = read)
    (hbody : BodyClears read False False (stripBody false [] read))
    (hother : InverseClears (inverseTarget other).body (tag.inverseStrip.after = true) False
      { other with body := stripBody false [] other.body }) :
    InverseClears read (tilde = true) False
      ⟨stripBody false [] [.block tag program (some other)], names, true, span⟩ := by
  subst hopen hread
  rw [stripBody_link]
  obtain ⟨alone, hbranch, p, hp, hinverse⟩ := stripBranches_both_clears
    { program with body := stripBody false [] program.body } hbody hother
  refine .chain (hbranch.mono id False.elim) ?_
  simp only [Option.map_some, hp]
  refine hinverse.sites fun hopened hstrip => hbranch.last (hopened.resolve_left fun htilde => ?_)
  rw [hstrip] at htilde
  cases htilde

end Blocks

/-! ### Every statement -/

theorem mem_nodesWithin {n : Node} {ns : List Node} (h : n ∈ ns) : n ∈ nodesWithin ns := by
  induction ns with
  | nil => cases h
  | cons m rest ih =>
    rw [nodesWithin, List.mem_append]
    rcases List.mem_cons.mp h with rfl | hrest
    · exact .inl n.mem_within
    · exact .inr (ih hrest)

/-- The runs of statements that were read are tidy. -/
theorem nodesOf_tidy (ts : List StatementTree) : RunsHold Content.Tidy (nodesOf ts) := by
  intro c hc
  rw [← nodesOf_asWritten] at hc
  rw [nodesAsWritten_runs hc]
  intro h
  cases h

theorem endsText_stripsTo {ns ns' : List Node} (h : NodesStripTo ns ns') (htext : EndsText ns) :
    EndsText ns' := by
  obtain ⟨front, c, rfl⟩ := htext
  induction front generalizing ns' with
  | nil =>
    cases h with
    | cons hfirst hrest =>
      cases hfirst
      cases hrest
      exact ⟨[], _, rfl⟩
  | cons n front ih =>
    cases h with
    | cons hfirst hrest =>
      obtain ⟨front', c', hfront⟩ := ih hrest
      exact ⟨_ :: front', c', by rw [hfront, List.cons_append]⟩

/-- What stands before statements is clear if the first of them asks for that. -/
def ClearFor (root : Bool) (before : List Node) (first : Side) (ts : List StatementTree) : Prop :=
  ∀ t rest e, ts = t :: rest → t.node.edgesAt root before (nodesOf rest) = some e →
    e.AsksIndent → first.Clear

/-- Nothing asks for a line that something else begins. -/
theorem not_asksIndent {root : Bool} {before after : List Node} {n : Node} {e : Edges}
    (hline : endsLine root before = false) (he : n.edgesAt root before after = some e) :
    ¬ e.AsksIndent := by
  obtain ⟨e₀, -, rfl⟩ := Option.map_eq_some_iff.mp he
  simp [Edges.AsksIndent, hline]

theorem clearFor_start {root : Bool} {first : Side} (h : root = true → first.Clear)
    (ts : List StatementTree) : ClearFor root [] first ts := by
  intro t rest e hts he hasks
  cases root with
  | true => exact h rfl
  | false => exact absurd hasks (not_asksIndent rfl he)

/-- After a statement, what is before the next one is clear if that asks. -/
theorem clearFor_step (root : Bool) (before : List Node) (t : StatementTree)
    (ts : List StatementTree) :
    ClearFor root (t.node :: before) (stripNode root before t.node (nodesOf ts)).side ts := by
  intro t' rest e hts he hasks
  cases t with
  | content text =>
    subst hts
    rw [StatementTree.node, stripNode, nodesOf]
    exact stripContent_clear (Content.tidy_ofText _ _) he hasks
  | _ => exact absurd hasks (not_asksIndent rfl he)

/-- Only text is text after whitespace control. -/
theorem stripNode_side {root : Bool} {before after : List Node} {n : Node}
    (h : ∀ c, n ≠ .content c) : (stripNode root before n after).side = .tag := by
  have hstrips := stripNode_stripsTo root before n after
  generalize stripNode root before n after = n' at hstrips
  cases hstrips with
  | @content c c' _ => exact absurd rfl (h c)
  | _ => rfl

/-- Text after a statement has lost something at its start only if the statement
asks. -/
theorem lost_step {root : Bool} {before : List Node} {t : StatementTree}
    {ts : List StatementTree} {last : Side} (hlast : ¬ last.LostStart)
    (h : (firstSide last (stripBody root (t.node :: before) (nodesOf ts))).LostStart) :
    ∃ e, t.node.edgesAt root before (nodesOf ts) = some e ∧ e.AsksFollowing := by
  match ts with
  | [] => exact absurd h hlast
  | .content text :: rest =>
    rw [nodesOf, stripBody, firstSide, StatementTree.node, stripNode] at h
    obtain ⟨n, before', e, hbefore, he, hasks⟩ := stripContent_lost rfl h
    obtain ⟨rfl, rfl⟩ := List.cons.inj hbefore
    exact ⟨e, he, hasks⟩
  | .comment _ :: rest | .mustache .. :: rest | .unescaped .. :: rest | .partialCall .. :: rest
  | .block .. :: rest =>
    rw [nodesOf, stripBody, firstSide, stripNode_side (by simp [StatementTree.node])] at h
    exact h.elim

/-- A comment or a partial. -/
theorem inline_clears {strip : Strip} {e : Edges} {first last : Side}
    (hstrip : e.strip = strip) (hclose : e.closeStandalone = false)
    (hopen : e.AsksIndent → first.Clear) (hfollows : last.LostStart → e.AsksFollowing) :
    TagSite.Clears ⟨first, strip, last, false⟩ := by
  intro _ hafter hlost
  refine hopen (.inl ?_)
  rcases hfollows hlost with htilde | hinline | halone
  · rw [hstrip, show strip.after = false from hafter] at htilde
    cases htilde
  · exact hinline
  · rw [hclose] at halone
    cases halone

/-- The first run of a branch has lost nothing before the tags around it ask. -/
theorem firstSide_stripBody (ts : List StatementTree) :
    ¬ (firstSide .tag (stripBody false [] (nodesOf ts))).LostStart := by
  intro hlost
  match ts with
  | [] => exact hlost
  | .content text :: rest =>
    rw [nodesOf, stripBody, firstSide, StatementTree.node, stripNode] at hlost
    obtain ⟨n, before, e, hbefore, -⟩ := stripContent_lost rfl hlost
    cases hbefore
  | .comment _ :: rest | .mustache .. :: rest | .unescaped .. :: rest | .partialCall .. :: rest
  | .block .. :: rest =>
    rw [nodesOf, stripBody, firstSide, stripNode_side (by simp [StatementTree.node])] at hlost
    exact hlost

mutual

theorem stripNode_clears (t : StatementTree) {root : Bool} {before after : List Node}
    {first last : Side}
    (hopen : ∀ e, t.node.edgesAt root before after = some e → e.AsksIndent → first.Clear)
    (hclose : last.LostStart → ∃ e, t.node.edgesAt root before after = some e ∧ e.AsksFollowing) :
    ∀ s ∈ (stripNode root before t.node after).sites first last, s.Clears := by
  -- The edges of a tag are unique, so what is lost was asked for by this tag.
  have hfollows : ∀ {e}, t.node.edgesAt root before after = some e → last.LostStart →
      e.AsksFollowing := by
    intro e he hlost
    obtain ⟨e', he', hasks⟩ := hclose hlost
    rw [he] at he'
    cases he'
    exact hasks
  match t with
  | .content text =>
    rw [StatementTree.node, stripNode, Node.sites]
    simp
  | .mustache .. | .unescaped .. =>
    unfold StatementTree.node stripNode Node.sites
    simp
  | .comment text =>
    unfold stripNode
    simp only [StatementTree.node, Node.sites, List.forall_mem_singleton]
    exact inline_clears rfl (by simp) (hopen _ rfl) (hfollows rfl)
  | .partialCall mark call close =>
    unfold stripNode
    simp only [StatementTree.node, Node.sites, List.forall_mem_singleton]
    exact inline_clears rfl (by simp) (hopen _ rfl) (hfollows rfl)
  | .block mark opening body none closing =>
    exact stripBlock_alone_clears (stripBody_clears body) rfl (hopen _ rfl) (hfollows rfl)
  | .block mark opening body (some t) closing =>
    refine stripBlock_both_clears (stripBody_clears body) ?_ rfl (hopen _ rfl) (hfollows rfl)
    rw [otherStrip_some]
    exact stripInverse_clears t
  termination_by (sizeOf t, 0)

theorem stripBody_sites (ts : List StatementTree) {root : Bool} {before : List Node}
    {first last : Side} (hfirst : ClearFor root before first ts) (hlast : ¬ last.LostStart) :
    ∀ s ∈ nodesSites first last (stripBody root before (nodesOf ts)), s.Clears := by
  match ts with
  | [] => simp [nodesOf, stripBody, nodesSites]
  | t :: rest =>
    rw [nodesOf, stripBody, nodesSites, List.forall_mem_append]
    refine ⟨stripNode_clears t (fun e he => hfirst t rest e rfl he) (lost_step hlast), ?_⟩
    exact stripBody_sites rest (clearFor_step root before t rest) hlast
  termination_by (sizeOf ts, 0)

/-- A branch before the tags around it ask for anything. -/
theorem stripBody_clears (ts : List StatementTree) :
    BodyClears (nodesOf ts) False False (stripBody false [] (nodesOf ts)) := by
  refine ⟨stripBody_sites ts (clearFor_start (by simp) ts) id, fun c hc => ?_, firstSide_stripBody ts,
    False.elim, endsText_stripsTo (stripBody_stripsTo false [] _)⟩
  have htidy := stripBody_holds keptByRequests_tidy false (Unmarked.nil true) (nodesOf ts)
    (fun hfalse => by cases hfalse) (nodesOf_tidy ts)
  exact htidy c (mem_nodesWithin hc)
  termination_by (sizeOf ts, 1)

theorem stripInverse_clears (t : InverseTree) {stop : Nat} {close : Strip} :
    InverseClears (inverseTarget (t.program stop close)).body (t.strip.after = true) False
      { t.program stop close with body := stripBody false [] (t.program stop close).body } := by
  match t with
  | .plain mark body => exact .plain ((stripBody_clears body).mono False.elim id)
  | .chain mark opening body none =>
    exact stripLink_alone_clears rfl rfl (stripBody_clears body)
  | .chain mark opening body (some t) =>
    refine stripLink_both_clears rfl rfl (stripBody_clears body) ?_
    rw [otherStrip_some]
    exact stripInverse_clears t
  termination_by (sizeOf t, 0)

end

/-- **A tag that takes the line after it takes its indentation along**: where a tag of a
template has lost something after it, and has no tilde there, no space or tab is left
right before it.  Only a tag that closes a chain is excepted. -/
theorem stripProgram_clears {source : String} {p : Program}
    (h : parseProgram (lex source) = .ok p) :
    ∀ s ∈ nodesSites .outer .outer (stripProgram p).body,
      s.closesChain = false → s.strip.after = false → s.after.LostStart → s.before.Clear := by
  obtain ⟨t, -, -, rfl⟩ := parseProgram_sound (lex_ends source) h
  have hstart : ClearFor true [] .outer t.body :=
    clearFor_start (fun _ => show Side.outer.Clear from trivial) t.body
  exact stripBody_sites t.body hstart id

/-- A block whose closing tag has a line for itself behind an `else`. -/
def indentedElse : String := "\x7b\x7b#a\x7d\x7d\x7b\x7b^\x7d\x7d\n \x7b\x7b/a\x7d\x7d\nb"

theorem stripProgram_clears_indentedElse :
    ∃ p, parseProgram (lex indentedElse) = .ok p ∧
      ∃ s ∈ nodesSites .outer .outer (stripProgram p).body, s.after.LostStart ∧ s.before.Clear := by
  have hrun : (parseProgram (lex indentedElse)).toOption.bind (fun p =>
      (nodesSites .outer .outer (stripProgram p).body).getLast?) = some
        ⟨.run ⟨['\n'], ['\n', ' '], 11, ⟨11, 13⟩, true, false⟩, {},
          .run ⟨['b'], ['\n', 'b'], 20, ⟨19, 21⟩, false, true⟩, false⟩ := by
    decide +kernel
  cases hparse : parseProgram (lex indentedElse) with
  | error fault =>
    rw [hparse] at hrun
    cases hrun
  | ok p =>
    rw [hparse] at hrun
    have hmem := List.mem_of_getLast? hrun
    have hlost : (Side.run ⟨['b'], ['\n', 'b'], 20, ⟨19, 21⟩, false, true⟩).LostStart :=
      show (20 : Nat) ≠ 19 by decide
    exact ⟨p, rfl, _, hmem, hlost, stripProgram_clears hparse _ hmem rfl rfl hlost⟩

/-- A block whose closing tag has a line for itself behind a link of a chain. -/
def indentedChain : String := "\x7b\x7b#a\x7d\x7d\x7b\x7belse b\x7d\x7d\n \x7b\x7b/a\x7d\x7d\nc"

/-- The tag that closes a chain takes the line break after it and leaves the indentation
before it, though no tag has a tilde. -/
theorem stripProgram_leaves_indentation :
    '~' ∉ indentedChain.toList ∧ ∃ p, parseProgram (lex indentedChain) = .ok p ∧
      ∃ s ∈ nodesSites .outer .outer (stripProgram p).body, s.after.LostStart ∧ ¬ s.before.Clear := by
  refine ⟨by decide, ?_⟩
  have hrun : (parseProgram (lex indentedChain)).toOption.bind (fun p =>
      (nodesSites .outer .outer (stripProgram p).body).getLast?) = some
        ⟨.run ⟨['\n', ' '], ['\n', ' '], 16, ⟨16, 18⟩, false, false⟩, {},
          .run ⟨['c'], ['\n', 'c'], 25, ⟨24, 26⟩, false, true⟩, true⟩ := by
    decide +kernel
  cases hparse : parseProgram (lex indentedChain) with
  | error fault =>
    rw [hparse] at hrun
    cases hrun
  | ok p =>
    rw [hparse] at hrun
    refine ⟨p, rfl, _, List.mem_of_getLast? hrun, show (25 : Nat) ≠ 24 by decide, fun hclear => ?_⟩
    exact absurd (hclear ' ' (by decide)) (by decide)

end TemplateCompiler.Mustache
