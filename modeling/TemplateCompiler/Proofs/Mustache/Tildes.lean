/-
Tildes strip the side that they are written on.

A run of text stands between two pieces of the source, and what it loses at each
end is the business of the tag there: all blanks where the tag has a tilde on that
side, the rest of a line or the indentation where the tag stands alone, and
nothing otherwise.

* `Heeds` — which requests a run may and must get at one end;
* `StartAsks`, `EndAsks` — the requests that the tags beside a run allow;
* `BodyFits` — every run of some statements got what its neighbours ask for;
* `stripBody_fits`, `stripInverse_fits` — so it is after whitespace control, the
  outermost runs apart, which the tags around them have yet to ask;
* `stripProgram_heeds_tildes` — the law for every run of a template.

The `else` tags of a chain do not all get their due.  The text before the second
one and those after it is stripped as another tag of the block says too; and the
tag that closes a block with several of them may lose its say.  The kind of a tag
counts the `else` tags, so that the law tells these apart.
-/
import TemplateCompiler.Proofs.Mustache.Pieces
import TemplateCompiler.Proofs.Mustache.Trimming

namespace TemplateCompiler.Mustache

open Template (BlockTag)

/-! ### Requests -/

/-- Bounds on the requests that a run got at one end: `must` it give up all blanks,
`may` it, and may it give up those of a line. -/
structure Heeds (must may line : Prop) (asked : List Bool) : Prop where
  all : must → true ∈ asked
  tilde : true ∈ asked → may
  line : false ∈ asked → line

/-- No request at all. -/
def Quiet : List Bool → Prop := Heeds False False False

theorem quiet_nil : Quiet [] where
  all h := h.elim
  tilde h := by cases h
  line h := by cases h

theorem Heeds.mono {must may line must' may' line' : Prop} {asked : List Bool}
    (h : Heeds must may line asked) (hmust : must' → must) (hmay : may → may')
    (hline : line → line') : Heeds must' may' line' asked where
  all hasked := h.all (hmust hasked)
  tilde hasked := hmay (h.tilde hasked)
  line hasked := hline (h.line hasked)

/-- One more request for all blanks, if the tag has a tilde. -/
theorem Heeds.askAll {must may line : Prop} {asked : List Bool} (h : Heeds must may line asked)
    (tilde : Bool) :
    Heeds (must ∨ tilde = true) (may ∨ tilde = true) line (applyIf tilde (true :: ·) asked) := by
  cases tilde with
  | false => exact h.mono (by simp) .inl id
  | true =>
    show Heeds _ _ _ (true :: asked)
    refine ⟨fun _ => List.mem_cons_self, fun _ => .inr rfl, fun hasked => ?_⟩
    exact h.line (by simpa using hasked)

/-- One more request for a line, if the tag stands alone. -/
theorem Heeds.askLine {must may line : Prop} {asked : List Bool} (h : Heeds must may line asked)
    (alone : Bool) :
    Heeds must may (line ∨ alone = true) (applyIf alone (false :: ·) asked) := by
  cases alone with
  | false => exact h.mono id id .inl
  | true =>
    show Heeds _ _ _ (false :: asked)
    refine ⟨fun hmust => List.mem_cons_of_mem _ (h.all hmust), fun hasked => ?_, fun _ => .inr rfl⟩
    exact h.tilde (by simpa using hasked)

namespace TagKind

/-- The tilde before the tag strips the text there.  What closes a block with more
`else` tags than two has no say. -/
def StripsBefore : TagKind → Prop
  | .closing others => others ≤ 2
  | _ => True

/-- No other tag's tilde strips the text before the tag. -/
def AloneStripsBefore : TagKind → Prop
  | .other earlier => earlier = 0
  | .closing others => others ≤ 1
  | _ => True

/-- The line of the tag is judged by the text before the tag. -/
def SeesLine : TagKind → Prop
  | .closing others => others ≤ 1
  | _ => True

end TagKind

/-- The requests at the start of a run that the piece before it allows; `after`
begins with the run. -/
def StartAsks (before after : List Piece) : List Bool → Prop :=
  match before with
  | .tag kind strip :: earlier =>
    Heeds (strip.after = true) (strip.after = true) (kind.SeesLine → StandsAlone earlier kind after)
  | _ => Quiet

/-- The requests at the end of a run that the piece after it allows; `before`
begins with the run. -/
def EndAsks (before after : List Piece) : List Bool → Prop :=
  match after with
  | .tag kind strip :: later =>
    Heeds (kind.StripsBefore ∧ strip.before = true) (kind.AloneStripsBefore → strip.before = true)
      (StandsAlone before kind later)
  | _ => Quiet

/-! ### Runs that got their requests -/

/-- A run of text that has been asked as `S` says at its start and as `E` says at
its end. -/
structure TextFits (S E : List Bool → Prop) (value : String) (span : Span) (c : Content) :
    Prop where
  written : c.written = value.toList
  span : c.span = span
  trims : ∃ starts ends front back, c.Trims starts ends front back ∧ S starts ∧ E ends

namespace TextFits

variable {S E S' E' : List Bool → Prop} {must may line : Prop} {value : String} {span : Span}
  {c : Content}

theorem ofText (value : String) (span : Span) :
    TextFits Quiet Quiet value span (.ofText value span) :=
  ⟨rfl, rfl, [], [], [], [], Content.trims_ofText value span, quiet_nil, quiet_nil⟩

theorem mono (h : TextFits S E value span c) (hS : ∀ asked, S asked → S' asked)
    (hE : ∀ asked, E asked → E' asked) : TextFits S' E' value span c := by
  obtain ⟨starts, ends, front, back, htrims, hstarts, hends⟩ := h.trims
  exact ⟨h.written, h.span, starts, ends, front, back, htrims, hS _ hstarts, hE _ hends⟩

theorem askStart (h : TextFits S E value span c) {mark all : Bool}
    (hS : ∀ asked, S asked → S' (applyIf mark (all :: ·) asked)) :
    TextFits S' E value span (applyIf mark (·.stripStart all) c) := by
  obtain ⟨starts, ends, front, back, htrims, hstarts, hends⟩ := h.trims
  cases mark with
  | false => exact h.mono hS (fun _ => id)
  | true =>
    obtain ⟨front', htrims'⟩ := htrims.stripStart all
    have hstrips := c.stripStart_stripsTo all
    exact ⟨hstrips.written.trans h.written, hstrips.span.trans h.span, all :: starts, ends, front',
      back, htrims', hS _ hstarts, hends⟩

theorem askEnd (h : TextFits S E value span c) {mark all : Bool}
    (hE : ∀ asked, E asked → E' (applyIf mark (all :: ·) asked)) :
    TextFits S E' value span (applyIf mark (·.stripEnd all) c) := by
  obtain ⟨starts, ends, front, back, htrims, hstarts, hends⟩ := h.trims
  cases mark with
  | false => exact h.mono (fun _ => id) hE
  | true =>
    obtain ⟨back', htrims'⟩ := htrims.stripEnd all
    have hstrips := c.stripEnd_stripsTo all
    exact ⟨hstrips.written.trans h.written, hstrips.span.trans h.span, starts, all :: ends, front,
      back', htrims', hstarts, hE _ hends⟩

/-- What a statement asks of the run after it. -/
theorem stripFollowing (h : TextFits Quiet E value span c) (e : Edges) :
    TextFits (Heeds (e.strip.after = true) (e.strip.after = true)
        (e.inlineStandalone = true ∨ e.closeStandalone = true)) E value span
      (e.stripFollowing c) := by
  have htilde := h.askStart (fun _ hasked => Heeds.askAll hasked e.strip.after)
  have hline := htilde.askStart (fun _ hasked => hasked.askLine e.inlineStandalone)
  refine (hline.askStart (fun _ hasked => hasked.askLine e.closeStandalone)).mono
    (fun _ hasked => ?_) (fun _ => id)
  exact hasked.mono .inr (by simp) (by simp)

/-- What a statement asks of the run before it. -/
theorem stripPreceding (h : TextFits S Quiet value span c) (e : Edges) :
    TextFits S (Heeds (e.strip.before = true) (e.strip.before = true)
        (e.inlineStandalone = true ∨ e.openStandalone = true)) value span
      (e.stripPreceding c) := by
  have htilde := h.askEnd (fun _ hasked => Heeds.askAll hasked e.strip.before)
  have hline := htilde.askEnd (fun _ hasked => hasked.askLine e.inlineStandalone)
  refine (hline.askEnd (fun _ hasked => hasked.askLine e.openStandalone)).mono
    (fun _ => id) (fun _ hasked => ?_)
  exact hasked.mono .inr (by simp) (by simp)

end TextFits

/-! ### Statements whose runs got their requests -/

mutual

/-- The runs of a statement fit its derivation.  The pieces before it are `pre`, the
nearest first, and those after it `post`; text alone is bound by `S` and `E`. -/
inductive NodeFits : (List Bool → Prop) → (List Bool → Prop) → List Piece → List Piece →
    StatementTree → Node → Prop
  | text {S E : List Bool → Prop} {pre post : List Piece} {text : Leaf String} {c : Content}
    (h : TextFits S E text.value text.span c) :
    NodeFits S E pre post (.content text) (.content c)
  | tag {S E : List Bool → Prop} {pre post : List Piece} {t : StatementTree} {n : Node}
    (hpieces : ∀ p ∈ t.pieces, ∃ kind strip, p = .tag kind strip)
    (hspells : Spells t n) (hwithin : n.within = [n]) :
    NodeFits S E pre post t n
  | block {S E : List Bool → Prop} {pre post : List Piece} {mark : Leaf Bool}
    {opening : OpeningTree} {body : List StatementTree} {inverse : Option InverseTree}
    {closing : ClosingTree} {tag : BlockTag} {program : Program} {other : Option Program}
    {before after : List Piece}
    (hbefore : before = .tag .opening ⟨mark.value, opening.close.value⟩ :: pre)
    (hafter : after = .tag (.closing (otherCount inverse)) closing.strip :: post)
    (hbody : BodyFits
      (StartAsks before (statementsPieces body ++ (otherPieces 0 inverse ++ after)))
      (EndAsks ((statementsPieces body).reverse ++ before) (otherPieces 0 inverse ++ after))
      before (otherPieces 0 inverse ++ after) body program.body)
    (hother : OtherFits 0 ((statementsPieces body).reverse ++ before) after inverse other) :
    NodeFits S E pre post (.block mark opening body inverse closing) (.block tag program other)

/-- The runs of statements fit; `S` binds the start of the first run and `E` the end
of the last. -/
inductive BodyFits : (List Bool → Prop) → (List Bool → Prop) → List Piece → List Piece →
    List StatementTree → List Node → Prop
  | nil {S E : List Bool → Prop} {pre post : List Piece} : BodyFits S E pre post [] []
  | one {S E : List Bool → Prop} {pre post : List Piece} {t : StatementTree} {n : Node}
    (h : NodeFits S E pre post t n) : BodyFits S E pre post [t] [n]
  | cons {S E : List Bool → Prop} {pre post : List Piece} {t t' : StatementTree}
    {ts : List StatementTree} {n n' : Node} {ns : List Node}
    (h : NodeFits S (EndAsks (t.pieces.reverse ++ pre) (statementsPieces (t' :: ts) ++ post)) pre
      (statementsPieces (t' :: ts) ++ post) t n)
    (hrest : BodyFits
      (StartAsks (t.pieces.reverse ++ pre) (statementsPieces (t' :: ts) ++ post)) E
      (t.pieces.reverse ++ pre) post (t' :: ts) (n' :: ns)) :
    BodyFits S E pre post (t :: t' :: ts) (n :: n' :: ns)

/-- The runs from an `else` on fit; `S` and `E` bind the text up to the next one. -/
inductive InverseFits : Nat → (List Bool → Prop) → (List Bool → Prop) → List Piece → List Piece →
    InverseTree → Program → Prop
  | plain {n : Nat} {S E : List Bool → Prop} {pre post : List Piece} {mark : Leaf Strip}
    {body : List StatementTree} {ns : List Node} {names : List String} {span : Span}
    (hbody : BodyFits S E (.tag (.other n) mark.value :: pre) post body ns) :
    InverseFits n S E pre post (.plain mark body) ⟨ns, names, false, span⟩
  | chain {n : Nat} {S E : List Bool → Prop} {pre post : List Piece} {mark : Leaf Bool}
    {opening : OpeningTree} {body : List StatementTree} {inverse : Option InverseTree}
    {tag : BlockTag} {program : Program} {other : Option Program} {names : List String}
    {span : Span} {before : List Piece}
    (hbefore : before = .tag (.other n) ⟨mark.value, opening.close.value⟩ :: pre)
    (hbody : BodyFits S E before (otherPieces (n + 1) inverse ++ post) body program.body)
    (hother : OtherFits (n + 1) ((statementsPieces body).reverse ++ before) post inverse other) :
    InverseFits n S E pre post (.chain mark opening body inverse)
      ⟨[.block tag program other], names, true, span⟩

/-- The runs of another branch that may be missing fit. -/
inductive OtherFits : Nat → List Piece → List Piece → Option InverseTree → Option Program → Prop
  | none {n : Nat} {pre post : List Piece} : OtherFits n pre post none none
  | some {n : Nat} {pre post : List Piece} {t : InverseTree} {p : Program}
      {before after : List Piece}
    (hbefore : before = .tag (.other n) t.strip :: pre)
    (hafter : after = otherPieces (n + 1) t.next ++ post)
    (h : InverseFits n (StartAsks before (statementsPieces t.body ++ after))
      (EndAsks ((statementsPieces t.body).reverse ++ before) after) pre post t p) :
    OtherFits n pre post (some t) (some p)

end

section Fits

variable {S E S' E' : List Bool → Prop} {must may line : Prop} {pre post : List Piece}
  {t : StatementTree} {n : Node} {ts : List StatementTree} {ns : List Node}

theorem NodeFits.spells (h : NodeFits S E pre post t n) : Spells t n := by
  cases h with
  | text h => exact .text h.written
  | tag _ hspells _ => exact hspells
  | block _ _ _ _ => exact .tag (by simp) (by simp)

theorem BodyFits.spells (h : BodyFits S E pre post ts ns) : List.Forall₂ Spells ts ns := by
  induction ts generalizing S pre ns with
  | nil =>
    cases h
    exact .nil
  | cons t ts ih =>
    cases h with
    | one h => exact .cons h.spells .nil
    | cons h hrest => exact .cons h.spells (ih hrest)

/-- Bounds on requests matter for text only. -/
theorem NodeFits.change (h : NodeFits S E pre post t n) :
    (∃ text c, t = .content text ∧ n = .content c ∧ TextFits S E text.value text.span c) ∨
      ((∀ c, n ≠ .content c) ∧ ∀ S' E' : List Bool → Prop, NodeFits S' E' pre post t n) := by
  cases h with
  | text h => exact .inl ⟨_, _, rfl, rfl, h⟩
  | tag hpieces hspells hwithin =>
    cases hspells with
    | text _ =>
      obtain ⟨kind, strip, htag⟩ := hpieces _
        (by rw [StatementTree.pieces]; exact List.mem_cons_self)
      cases htag
    | tag ht hn => exact .inr ⟨hn, fun S' E' => .tag hpieces (.tag ht hn) hwithin⟩
  | block hbefore hafter hbody hother =>
    exact .inr ⟨by simp, fun S' E' => .block hbefore hafter hbody hother⟩

theorem NodeFits.mono (h : NodeFits S E pre post t n) (hS : ∀ asked, S asked → S' asked)
    (hE : ∀ asked, E asked → E' asked) : NodeFits S' E' pre post t n := by
  rcases h.change with ⟨text, c, rfl, rfl, htext⟩ | ⟨-, hany⟩
  · exact .text (htext.mono hS hE)
  · exact hany S' E'

theorem BodyFits.mono (h : BodyFits S E pre post ts ns) (hS : ∀ asked, S asked → S' asked)
    (hE : ∀ asked, E asked → E' asked) : BodyFits S' E' pre post ts ns := by
  induction ts generalizing S S' pre ns with
  | nil =>
    cases h
    exact .nil
  | cons t ts ih =>
    cases h with
    | one h => exact .one (h.mono hS hE)
    | cons h hrest => exact .cons (h.mono hS fun _ => id) (ih hrest fun _ => id)

/-- The first run of statements is asked once more. -/
theorem BodyFits.askFirst (h : BodyFits S E pre post ts ns) {mark all : Bool}
    (hS : ∀ asked, S asked → S' (applyIf mark (all :: ·) asked)) :
    BodyFits S' E pre post ts (applyIf mark (onFirst (·.stripStart all)) ns) := by
  -- A run of text is asked; anything else stays, and may be asked for anything.
  have hfirst : ∀ {E : List Bool → Prop} {post : List Piece} {t : StatementTree} {n : Node}
      (rest : List Node), NodeFits S E pre post t n →
      ∃ n', applyIf mark (onFirst (·.stripStart all)) (n :: rest) = n' :: rest ∧
        NodeFits S' E pre post t n' := by
    intro E post t n rest hn
    rcases hn.change with ⟨text, c, rfl, rfl, htext⟩ | ⟨hcontent, hany⟩
    · refine ⟨.content (applyIf mark (·.stripStart all) c), ?_, .text (htext.askStart hS)⟩
      cases mark <;> rfl
    · refine ⟨n, ?_, hany S' E⟩
      have hsame : onFirst (·.stripStart all) (n :: rest) = n :: rest := by
        cases n with
        | content c => exact absurd rfl (hcontent c)
        | _ => rfl
      rw [applyIf, hsame, ite_self]
  cases h with
  | nil =>
    have hnil : applyIf mark (onFirst (·.stripStart all)) [] = [] := by cases mark <;> rfl
    rw [hnil]
    exact .nil
  | one h =>
    obtain ⟨n', heq, hn'⟩ := hfirst [] h
    rw [heq]
    exact .one hn'
  | cons h hrest =>
    obtain ⟨n', heq, hn'⟩ := hfirst _ h
    rw [heq]
    exact .cons hn' hrest

theorem BodyFits.onLast (h : BodyFits S E pre post ts ns) {all : Bool}
    (hE : ∀ asked, E asked → E' (all :: asked)) :
    BodyFits S E' pre post ts (onLast (·.stripEnd all) ns) := by
  induction ts generalizing S pre ns with
  | nil =>
    cases h
    exact .nil
  | cons t ts ih =>
    cases h with
    | @one _ _ _ _ _ n h =>
      rcases h.change with ⟨text, c, rfl, rfl, htext⟩ | ⟨hcontent, hany⟩
      · have hlast : TextFits S E' text.value text.span (applyIf true (·.stripEnd all) c) :=
          htext.askEnd hE
        exact .one (.text hlast)
      · have hsame : Mustache.onLast (·.stripEnd all) [n] = [n] := by
          cases n with
          | content c => exact absurd rfl (hcontent c)
          | _ => rfl
        rw [hsame]
        exact .one (hany S E')
    | @cons _ _ _ _ _ t' ts n n' ns h hrest =>
      have hlast := ih hrest
      have hstep : Mustache.onLast (·.stripEnd all) (n :: n' :: ns)
          = n :: Mustache.onLast (·.stripEnd all) (n' :: ns) := by
        cases n <;> rfl
      rw [hstep]
      -- Behind the first statement something is left in any case.
      cases hns : Mustache.onLast (·.stripEnd all) (n' :: ns) with
      | nil =>
        rw [hns] at hlast
        cases hlast
      | cons m ms =>
        rw [hns] at hlast
        exact .cons h hlast

/-- The last run of statements is asked once more. -/
theorem BodyFits.askLast (h : BodyFits S E pre post ts ns) {mark all : Bool}
    (hE : ∀ asked, E asked → E' (applyIf mark (all :: ·) asked)) :
    BodyFits S E' pre post ts (applyIf mark (Mustache.onLast (·.stripEnd all)) ns) := by
  cases mark with
  | false => exact h.mono (fun _ => id) hE
  | true => exact h.onLast hE

end Fits

/-! ### The text that an `else` touches -/

section Inverse

variable {S E S' E' : List Bool → Prop} {pre post : List Piece} {n : Nat} {t : InverseTree}
  {p : Program}

theorem InverseFits.target (h : InverseFits n S E pre post t p) :
    BodyFits S E (.tag (.other n) t.strip :: pre) (otherPieces (n + 1) t.next ++ post) t.body
      (inverseTarget p).body := by
  cases h with
  | plain hbody =>
    simp only [InverseTree.next, otherPieces, List.nil_append]
    exact hbody
  | chain hbefore hbody hother =>
    subst hbefore
    exact hbody

theorem InverseFits.onTarget (h : InverseFits n S E pre post t p) {f : List Node → List Node}
    (hf : ∀ ns, BodyFits S E (.tag (.other n) t.strip :: pre) (otherPieces (n + 1) t.next ++ post)
      t.body ns → BodyFits S' E' (.tag (.other n) t.strip :: pre)
        (otherPieces (n + 1) t.next ++ post) t.body (f ns)) :
    InverseFits n S' E' pre post t (onInverseTarget f p) := by
  cases h with
  | plain hbody =>
    simp only [InverseTree.next, otherPieces, List.nil_append] at hf
    exact .plain (hf _ hbody)
  | chain hbefore hbody hother =>
    subst hbefore
    exact .chain rfl (hf _ hbody) hother

/-- The line before the tag that closes a block is taken from an `else` that is the
last of its block, and from no link of a chain. -/
theorem InverseFits.lastLine (h : InverseFits n S E pre post t p) {alone : Bool}
    (hE : t.next = none → ∀ asked, E asked → E (applyIf alone (false :: ·) asked)) :
    InverseFits n S E pre post t
      { p with body := applyIf alone (onLast (·.stripEnd false)) p.body } := by
  cases h with
  | plain hbody => exact .plain (hbody.askLast (hE rfl))
  | chain hbefore hbody hother =>
    have hsame : ∀ link : List Node, applyIf alone (fun ns => ns) link = link := by
      intro link
      rw [applyIf, ite_self]
    exact (hsame _).symm ▸ .chain hbefore hbody hother

end Inverse

/-! ### What a statement asks -/

/-- Statements stand before a place, the nearest first, with the pieces `pre`.  Where
they are all there is, no other piece is before them. -/
def Behind (root : Bool) (before : List Node) (pre : List Piece) : Prop :=
  ∃ done outer, before = (nodesOf done).reverse ∧ pre = (statementsPieces done).reverse ++ outer ∧
    (root = true → outer = [])

theorem nodesOf_append (ts us : List StatementTree) :
    nodesOf (ts ++ us) = nodesOf ts ++ nodesOf us := by
  induction ts with
  | nil => simp [nodesOf]
  | cons t ts ih => simp [nodesOf, ih]

namespace Behind

variable {root : Bool} {before : List Node} {pre : List Piece}

theorem start (h : root = true → pre = []) : Behind root [] pre :=
  ⟨[], pre, by simp [nodesOf], by simp [statementsPieces], h⟩

theorem step (h : Behind root before pre) (t : StatementTree) :
    Behind root (t.node :: before) (t.pieces.reverse ++ pre) := by
  obtain ⟨done, outer, rfl, rfl, houter⟩ := h
  refine ⟨done ++ [t], outer, ?_, ?_, houter⟩
  · simp [nodesOf_append, nodesOf]
  · simp [statementsPieces_append, statementsPieces]

theorem endsLine (h : Behind root before pre) (hline : endsLine root before = true) :
    EndsLine pre := by
  obtain ⟨done, outer, rfl, rfl, houter⟩ := h
  exact endsLine_spells (spells_nodes done) houter hline

/-- The place is the first, or there is a statement right before it. -/
theorem nearest (h : Behind root before pre) :
    before = [] ∨ ∃ (t : StatementTree) (before' : List Node) (pre' : List Piece),
      before = t.node :: before' ∧ pre = t.pieces.reverse ++ pre' ∧ Behind root before' pre' := by
  obtain ⟨done, outer, rfl, rfl, houter⟩ := h
  rcases List.eq_nil_or_concat done with rfl | ⟨front, t, rfl⟩
  · exact .inl (by simp [nodesOf])
  · refine .inr ⟨t, (nodesOf front).reverse, (statementsPieces front).reverse ++ outer, ?_, ?_,
      front, outer, rfl, rfl, houter⟩
    · simp [nodesOf_append, nodesOf]
    · simp [statementsPieces_append, statementsPieces]

end Behind

/-- The line before the tag that closes a block, where whitespace control looks at
the right text. -/
theorem closing_endsLine {stop : Nat} {close : Strip} {body : List StatementTree}
    {inverse : Option InverseTree} {program : Program} {pre : List Piece}
    (hprogram : program.body = nodesOf body) (hcount : otherCount inverse ≤ 1)
    (hline : endsLine false
      (((otherOf stop close inverse).map inverseTarget).getD program).body.reverse = true) :
    EndsLine ((otherPieces 0 inverse).reverse ++ ((statementsPieces body).reverse ++ pre)) := by
  have hspells : ∀ (ts : List StatementTree) (outer : List Piece),
      endsLine false (nodesOf ts).reverse = true →
        EndsLine ((statementsPieces ts).reverse ++ outer) := by
    intro ts outer hends
    exact endsLine_spells (spells_nodes ts) (fun hroot => by cases hroot) hends
  match inverse with
  | none =>
    simp only [otherOf, Option.map_none, Option.getD_none, hprogram] at hline
    simpa [otherPieces] using hspells body pre hline
  | some (.plain mark ts) =>
    simp only [otherOf, InverseTree.program, Option.map_some, Option.getD_some, inverseTarget]
      at hline
    simpa [otherPieces, InverseTree.pieces] using hspells ts _ hline
  | some (.chain mark opening ts inverse) =>
    -- A link that is the only one has no other behind it.
    have hnone : inverse = none := by
      cases inverse with
      | none => rfl
      | some t =>
        rw [otherCount, InverseTree.count, otherCount, t.count_eq] at hcount
        omega
    subst hnone
    simp only [otherOf, InverseTree.program, Option.map_some, Option.getD_some, inverseTarget]
      at hline
    simpa [otherPieces, InverseTree.pieces] using hspells ts _ hline

section Edges

variable {root : Bool} {before after : List Node} {pre post : List Piece} {e : Edges}
  {asked : List Bool}

/-- The run after a statement is asked as the last tag of the statement says. -/
theorem following_asks (t : StatementTree) (hedges : t.node.edgesAt root before after = some e)
    (hbefore : endsLine root before = true → EndsLine pre)
    (hafter : startsLine root after = true → StartsLine post)
    (h : Heeds (e.strip.after = true) (e.strip.after = true)
      (e.inlineStandalone = true ∨ e.closeStandalone = true) asked) :
    StartAsks (t.pieces.reverse ++ pre) post asked := by
  -- Only a tag that stands alone asks for the line, and only some tags may.
  obtain ⟨e₀, he₀, rfl⟩ := Option.map_eq_some_iff.mp hedges
  match t with
  | .content text => cases he₀
  | .mustache mark call close | .unescaped mark call close =>
    cases he₀
    exact h.mono id id (by simp)
  | .comment text =>
    cases he₀
    refine h.mono id id fun halone _ => ?_
    simp only [Bool.true_and, Bool.and_eq_true, Bool.false_and, Bool.false_eq_true, or_false]
      at halone
    exact ⟨by simp, hbefore halone.1, hafter halone.2⟩
  | .partialCall mark call close =>
    cases he₀
    refine h.mono id id fun halone _ => ?_
    simp only [Bool.true_and, Bool.and_eq_true, Bool.false_and, Bool.false_eq_true, or_false]
      at halone
    exact ⟨by simp, hbefore halone.1, hafter halone.2⟩
  | .block mark opening body inverse closing =>
    cases he₀
    -- What follows a block stands behind its closing tag, the last of its pieces.
    have hlast : (StatementTree.block mark opening body inverse closing).pieces.reverse ++ pre
        = .tag (.closing (otherCount inverse)) closing.strip
          :: ((otherPieces 0 inverse).reverse ++ ((statementsPieces body).reverse
            ++ .tag .opening ⟨mark.value, opening.close.value⟩ :: pre)) := by
      simp [StatementTree.pieces]
    rw [hlast]
    refine h.mono id id fun halone hcount => ?_
    simp only [Bool.and_eq_true, Bool.false_and, Bool.false_eq_true, false_or] at halone
    exact ⟨by simp, closing_endsLine rfl hcount halone.1, hafter halone.2⟩

/-- The run before a statement is asked as the first tag of the statement says. -/
theorem preceding_asks (t : StatementTree) (hedges : t.node.edgesAt root before after = some e)
    (hbefore : endsLine root before = true → EndsLine pre)
    (hafter : startsLine root after = true → StartsLine post)
    (h : Heeds (e.strip.before = true) (e.strip.before = true)
      (e.inlineStandalone = true ∨ e.openStandalone = true) asked) :
    EndAsks pre (t.pieces ++ post) asked := by
  obtain ⟨e₀, he₀, rfl⟩ := Option.map_eq_some_iff.mp hedges
  match t with
  | .content text => cases he₀
  | .mustache mark call close | .unescaped mark call close =>
    cases he₀
    exact h.mono (·.2) (fun hmay _ => hmay) (by simp)
  | .comment text =>
    cases he₀
    refine h.mono (·.2) (fun hmay _ => hmay) fun halone => ?_
    simp only [Bool.true_and, Bool.and_eq_true, Bool.false_and, Bool.false_eq_true, or_false]
      at halone
    exact ⟨by simp, hbefore halone.1, hafter halone.2⟩
  | .partialCall mark call close =>
    cases he₀
    refine h.mono (·.2) (fun hmay _ => hmay) fun halone => ?_
    simp only [Bool.true_and, Bool.and_eq_true, Bool.false_and, Bool.false_eq_true, or_false]
      at halone
    exact ⟨by simp, hbefore halone.1, hafter halone.2⟩
  | .block mark opening body inverse closing =>
    cases he₀
    rw [StatementTree.pieces, List.cons_append]
    refine h.mono (·.2) (fun hmay _ => hmay) fun halone => ?_
    simp only [Bool.and_eq_true, Bool.false_and, Bool.false_eq_true, false_or] at halone
    refine ⟨by simp, hbefore halone.2, ?_⟩
    rw [List.append_assoc]
    exact startsLine_spells (spells_nodes body) (fun hroot => by cases hroot) halone.1

/-- A statement that asks nothing is text. -/
theorem content_of_edgesAt {t : StatementTree} (h : t.node.edgesAt root before after = none) :
    ∃ text, t = .content text := by
  cases t with
  | content text => exact ⟨text, rfl⟩
  | _ => simp [StatementTree.node, Node.edgesAt, Node.edges] at h

end Edges

/-! ### Runs between statements -/

/-- The requests at the start of statements: none yet where nothing stands before
them. -/
def PendingStart (before : List Node) (pre after : List Piece) : List Bool → Prop :=
  match before with
  | [] => Quiet
  | _ :: _ => StartAsks pre after

/-- The requests at the end of a statement: none yet where nothing stands behind
it. -/
def PendingEnd (ts : List StatementTree) (before post : List Piece) : List Bool → Prop :=
  match ts with
  | [] => Quiet
  | _ :: _ => EndAsks before (statementsPieces ts ++ post)

section Statements

variable {root : Bool} {before : List Node} {pre post : List Piece}

theorem stripContent_fits (hbefore : Behind root before pre) (hpost : root = true → post = [])
    (text : Leaf String) (ts : List StatementTree) :
    TextFits
      (PendingStart before pre (.text text.value text.span :: (statementsPieces ts ++ post)))
      (PendingEnd ts (.text text.value text.span :: pre) post) text.value text.span
      (stripContent root before (.ofText text.value text.span) (nodesOf ts)) := by
  have hread := TextFits.ofText text.value text.span
  unfold stripContent
  extract_lets c₁
  -- First as the statement before it asks, then as the one after it.
  have hstart : TextFits
      (PendingStart before pre (.text text.value text.span :: (statementsPieces ts ++ post)))
      Quiet text.value text.span c₁ := by
    unfold c₁
    rcases hbefore.nearest with rfl | ⟨t, before', pre', rfl, rfl, hbehind⟩
    · exact hread
    · simp only [PendingStart]
      split
      · next e hedges =>
        refine (hread.stripFollowing e).mono (fun asked hasked => ?_) (fun _ => id)
        refine following_asks t hedges hbehind.endsLine (fun hline => ?_) hasked
        have hnodes := spells_nodes (.content text :: ts)
        rw [nodesOf] at hnodes
        have hstarts := startsLine_spells hnodes hpost hline
        rwa [statementsPieces, StatementTree.pieces, List.append_assoc, List.singleton_append]
          at hstarts
      · next hedges =>
        obtain ⟨text', rfl⟩ := content_of_edgesAt hedges
        exact hread
  have hends : endsLine root (.content c₁ :: before) = true →
      EndsLine (.text text.value text.span :: pre) := by
    intro hline
    have hbehind := hbefore.step (.content text)
    have hsame : endsLine root (.content c₁ :: before)
        = endsLine root ((StatementTree.content text).node :: before) := by
      simp only [endsLine, StatementTree.node, hstart.written, Content.ofText]
    have hpieces := hbehind.endsLine (hsame ▸ hline)
    rwa [StatementTree.pieces, List.reverse_singleton, List.singleton_append] at hpieces
  cases ts with
  | nil =>
    rw [nodesOf]
    exact hstart
  | cons t ts =>
    rw [nodesOf]
    simp only [PendingEnd]
    split
    · next e hedges =>
      refine (hstart.stripPreceding e).mono (fun _ => id) (fun asked hasked => ?_)
      rw [statementsPieces, List.append_assoc]
      exact preceding_asks t hedges hends
        (startsLine_spells (spells_nodes ts) hpost) hasked
    · next hedges =>
      obtain ⟨text', rfl⟩ := content_of_edgesAt hedges
      rw [statementsPieces, StatementTree.pieces]
      exact hstart

end Statements

/-! ### Blocks -/

theorem stripNode_block (root : Bool) (before : List Node) (tag : BlockTag) (program : Program)
    (other : Option Program) (after : List Node) :
    stripNode root before (.block tag program other) after =
      let e := ((Node.block tag program other).edgesAt root before after).getD { strip := {} }
      let branches := stripStandalone e (stripBranches tag
        { program with body := stripBody false [] program.body }
        (other.map fun branch => { branch with body := stripBody false [] branch.body }))
      .block tag branches.1 branches.2 := by
  obtain ⟨body, names, chained, span⟩ := program
  cases other with
  | none => rw [stripNode]; rfl
  | some other =>
    obtain ⟨other, otherNames, otherChained, otherSpan⟩ := other
    rw [stripNode]
    rfl

/-- Where no tag of a block stands alone, no line is taken out of its branches. -/
theorem stripStandalone_quiet {e : Edges} (hopen : e.openStandalone = false)
    (hclose : e.closeStandalone = false) (branches : Program × Option Program) :
    stripStandalone e branches = branches := by
  obtain ⟨program, inverse⟩ := branches
  cases inverse <;> simp [stripStandalone, hopen, hclose, applyIf]

/-- What the tags of a block ask of its two branches; `alone` says that the `else`
stands alone. -/
theorem stripBranches_some (tag : BlockTag) (program other : Program) :
    ∃ alone,
      (alone = true →
        endsLine false
          (applyIf tag.openStrip.after (onFirst (·.stripStart true)) program.body).reverse = true ∧
        startsLine false (inverseTarget other).body = true) ∧
      stripBranches tag program (some other) =
        ({ program with
            body := applyIf alone (onLast (·.stripEnd false))
              (applyIf tag.inverseStrip.before (onLast (·.stripEnd true))
                (applyIf tag.openStrip.after (onFirst (·.stripStart true)) program.body)) },
          some (onInverseTarget (fun nodes => applyIf alone (onFirst (·.stripStart false))
            (applyIf tag.closeStrip.before (onLast (·.stripEnd true))
              (applyIf tag.inverseStrip.after (onFirst (·.stripStart true)) nodes))) other)) :=
  ⟨_, fun halone => Bool.and_eq_true_iff.mp halone, rfl⟩

section Blocks

variable {body : List StatementTree} {pre post : List Piece}

/-- The branch of a block that has no other. -/
theorem stripBranches_alone (tag : BlockTag) (program : Program)
    (hbody : BodyFits Quiet Quiet pre post body program.body) :
    BodyFits (Heeds (tag.openStrip.after = true) (tag.openStrip.after = true) False)
      (Heeds (tag.closeStrip.before = true) (tag.closeStrip.before = true) False) pre post body
      (stripBranches tag program none).1.body := by
  have hfirst := hbody.askFirst (fun _ hasked => Heeds.askAll hasked tag.openStrip.after)
  have hlast := hfirst.askLast (fun _ hasked => Heeds.askAll hasked tag.closeStrip.before)
  exact hlast.mono (fun _ hasked => hasked.mono .inr (by simp) id)
    (fun _ hasked => hasked.mono .inr (by simp) id)

/-- The two branches of a block, or of a link.  The text after the `else` has been
asked by its own tag at most; `E` is what is left to ask at its end. -/
theorem stripBranches_both (tag : BlockTag) (program : Program) {n : Nat} {t : InverseTree}
    {other : Program} {E : List Bool → Prop}
    (hbody : BodyFits Quiet Quiet pre (t.pieces n ++ post) body program.body)
    (hother : InverseFits n (Heeds False (t.strip.after = true) False) E
      ((statementsPieces body).reverse ++ pre) post t other)
    (hstrip : tag.inverseStrip = t.strip)
    (hE : ∀ asked, E asked →
      EndAsks ((statementsPieces t.body).reverse
          ++ .tag (.other n) t.strip :: ((statementsPieces body).reverse ++ pre))
        (otherPieces (n + 1) t.next ++ post)
        (applyIf tag.closeStrip.before (true :: ·) asked)) :
    BodyFits (Heeds (tag.openStrip.after = true) (tag.openStrip.after = true) False)
        (EndAsks ((statementsPieces body).reverse ++ pre) (t.pieces n ++ post)) pre
        (t.pieces n ++ post) body (stripBranches tag program (some other)).1.body ∧
      OtherFits n ((statementsPieces body).reverse ++ pre) post (some t)
        (stripBranches tag program (some other)).2 := by
  have hfirst := hbody.askFirst (fun _ hasked => Heeds.askAll hasked tag.openStrip.after)
  obtain ⟨alone, hlines, hbranches⟩ := stripBranches_some tag program other
  rw [hbranches]
  -- The `else` stands alone by the text on both sides of it.
  have halone : alone = true → StandsAlone ((statementsPieces body).reverse ++ pre) (.other n)
      (statementsPieces t.body ++ (otherPieces (n + 1) t.next ++ post)) := by
    intro htrue
    obtain ⟨hbefore, hafter⟩ := hlines htrue
    refine ⟨by simp, ?_, ?_⟩
    · exact endsLine_spells hfirst.spells (fun hroot => by cases hroot) hbefore
    · exact startsLine_spells hother.target.spells (fun hroot => by cases hroot) hafter
  constructor
  · rw [t.pieces_eq, List.cons_append, List.append_assoc] at hfirst ⊢
    have htilde := hfirst.askLast (fun _ hasked => Heeds.askAll hasked tag.inverseStrip.before)
    have hline := htilde.askLast (fun _ hasked => hasked.askLine alone)
    refine hline.mono (fun _ hasked => hasked.mono .inr (by simp) id) (fun _ hasked => ?_)
    rw [hstrip] at hasked
    exact hasked.mono (fun hmust => .inr hmust.2) (fun hmay _ => hmay.resolve_left id)
      (fun hline => halone (hline.resolve_left id))
  · refine .some rfl rfl (hother.onTarget fun ns hns => ?_)
    have htilde := hns.askFirst (fun _ hasked => Heeds.askAll hasked tag.inverseStrip.after)
    have hclose := htilde.askLast hE
    have hline := hclose.askFirst (fun _ hasked => hasked.askLine alone)
    refine hline.mono (fun _ hasked => ?_) (fun _ => id)
    rw [hstrip] at hasked
    exact hasked.mono .inr (fun hmay => hmay.elim id id)
      (fun hline _ => halone (hline.resolve_left id))

end Blocks

/-! ### Links of a chain -/

/-- What is left to ask at the end of the text after an `else`: one tag more may ask
for all blanks, the one that closes the block if the `else` is among its first two. -/
def PendingClose (n : Nat) (close : Strip) (before after : List Piece) (asked : List Bool) :
    Prop :=
  ∀ tilde : Bool, (n ≤ 1 → tilde = close.before) →
    EndAsks before after (applyIf tilde (true :: ·) asked)

theorem pendingClose_closing {n : Nat} {close : Strip} {before post : List Piece}
    {must may : Prop} {asked : List Bool} (h : Heeds must may False asked)
    (hmay : n = 0 → may → close.before = true) :
    PendingClose n close before (.tag (.closing (n + 1)) close :: post) asked := by
  intro tilde htilde
  refine (h.askAll tilde).mono (fun hmust => ?_) (fun hmay' hcount => ?_) False.elim
  · have hcount : n + 1 ≤ 2 := hmust.1
    exact .inr ((htilde (by omega)).trans hmust.2)
  · have hzero : n = 0 := by
      have hle : n + 1 ≤ 1 := hcount
      omega
    rcases hmay' with hold | hnew
    · exact hmay hzero hold
    · rw [← htilde (by omega)]
      exact hnew

theorem pendingClose_other {n : Nat} {close : Strip} {before post : List Piece} {t : InverseTree}
    {asked : List Bool} (h : EndAsks before (t.pieces (n + 1) ++ post) asked) :
    PendingClose n close before (t.pieces (n + 1) ++ post) asked := by
  intro tilde _
  rw [t.pieces_eq, List.cons_append] at h ⊢
  have hheeds : Heeds _ _ _ asked := h
  exact (hheeds.askAll tilde).mono .inl (fun _ hzero => absurd hzero (Nat.succ_ne_zero n)) id

/-- A link is a block in a program of its own, so none of its tags stands alone by
what is around it. -/
theorem stripBody_link (tag : BlockTag) (program : Program) (other : Option Program) :
    stripBody false [] [.block tag program other] =
      [.block tag
        (stripBranches tag { program with body := stripBody false [] program.body }
          (other.map fun branch => { branch with body := stripBody false [] branch.body })).1
        (stripBranches tag { program with body := stripBody false [] program.body }
          (other.map fun branch => { branch with body := stripBody false [] branch.body })).2] := by
  rw [stripBody, stripBody, stripNode_block]
  simp only [Node.edgesAt, Node.edges, Option.map_some, Option.getD_some]
  rw [stripStandalone_quiet (by simp [endsLine]) (by simp [startsLine])]

section Links

variable {n : Nat} {mark : Leaf Bool} {opening : OpeningTree} {body : List StatementTree}
  {pre post : List Piece} {closing : Strip} {tag : BlockTag} {program : Program}
  {names : List String} {span : Span}

theorem stripLink_alone (hopen : tag.openStrip.after = opening.close.value)
    (hclose : n = 0 → tag.closeStrip = closing)
    (hbody : BodyFits Quiet Quiet (.tag (.other n) ⟨mark.value, opening.close.value⟩ :: pre)
      (.tag (.closing (n + 1)) closing :: post) body (stripBody false [] program.body)) :
    InverseFits n (Heeds False (opening.close.value = true) False)
      (PendingClose n closing
        ((statementsPieces body).reverse
          ++ .tag (.other n) ⟨mark.value, opening.close.value⟩ :: pre)
        (.tag (.closing (n + 1)) closing :: post))
      pre (.tag (.closing (n + 1)) closing :: post) (.chain mark opening body none)
      ⟨stripBody false [] [.block tag program none], names, true, span⟩ := by
  rw [stripBody_link]
  refine .chain rfl ?_ .none
  simp only [otherPieces, List.nil_append]
  refine (stripBranches_alone _ _ hbody).mono (fun _ hasked => ?_) (fun _ hasked => ?_)
  · rw [hopen] at hasked
    exact hasked.mono False.elim id id
  · exact pendingClose_closing hasked (fun hzero hmay => by rw [← hclose hzero]; exact hmay)

theorem stripLink_both {t : InverseTree} {other : Program}
    (hopen : tag.openStrip.after = opening.close.value) (hinverse : tag.inverseStrip = t.strip)
    (hclose : n = 0 → tag.closeStrip = closing)
    (hbody : BodyFits Quiet Quiet (.tag (.other n) ⟨mark.value, opening.close.value⟩ :: pre)
      (t.pieces (n + 1) ++ post) body (stripBody false [] program.body))
    (hother : InverseFits (n + 1) (Heeds False (t.strip.after = true) False)
      (PendingClose (n + 1) closing
        ((statementsPieces t.body).reverse ++ .tag (.other (n + 1)) t.strip
          :: ((statementsPieces body).reverse
            ++ .tag (.other n) ⟨mark.value, opening.close.value⟩ :: pre))
        (otherPieces (n + 2) t.next ++ post))
      ((statementsPieces body).reverse ++ .tag (.other n) ⟨mark.value, opening.close.value⟩ :: pre)
      post t { other with body := stripBody false [] other.body }) :
    InverseFits n (Heeds False (opening.close.value = true) False)
      (PendingClose n closing
        ((statementsPieces body).reverse
          ++ .tag (.other n) ⟨mark.value, opening.close.value⟩ :: pre)
        (t.pieces (n + 1) ++ post))
      pre post (.chain mark opening body (some t))
      ⟨stripBody false [] [.block tag program (some other)], names, true, span⟩ := by
  rw [stripBody_link]
  -- The first link asks for the text behind the next `else` as the block itself does.
  obtain ⟨hprogram, hnext⟩ := stripBranches_both tag
    { program with body := stripBody false [] program.body } hbody hother hinverse
    (fun asked hasked => hasked tag.closeStrip.before (fun hle => by rw [hclose (by omega)]))
  refine .chain rfl (hprogram.mono (fun _ hasked => ?_) (fun _ hasked => pendingClose_other hasked))
    hnext
  rw [hopen] at hasked
  exact hasked.mono False.elim id id

end Links

/-! ### Blocks in their place -/

section Place

variable {mark : Leaf Bool} {opening : OpeningTree} {body : List StatementTree}
  {closing : ClosingTree} {root : Bool} {before after : List Node} {pre post : List Piece}
  {S E : List Bool → Prop}

/-- What a block asks of the text at its edges, where its tags stand alone. -/
theorem block_edgesAt (inverse : Option InverseTree)
    (hbefore : endsLine root before = true → EndsLine pre)
    (hafter : startsLine root after = true → StartsLine post) :
    ∃ e, (StatementTree.block mark opening body inverse closing).node.edgesAt root before after
        = some e ∧
      (e.openStandalone = true → ∀ outer,
        StandsAlone pre .opening (statementsPieces body ++ outer)) ∧
      (e.closeStandalone = true → otherCount inverse ≤ 1 → ∀ outer,
        StandsAlone ((otherPieces 0 inverse).reverse ++ ((statementsPieces body).reverse ++ outer))
          (.closing (otherCount inverse)) post) := by
  refine ⟨_, rfl, fun halone outer => ?_, fun halone hcount outer => ?_⟩
  · simp only [Bool.and_eq_true] at halone
    refine ⟨by simp, hbefore halone.2, ?_⟩
    exact startsLine_spells (spells_nodes body) (fun hroot => by cases hroot) halone.1
  · simp only [Bool.and_eq_true] at halone
    exact ⟨by simp, closing_endsLine rfl hcount halone.1, hafter halone.2⟩

theorem stripBlock_alone (hbefore : endsLine root before = true → EndsLine pre)
    (hafter : startsLine root after = true → StartsLine post)
    (hbody : BodyFits Quiet Quiet (.tag .opening ⟨mark.value, opening.close.value⟩ :: pre)
      (.tag (.closing 0) closing.strip :: post) body (stripBody false [] (nodesOf body))) :
    NodeFits S E pre post (.block mark opening body none closing)
      (stripNode root before (StatementTree.block mark opening body none closing).node after) := by
  obtain ⟨e, hedges, hopen, hclose⟩ := block_edgesAt none hbefore hafter
  rw [StatementTree.node] at hedges ⊢
  rw [stripNode_block, hedges, Option.getD_some]
  refine .block rfl rfl ?_ .none
  simp only [otherPieces, List.nil_append, otherCount] at hclose ⊢
  refine (((stripBranches_alone _ _ hbody).askFirst
    (fun _ hasked => hasked.askLine e.openStandalone)).askLast
    (fun _ hasked => hasked.askLine e.closeStandalone)).mono (fun _ hasked => ?_)
    (fun _ hasked => ?_)
  · exact hasked.mono id id (fun hline _ => hopen (hline.resolve_left id) _)
  · exact hasked.mono (·.2) (fun hmay _ => hmay)
      (fun hline => hclose (hline.resolve_left id) (Nat.zero_le 1) _)

/-- The lines of the tags of a block with an `else` are taken out. -/
theorem stripStandalone_both {t : InverseTree} {e : Edges} {tag : BlockTag}
    {branches : Program × Option Program} (htag : tag.openStrip.after = opening.close.value)
    (hopen : e.openStandalone = true → ∀ outer,
      StandsAlone pre .opening (statementsPieces body ++ outer))
    (hclose : e.closeStandalone = true → t.count ≤ 1 → ∀ outer,
      StandsAlone ((t.pieces 0).reverse ++ ((statementsPieces body).reverse ++ outer))
        (.closing t.count) post)
    (h : BodyFits (Heeds (tag.openStrip.after = true) (tag.openStrip.after = true) False)
        (EndAsks
          ((statementsPieces body).reverse ++ .tag .opening ⟨mark.value, opening.close.value⟩ :: pre)
          (t.pieces 0 ++ .tag (.closing t.count) closing.strip :: post))
        (.tag .opening ⟨mark.value, opening.close.value⟩ :: pre)
        (t.pieces 0 ++ .tag (.closing t.count) closing.strip :: post) body branches.1.body ∧
      OtherFits 0
        ((statementsPieces body).reverse ++ .tag .opening ⟨mark.value, opening.close.value⟩ :: pre)
        (.tag (.closing t.count) closing.strip :: post) (some t) branches.2) :
    NodeFits S E pre post (.block mark opening body (some t) closing)
      (.block tag (stripStandalone e branches).1 (stripStandalone e branches).2) := by
  obtain ⟨program, other⟩ := branches
  obtain ⟨hprogram, hother⟩ := h
  rw [htag] at hprogram
  -- The line of the opening tag ends in the body, that of the closing tag in the last branch.
  have hfirst := hprogram.askFirst (fun _ hasked => hasked.askLine e.openStandalone)
  cases hother with
  | some hbefore hafter hother =>
    subst hbefore
    subst hafter
    refine .block rfl rfl ?_ (.some rfl rfl (hother.lastLine fun hnext asked hasked => ?_))
    · exact hfirst.mono
        (fun _ hasked => hasked.mono id id (fun hline _ => hopen (hline.resolve_left id) _))
        (fun _ => id)
    · -- With no `else` behind it, the text stands before the tag that closes the block.
      have hcount : t.count = 1 := by rw [t.count_eq, hnext, otherCount]
      rw [hnext, otherPieces, List.nil_append] at hasked ⊢
      have hheeds : Heeds _ _ _ asked := hasked
      refine (hheeds.askLine e.closeStandalone).mono id id fun hline =>
        hline.elim id fun halone => ?_
      have hstands := hclose halone (by omega)
      rw [t.pieces_eq, hnext, otherPieces, List.append_nil] at hstands
      simpa using hstands _

theorem stripBlock_both {t : InverseTree} (hbefore : endsLine root before = true → EndsLine pre)
    (hafter : startsLine root after = true → StartsLine post)
    (hbody : BodyFits Quiet Quiet (.tag .opening ⟨mark.value, opening.close.value⟩ :: pre)
      (t.pieces 0 ++ .tag (.closing t.count) closing.strip :: post) body
      (stripBody false [] (nodesOf body)))
    (hother : InverseFits 0 (Heeds False (t.strip.after = true) False)
      (PendingClose 0 closing.strip
        ((statementsPieces t.body).reverse ++ .tag (.other 0) t.strip
          :: ((statementsPieces body).reverse
            ++ .tag .opening ⟨mark.value, opening.close.value⟩ :: pre))
        (otherPieces 1 t.next ++ .tag (.closing t.count) closing.strip :: post))
      ((statementsPieces body).reverse ++ .tag .opening ⟨mark.value, opening.close.value⟩ :: pre)
      (.tag (.closing t.count) closing.strip :: post) t
      { t.program closing.mark.span.start closing.strip with
        body := stripBody false [] (t.program closing.mark.span.start closing.strip).body }) :
    NodeFits S E pre post (.block mark opening body (some t) closing)
      (stripNode root before (StatementTree.block mark opening body (some t) closing).node
        after) := by
  -- The edges of the block say which of its tags stand alone; its branches know the tildes.
  obtain ⟨e, hedges, hopen, hclose⟩ := block_edgesAt (some t) hbefore hafter
  rw [StatementTree.node] at hedges ⊢
  rw [stripNode_block, hedges, Option.getD_some]
  simp only [otherOf, Option.map_some]
  rw [otherPieces, otherCount] at hclose
  exact stripStandalone_both rfl hopen hclose (stripBranches_both _ _ hbody hother (otherStrip_some t)
    (fun asked hasked => hasked closing.strip.before (fun _ => rfl)))

end Place

/-! ### Every statement -/

mutual

theorem stripNode_fits (t : StatementTree) {root : Bool} {before : List Node}
    {pre post : List Piece} (hbefore : Behind root before pre) (hpost : root = true → post = [])
    (ts : List StatementTree) :
    NodeFits (PendingStart before pre (t.pieces ++ (statementsPieces ts ++ post)))
      (PendingEnd ts (t.pieces.reverse ++ pre) post) pre (statementsPieces ts ++ post) t
      (stripNode root before t.node (nodesOf ts)) := by
  have hafter := startsLine_spells (spells_nodes ts) hpost
  match t with
  | .content text =>
    have htext := stripContent_fits hbefore hpost text ts
    rw [StatementTree.node, stripNode]
    simp only [StatementTree.pieces, List.singleton_append, List.reverse_singleton]
    exact .text htext
  | .comment text | .mustache mark call close | .unescaped mark call close
  | .partialCall mark call close =>
    unfold stripNode
    exact .tag (by simp [StatementTree.pieces]) (spells_node _)
      (by simp [StatementTree.node, Node.within])
  | .block mark opening body none closing =>
    refine stripBlock_alone hbefore.endsLine hafter ?_
    exact stripBody_fits body (.start (by simp)) (by simp)
  | .block mark opening body (some t) closing =>
    refine stripBlock_both hbefore.endsLine hafter ?_ ?_
    · exact stripBody_fits body (.start (by simp)) (by simp)
    · exact stripInverse_fits t 0 (fun _ => rfl) (Nat.zero_add _).symm

theorem stripBody_fits (ts : List StatementTree) {root : Bool} {before : List Node}
    {pre post : List Piece} (hbefore : Behind root before pre) (hpost : root = true → post = []) :
    BodyFits (PendingStart before pre (statementsPieces ts ++ post)) Quiet pre post ts
      (stripBody root before (nodesOf ts)) := by
  match ts with
  | [] =>
    rw [nodesOf, stripBody]
    exact .nil
  | [t] =>
    have hfirst := stripNode_fits t hbefore hpost []
    rw [nodesOf, nodesOf, stripBody, stripBody]
    simp only [statementsPieces, List.append_nil, List.nil_append] at hfirst ⊢
    exact .one hfirst
  | t :: t' :: ts =>
    have hfirst := stripNode_fits t hbefore hpost (t' :: ts)
    have hrest := stripBody_fits (t' :: ts) (hbefore.step t) hpost
    rw [nodesOf, stripBody]
    rw [nodesOf, stripBody] at hrest ⊢
    rw [statementsPieces, List.append_assoc]
    exact .cons hfirst hrest

theorem stripInverse_fits (t : InverseTree) (n : Nat) {stop : Nat} {close closing : Strip}
    {pre post : List Piece} {others : Nat} (hclose : n = 0 → close = closing)
    (hothers : others = n + t.count) :
    InverseFits n (Heeds False (t.strip.after = true) False)
      (PendingClose n closing
        ((statementsPieces t.body).reverse ++ .tag (.other n) t.strip :: pre)
        (otherPieces (n + 1) t.next ++ .tag (.closing others) closing :: post))
      pre (.tag (.closing others) closing :: post) t
      { t.program stop close with body := stripBody false [] (t.program stop close).body } := by
  match t with
  | .plain mark body =>
    have hbody : BodyFits Quiet Quiet (.tag (.other n) mark.value :: pre)
        (.tag (.closing others) closing :: post) body (stripBody false [] (nodesOf body)) :=
      stripBody_fits body (.start (by simp)) (by simp)
    rw [InverseTree.count] at hothers
    subst hothers
    simp only [InverseTree.program, InverseTree.strip, InverseTree.body, InverseTree.next,
      otherPieces, List.nil_append]
    refine .plain (hbody.mono (fun _ hasked => hasked.mono id False.elim id) (fun _ hasked => ?_))
    exact pendingClose_closing hasked (fun _ => False.elim)
  -- The last link: behind its body comes the closing tag of the chain.
  | .chain mark opening body none =>
    have hbody : BodyFits Quiet Quiet (.tag (.other n) ⟨mark.value, opening.close.value⟩ :: pre)
        (.tag (.closing others) closing :: post) body (stripBody false [] (nodesOf body)) :=
      stripBody_fits body (.start (by simp)) (by simp)
    rw [InverseTree.count, otherCount, Nat.zero_add] at hothers
    subst hothers
    exact stripLink_alone rfl hclose hbody
  | .chain mark opening body (some t) =>
    have hbody : BodyFits Quiet Quiet (.tag (.other n) ⟨mark.value, opening.close.value⟩ :: pre)
        (t.pieces (n + 1) ++ .tag (.closing others) closing :: post) body
        (stripBody false [] (nodesOf body)) :=
      stripBody_fits body (.start (by simp)) (by simp)
    rw [InverseTree.count, otherCount] at hothers
    refine stripLink_both rfl (otherStrip_some t) hclose hbody ?_
    exact stripInverse_fits t (n + 1) (fun hzero => absurd hzero (Nat.succ_ne_zero n)) (by omega)

end

/-! ### Runs in their places -/

/-- The text of a statement that is a run. -/
def Node.run? : Node → Option Content
  | .content c => some c
  | _ => none

/-- The runs of text in statements, as they follow each other. -/
def runs (ns : List Node) : List Content := (nodesWithin ns).filterMap Node.run?

theorem runs_cons (n : Node) (ns : List Node) : runs (n :: ns) = runs [n] ++ runs ns := by
  simp [runs, nodesWithin]

theorem runs_block (tag : BlockTag) (program : Program) (other : Option Program) :
    runs [.block tag program other] = runs program.body ++ runs ((other.map (·.body)).getD []) := by
  have hblock : (Node.block tag program other).run? = none := rfl
  cases other <;>
    simp [runs, nodesWithin, Node.within, hblock, programWithin_eq, otherWithin]

/-- A run of text of a source, with the pieces before it, the nearest first, and
those after it. -/
structure TextPlace where
  before : List Piece
  value : String
  span : Span
  after : List Piece

/-- The runs of text among some pieces. -/
def textPlaces (before after : List Piece) : List Piece → List TextPlace
  | [] => []
  | .text value span :: rest =>
    ⟨before, value, span, rest ++ after⟩ :: textPlaces (.text value span :: before) after rest
  | .tag kind strip :: rest => textPlaces (.tag kind strip :: before) after rest

theorem textPlaces_append (before after ps qs : List Piece) :
    textPlaces before after (ps ++ qs)
      = textPlaces before (qs ++ after) ps ++ textPlaces (ps.reverse ++ before) after qs := by
  induction ps generalizing before with
  | nil => rfl
  | cons p ps ih => cases p <;> simp [textPlaces, ih]

/-- What a run may have lost at its start: `front`, with `value` left.  `after`
begins with the run. -/
def StartObeys (before after : List Piece) (front value : List Char) : Prop :=
  match before with
  | .tag kind strip :: earlier =>
    (strip.after = true → ∀ x ∈ value.head?, Text.isBlank x = false) ∧
    (strip.after = false → front = [] ∨
      (IsLineStart front ∧ (kind.SeesLine → StandsAlone earlier kind after)))
  | _ => front = []

/-- What a run may have lost at its end: `back`, with `value` left.  `before` begins
with the run. -/
def EndObeys (before after : List Piece) (value back : List Char) : Prop :=
  match after with
  | .tag kind strip :: later =>
    (kind.StripsBefore → strip.before = true → ∀ x ∈ value.getLast?, Text.isBlank x = false) ∧
    (kind.AloneStripsBefore → strip.before = false → back = [] ∨
      ((∀ x ∈ back, isIndent x = true) ∧ StandsAlone before kind later))
  | _ => back = []

/-- A run of a program is the text of its place, without what the tags beside it
strip. -/
structure TextPlace.Obeys (place : TextPlace) (c : Content) : Prop where
  written : c.written = place.value.toList
  span : c.span = place.span
  kept : ∃ front back, c.written = front ++ c.value ++ back ∧
    c.valueStart = c.span.start + Text.byteLength front ∧
    (∀ x ∈ front, Text.isBlank x = true) ∧ (∀ x ∈ back, Text.isBlank x = true) ∧
    StartObeys place.before (.text place.value place.span :: place.after) front c.value ∧
    EndObeys (.text place.value place.span :: place.before) place.after c.value back

section Obeys

variable {before after : List Piece} {value : String} {span : Span} {c : Content}
  {starts ends : List Bool} {front back : List Char}

theorem startObeys (h : c.Trims starts ends front back) (hasked : StartAsks before after starts) :
    StartObeys before after front c.value := by
  have hquiet : Quiet starts → front = [] := by
    intro hquiet
    rcases h.startLine hquiet.tilde with hfront | ⟨-, -, hone⟩
    · exact hfront
    · exact (hquiet.line hone).elim
  match before with
  | [] | .text value span :: earlier => exact hquiet hasked
  | .tag kind strip :: earlier =>
    have hheeds : Heeds _ _ _ starts := hasked
    refine ⟨fun htilde => h.startAll (hheeds.all htilde), fun hplain => ?_⟩
    have hnone : true ∉ starts := by
      intro hmem
      rw [hheeds.tilde hmem] at hplain
      cases hplain
    rcases h.startLine hnone with hfront | ⟨-, hline, hone⟩
    · exact .inl hfront
    · exact .inr ⟨hline, hheeds.line hone⟩

theorem endObeys (h : c.Trims starts ends front back) (hasked : EndAsks before after ends) :
    EndObeys before after c.value back := by
  have hquiet : Quiet ends → back = [] := by
    intro hquiet
    rcases h.endLine hquiet.tilde with hback | ⟨-, -, hone⟩
    · exact hback
    · exact (hquiet.line hone).elim
  match after with
  | [] | .text value span :: later => exact hquiet hasked
  | .tag kind strip :: later =>
    have hheeds : Heeds _ _ _ ends := hasked
    refine ⟨fun hkind htilde => h.endAll (hheeds.all ⟨hkind, htilde⟩), fun hkind hplain => ?_⟩
    have hnone : true ∉ ends := by
      intro hmem
      rw [hheeds.tilde hmem hkind] at hplain
      cases hplain
    rcases h.endLine hnone with hback | ⟨-, hindent, hone⟩
    · exact .inl hback
    · exact .inr ⟨hindent, hheeds.line hone⟩

theorem TextFits.obeys (h : TextFits (StartAsks before (.text value span :: after))
    (EndAsks (.text value span :: before) after) value span c) :
    TextPlace.Obeys ⟨before, value, span, after⟩ c := by
  obtain ⟨starts, ends, front, back, htrims, hstarts, hends⟩ := h.trims
  exact ⟨h.written, h.span, front, back, htrims.written, htrims.start, htrims.front_blank,
    htrims.back_blank, startObeys htrims hstarts, endObeys htrims hends⟩

end Obeys

/-- A statement without text has no runs. -/
theorem tag_obeys {t : StatementTree} {n : Node} {pre post : List Piece}
    (hpieces : ∀ p ∈ t.pieces, ∃ kind strip, p = .tag kind strip) (hspells : Spells t n)
    (hwithin : n.within = [n]) :
    List.Forall₂ TextPlace.Obeys (textPlaces pre post t.pieces) (runs [n]) := by
  have hplaces : ∀ (ps pre : List Piece), (∀ p ∈ ps, ∃ kind strip, p = .tag kind strip) →
      textPlaces pre post ps = [] := by
    intro ps
    induction ps with
    | nil => exact fun _ _ => rfl
    | cons p ps ih =>
      intro pre hps
      obtain ⟨⟨kind, strip, rfl⟩, hrest⟩ := List.forall_mem_cons.mp hps
      exact ih _ hrest
  have hruns : runs [n] = [] := by
    cases hspells with
    | text _ =>
      obtain ⟨kind, strip, htag⟩ := hpieces _
        (by rw [StatementTree.pieces]; exact List.mem_cons_self)
      cases htag
    | tag _ hn =>
      cases n with
      | content c => exact absurd rfl (hn c)
      | _ => simp [runs, nodesWithin, hwithin, Node.run?]
  rw [hplaces _ _ hpieces, hruns]
  exact .nil

mutual

theorem node_obeys (t : StatementTree) {n : Node} {pre post : List Piece}
    (h : NodeFits (StartAsks pre (t.pieces ++ post)) (EndAsks (t.pieces.reverse ++ pre) post) pre
      post t n) :
    List.Forall₂ TextPlace.Obeys (textPlaces pre post t.pieces) (runs [n]) := by
  match t with
  | .content text =>
    cases h with
    | text htext =>
      rw [StatementTree.pieces] at htext ⊢
      exact .cons htext.obeys .nil
    | tag hpieces hspells hwithin => exact tag_obeys hpieces hspells hwithin
  | .comment text | .mustache mark call close | .unescaped mark call close
  | .partialCall mark call close =>
    cases h with
    | tag hpieces hspells hwithin => exact tag_obeys hpieces hspells hwithin
  | .block mark opening body inverse closing =>
    cases h with
    | tag hpieces hspells hwithin => exact tag_obeys hpieces hspells hwithin
    | block hbefore hafter hbody hother =>
      subst hbefore
      subst hafter
      -- The places of text in a block are those in its body and those in its branches.
      have hprogram := body_obeys body hbody
      have hrest := other_obeys inverse hother
      rw [StatementTree.pieces, textPlaces, textPlaces_append, textPlaces_append, runs_block]
      refine List.rel_append ?_ ?_
      · simpa using hprogram
      · simpa [textPlaces] using hrest

theorem body_obeys (ts : List StatementTree) {ns : List Node} {pre post : List Piece}
    (h : BodyFits (StartAsks pre (statementsPieces ts ++ post))
      (EndAsks ((statementsPieces ts).reverse ++ pre) post) pre post ts ns) :
    List.Forall₂ TextPlace.Obeys (textPlaces pre post (statementsPieces ts)) (runs ns) := by
  match ts with
  | [] =>
    cases h
    simp [statementsPieces, textPlaces, runs, nodesWithin]
  | [t] =>
    cases h with
    | one h =>
      simp only [statementsPieces, List.append_nil] at h ⊢
      exact node_obeys t h
  | t :: t' :: ts =>
    cases h with
    | cons h hrest =>
      have hreverse : (statementsPieces (t :: t' :: ts)).reverse ++ pre
          = (statementsPieces (t' :: ts)).reverse ++ (t.pieces.reverse ++ pre) := by
        simp [statementsPieces]
      rw [statementsPieces, List.append_assoc] at h
      rw [hreverse] at hrest
      rw [statementsPieces, textPlaces_append, runs_cons]
      exact List.rel_append (node_obeys t h) (body_obeys (t' :: ts) hrest)

theorem inverse_obeys (t : InverseTree) {n : Nat} {p : Program} {pre post : List Piece}
    (h : InverseFits n
      (StartAsks (.tag (.other n) t.strip :: pre)
        (statementsPieces t.body ++ (otherPieces (n + 1) t.next ++ post)))
      (EndAsks ((statementsPieces t.body).reverse ++ .tag (.other n) t.strip :: pre)
        (otherPieces (n + 1) t.next ++ post)) pre post t p) :
    List.Forall₂ TextPlace.Obeys (textPlaces pre post (t.pieces n)) (runs p.body) := by
  match t with
  | .plain mark body =>
    cases h with
    | plain hbody =>
      simp only [InverseTree.next, otherPieces, List.nil_append] at hbody
      rw [InverseTree.pieces, textPlaces]
      exact body_obeys body hbody
  | .chain mark opening body inverse =>
    cases h with
    | chain hbefore hbody hother =>
      subst hbefore
      have hprogram := body_obeys body hbody
      have hrest := other_obeys inverse hother
      rw [InverseTree.pieces, textPlaces, textPlaces_append, runs_block]
      exact List.rel_append hprogram hrest

theorem other_obeys (t : Option InverseTree) {n : Nat} {p : Option Program} {pre post : List Piece}
    (h : OtherFits n pre post t p) :
    List.Forall₂ TextPlace.Obeys (textPlaces pre post (otherPieces n t))
      (runs ((p.map (·.body)).getD [])) := by
  match t with
  | none =>
    cases h
    simp [otherPieces, textPlaces, runs, nodesWithin]
  | some t =>
    cases h with
    | some hbefore hafter h =>
      subst hbefore
      subst hafter
      rw [otherPieces]
      exact inverse_obeys t h

end

/-- Whitespace control strips each run of text as the tags beside it in the source
say.  A tag with a tilde on the side of the run takes all blanks there; one without
a tilde takes nothing, unless it stands alone on its line.  The `else` tags after the
first of a block and the tag that closes a block with several of them are excepted
as their kinds say. -/
theorem stripProgram_heeds_tildes {source : String} {p : Program}
    (h : parseProgram (lex source) = .ok p) :
    List.Forall₂ TextPlace.Obeys (textPlaces [] [] (pieces [] (lex source)))
      (runs (stripProgram p).body) := by
  obtain ⟨t, htokens, -, rfl⟩ := parseProgram_sound (lex_ends source) h
  rw [← htokens, pieces_root]
  have hbehind : Behind true [] [] := .start fun _ => rfl
  exact body_obeys t.body (stripBody_fits t.body hbehind fun _ => rfl)

/-- A value with a tilde before it. -/
def tightValue : Program :=
  { body := [.content (.ofText "a " ⟨0, 2⟩),
      .mustache ⟨⟨.path ⟨.var "b", [], "b", ⟨5, 6⟩⟩, [], ⟨[], ⟨6, 6⟩⟩⟩, false, ⟨true, false⟩,
        ⟨2, 8⟩⟩,
      .content (.ofText " c" ⟨8, 10⟩)]
    span := ⟨0, 10⟩ }

theorem stripProgram_heeds_tildes_tightValue :
    parseProgram (lex "a \x7b\x7b~b\x7d\x7d c") = .ok tightValue ∧
      ∃ first second, runs (stripProgram tightValue).body = [first, second] ∧
        (∀ x ∈ first.value.getLast?, Text.isBlank x = false) ∧ second.value = second.written := by
  have hlex : lex "a \x7b\x7b~b\x7d\x7d c"
      = [⟨.content "a ", ⟨0, 2⟩⟩, ⟨.open true false, ⟨2, 5⟩⟩, ⟨.id "b", ⟨5, 6⟩⟩,
          ⟨.close false, ⟨6, 8⟩⟩, ⟨.content " c", ⟨8, 10⟩⟩, ⟨.eof, ⟨10, 10⟩⟩] := by decide +kernel
  have hparse : parseProgram (lex "a \x7b\x7b~b\x7d\x7d c") = .ok tightValue := by
    rw [hlex]
    rfl
  -- Two runs of text, one on each side of the tag.
  have hplaces : textPlaces [] [] (pieces [] (lex "a \x7b\x7b~b\x7d\x7d c"))
      = [⟨[], "a ", ⟨0, 2⟩, [.tag .value ⟨true, false⟩, .text " c" ⟨8, 10⟩]⟩,
          ⟨[.tag .value ⟨true, false⟩, .text "a " ⟨0, 2⟩], " c", ⟨8, 10⟩, []⟩] := by
    rw [hlex]
    rfl
  have hobeys := stripProgram_heeds_tildes hparse
  rw [hplaces] at hobeys
  obtain ⟨first, rest, hfirst, hrest, heq⟩ := List.forall₂_cons_left_iff.mp hobeys
  obtain ⟨second, more, hsecond, hmore, rfl⟩ := List.forall₂_cons_left_iff.mp hrest
  obtain rfl := List.forall₂_nil_left_iff.mp hmore
  refine ⟨hparse, first, second, heq, ?_, ?_⟩
  · obtain ⟨front, back, -, -, -, -, -, hend⟩ := hfirst.kept
    exact hend.1 trivial rfl
  · -- The tag has no tilde after it, and one that writes a value never stands alone.
    obtain ⟨front, back, hwritten, -, -, -, hstart, hend⟩ := hsecond.kept
    have hback : back = [] := hend
    have hfront : front = [] := by
      rcases hstart.2 rfl with hnone | ⟨-, halone⟩
      · exact hnone
      · exact absurd rfl (halone trivial).kind
    rw [hwritten, hfront, hback, List.nil_append, List.append_nil]

/-- A chain whose last tag has a tilde before it. -/
def tightChain : String :=
  "\x7b\x7b#if a\x7d\x7dA\x7b\x7belse if b\x7d\x7dB \x7b\x7belse if c\x7d\x7dC\x7b\x7b~/if\x7d\x7d"

/-- The tilde of the tag that closes a block also strips the text before its second
`else`, which has no tilde and does not stand alone. -/
theorem stripProgram_strips_before_other :
    pieces [] (lex tightChain)
      = [.tag .opening {}, .text "A" ⟨9, 10⟩, .tag (.other 0) {}, .text "B " ⟨23, 25⟩,
          .tag (.other 1) {}, .text "C" ⟨38, 39⟩, .tag (.closing 2) ⟨true, false⟩] ∧
    ¬ StandsAlone [.text "B " ⟨23, 25⟩, .tag (.other 0) {}, .text "A" ⟨9, 10⟩, .tag .opening {}]
      (.other 1) [.text "C" ⟨38, 39⟩, .tag (.closing 2) ⟨true, false⟩] ∧
    (parseProgram (lex tightChain)).toOption.map
      (fun p => (runs (stripProgram p).body).map (·.value))
      = some [['A'], ['B'], ['C']] := by
  have hlex : lex tightChain
      = [⟨.openBlock false, ⟨0, 3⟩⟩, ⟨.id "if", ⟨3, 5⟩⟩, ⟨.id "a", ⟨6, 7⟩⟩, ⟨.close false, ⟨7, 9⟩⟩,
          ⟨.content "A", ⟨9, 10⟩⟩, ⟨.openInverseChain false, ⟨10, 16⟩⟩, ⟨.id "if", ⟨17, 19⟩⟩,
          ⟨.id "b", ⟨20, 21⟩⟩, ⟨.close false, ⟨21, 23⟩⟩, ⟨.content "B ", ⟨23, 25⟩⟩,
          ⟨.openInverseChain false, ⟨25, 31⟩⟩, ⟨.id "if", ⟨32, 34⟩⟩, ⟨.id "c", ⟨35, 36⟩⟩,
          ⟨.close false, ⟨36, 38⟩⟩, ⟨.content "C", ⟨38, 39⟩⟩, ⟨.openEndBlock true, ⟨39, 43⟩⟩,
          ⟨.id "if", ⟨43, 45⟩⟩, ⟨.close false, ⟨45, 47⟩⟩, ⟨.eof, ⟨47, 47⟩⟩] := by decide +kernel
  rw [hlex]
  refine ⟨rfl, fun halone => ?_, rfl⟩
  rcases halone.after with ⟨blanks, tail, hvalue, -⟩ | ⟨hnone, -⟩
  · have hmem : '\n' ∈ ['C'] := by
      show '\n' ∈ "C".toList
      rw [hvalue]
      simp
    exact absurd hmem (by decide)
  · cases hnone

end TemplateCompiler.Mustache
