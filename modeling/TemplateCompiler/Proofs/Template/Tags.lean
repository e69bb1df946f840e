/-
Where the tags of a program go.

Every tag in braces of a program comes into the tree once — as a statement, a
modifier, an attribute value or a part of one, or a comment of an element —
unless it is hidden or lost.

* `Mustache.nodesTags` — the tags of a program;
* `Ledger` — what is hidden in comments of the markup, and the tags that are
  lost;
* `nodesLedger` — the ledger of a run of the builder;
* `nodes_balance` — a run keeps all tags but those in its ledger;
* `parse_tags` — so does the parser, and a tag that is hidden stands in the text
  of a comment.

Three things lose tags.  A tag that stands in an end tag has no place to go to;
of a value without quotes that goes on after a slash only the first part is
kept; and the attributes that spell block parameters are dropped with their
values.
-/
import TemplateCompiler.Proofs.Mustache.Stripping
import TemplateCompiler.Proofs.Template.Items
import TemplateCompiler.Proofs.Template.Runs
import TemplateCompiler.Template.Parse

namespace TemplateCompiler.Mustache

open Template (Tag)

/-! ### The tags of a program -/

/-- The tag that a statement is; text is none. -/
def Node.tag : Node → Multiset Tag
  | .content _ => 0
  | .comment value _ span => {.comment ⟨value, span⟩}
  | .mustache m => {.mustache m.call m.span}
  | .partialCall p => {.partialCall p}
  | .block tag _ _ => {.block tag}

/-- The tags of statements, at any depth. -/
def nodesTags (body : List Node) : Multiset Tag := ((nodesWithin body).map Node.tag).sum

theorem nodesTags_cons (n : Node) (rest : List Node) :
    nodesTags (n :: rest) = nodesTags [n] + nodesTags rest := by
  simp [nodesTags, nodesWithin]

theorem nodesTags_block (tag : Template.BlockTag) (program : Program) (other : Option Program) :
    nodesTags [.block tag program other]
      = {.block tag} + nodesTags program.body + ((other.map (·.body)).map nodesTags).getD 0 := by
  cases other with
  | none => simp [nodesTags, nodesWithin, Node.within, otherWithin, Node.tag, programWithin_eq]
  | some other =>
    simp [nodesTags, nodesWithin, Node.within, otherWithin, Node.tag, programWithin_eq]

mutual

theorem Node.StripsTo.tags {n n' : Node} :
    n.StripsTo n' → n'.within.map Node.tag = n.within.map Node.tag
  | .content _ => rfl
  | .comment => rfl
  | .mustache => rfl
  | .partialCall => rfl
  | .block hprogram hother => by
    simp only [Node.within, List.map_cons, List.map_append, Node.tag, hprogram.tags, hother.tags]

theorem NodesStripTo.tags {body body' : List Node} :
    NodesStripTo body body' →
      (nodesWithin body').map Node.tag = (nodesWithin body).map Node.tag
  | .nil => rfl
  | .cons hfirst hrest => by
    simp only [nodesWithin, List.map_append, hfirst.tags, hrest.tags]

theorem ProgramStripsTo.tags {program program' : Program} :
    ProgramStripsTo program program' →
      (programWithin program').map Node.tag = (programWithin program).map Node.tag
  | .mk hbody => by
    simp only [programWithin_eq, hbody.tags]

theorem OtherStripsTo.tags {other other' : Option Program} :
    OtherStripsTo other other' →
      (otherWithin other').map Node.tag = (otherWithin other).map Node.tag
  | .none => rfl
  | .some hprogram => by
    simp only [otherWithin, hprogram.tags]

end

/-- Whitespace control keeps all tags. -/
theorem stripProgram_tags (program : Program) :
    nodesTags (stripProgram program).body = nodesTags program.body := by
  have htags := (stripProgram_stripsTo program).tags
  rw [programWithin_eq, programWithin_eq] at htags
  rw [nodesTags, htags, nodesTags]

/-- The bytes that a statement stands for. -/
def Node.span : Node → Span
  | .content c => c.span
  | .comment _ _ span => span
  | .mustache m => m.span
  | .partialCall p => p.span
  | .block tag _ _ => tag.span

end TemplateCompiler.Mustache

namespace TemplateCompiler.Template

open Markup (Event Region)
open Mustache (Node Content Program nodesTags)

/-! ### Ledgers -/

/-- The statements that are hidden in comments of the markup, each with all that
is in it, and the tags that are lost. -/
@[ext] structure Ledger where
  hidden : Multiset Node := 0
  lost : Multiset Tag := 0

namespace Ledger

instance : Zero Ledger := ⟨{}⟩

instance : Add Ledger := ⟨fun a b => ⟨a.hidden + b.hidden, a.lost + b.lost⟩⟩

@[simp] theorem hidden_zero : (0 : Ledger).hidden = 0 := rfl

@[simp] theorem lost_zero : (0 : Ledger).lost = 0 := rfl

@[simp] theorem hidden_add (a b : Ledger) : (a + b).hidden = a.hidden + b.hidden := rfl

@[simp] theorem lost_add (a b : Ledger) : (a + b).lost = a.lost + b.lost := rfl

theorem zero_add (l : Ledger) : 0 + l = l := by
  ext1 <;> simp

theorem add_zero (l : Ledger) : l + 0 = l := by
  ext1 <;> simp

/-- The tags of the hidden statements. -/
def hiddenTags (l : Ledger) : Multiset Tag := (l.hidden.map fun n => nodesTags [n]).sum

@[simp] theorem hiddenTags_add (a b : Ledger) :
    (a + b).hiddenTags = a.hiddenTags + b.hiddenTags := by
  simp [hiddenTags]

end Ledger

namespace Builder

/-- Whether a tag in braces would stand among the parts of an end tag. -/
def inEndTag (b : Builder) : Bool :=
  match b.tag, b.machine.state with
  | some (.closing _ _), .beforeAttributeName | some (.closing _ _), .afterAttributeName
  | some (.closing _ _), .afterAttributeValueQuoted => true
  | _, _ => false

/-- The ledger of a single tag. -/
def tagLedger (b : Builder) (n : Node) : Ledger :=
  if b.machine.state.isComment then { hidden := {n} }
  else if b.inEndTag then { lost := n.tag }
  else 0

/-- The ledger of a run of text. -/
def contentLedger (source : Source) (b : Builder) (c : Content) : Ledger :=
  let (machine, read) := (b.machine.moveTo c.valueStart).read c.value
  let (machine, flushed) := machine.flush
  { lost := lostByAll source { b with machine } (read ++ flushed) }

mutual

/-- The ledger of a statement. -/
def nodeLedger (source : Source) (b : Builder) : Node → Ledger
  | .content c => b.contentLedger source c
  | .block tag ⟨body, names, chained, span⟩ other =>
    if b.machine.state.isComment then
      { hidden := {.block tag ⟨body, names, chained, span⟩ other} }
    else
      nodesLedger source (b.push (.block [])) body
        + match other, b.program source ⟨body, names, chained, span⟩ with
          | some ⟨otherBody, _, _, _⟩, .ok (_, b₁) =>
            nodesLedger source (b₁.push (.block [])) otherBody
          | _, _ => 0
  | n => b.tagLedger n
  termination_by structural n => n

/-- The ledger of statements, one after the other. -/
def nodesLedger (source : Source) (b : Builder) : List Node → Ledger
  | [] => 0
  | n :: rest =>
    nodeLedger source b n
      + match b.node source n with
        | .ok b₁ => nodesLedger source b₁ rest
        | .error _ => 0
  termination_by structural ns => ns

end

theorem tagLedger_hidden {b : Builder} {n hidden : Node} (h : hidden ∈ (b.tagLedger n).hidden) :
    hidden = n := by
  rw [tagLedger] at h
  split at h
  · exact Multiset.mem_singleton.mp h
  · split at h
    · exact absurd h (Multiset.notMem_zero _)
    · exact absurd h (Multiset.notMem_zero _)

mutual

/-- What is hidden are statements of the program. -/
theorem nodeLedger_hidden {source : Source} {hidden : Node} (n : Node) {b : Builder}
    (h : hidden ∈ (nodeLedger source b n).hidden) : hidden ∈ n.within := by
  match n with
  | .content c =>
    rw [nodeLedger] at h
    exact absurd h (Multiset.notMem_zero _)
  | .comment value strip span =>
    rw [nodeLedger] at h
    · simp [tagLedger_hidden h, Node.within]
    all_goals simp
  | .mustache m =>
    rw [nodeLedger] at h
    · simp [tagLedger_hidden h, Node.within]
    all_goals simp
  | .partialCall p =>
    rw [nodeLedger] at h
    · simp [tagLedger_hidden h, Node.within]
    all_goals simp
  | .block tag ⟨body, names, chained, span⟩ other =>
    unfold nodeLedger at h
    simp only [Node.within, Mustache.programWithin, List.mem_cons, List.mem_append]
    split at h
    · exact .inl (Multiset.mem_singleton.mp h)
    -- The ledger of an `else` is kept only if the program before it was built.
    rcases Multiset.mem_add.mp h with h | h
    · exact .inr (.inl (nodesLedger_hidden body h))
    · match other with
      | none => exact absurd h (Multiset.notMem_zero _)
      | some ⟨otherBody, otherNames, otherChained, otherSpan⟩ =>
        cases hprogram : b.program source ⟨body, names, chained, span⟩ with
        | error fault =>
          rw [hprogram] at h
          exact absurd h (Multiset.notMem_zero _)
        | ok result =>
          rw [hprogram] at h
          simp only [Mustache.otherWithin, Mustache.programWithin]
          exact .inr (.inr (nodesLedger_hidden otherBody h))

theorem nodesLedger_hidden {source : Source} {hidden : Node} (ns : List Node) {b : Builder}
    (h : hidden ∈ (nodesLedger source b ns).hidden) : hidden ∈ Mustache.nodesWithin ns := by
  match ns with
  | [] =>
    rw [nodesLedger] at h
    exact absurd h (Multiset.notMem_zero _)
  | n :: rest =>
    rw [nodesLedger] at h
    simp only [Mustache.nodesWithin, List.mem_append]
    rcases Multiset.mem_add.mp h with h | h
    · exact .inl (nodeLedger_hidden n h)
    · split at h
      · exact .inr (nodesLedger_hidden rest h)
      · exact absurd h (Multiset.notMem_zero _)

end

/-! ### Texts of comments -/

/-- A text is part of a comment of the markup, or of the one that is being read. -/
def Quotes (b : Builder) (text : List Char) : Prop :=
  ∃ c : Comment, (Item.comment c ∈ b.items ∨ b.comment = some c) ∧ text <:+: c.value.toList

variable {source : Source} {base : List Frame} {b b' : Builder}

/-- Events keep the texts of comments. -/
theorem observe_quotes {r r' : Region} {e : Event} {text : List Char} (hin : Inside base r b)
    (hlead : Event.leadsTo? r e = some r') (h : b.observe source e = .ok b')
    (hquotes : b.Quotes text) : b'.Quotes text := by
  have hitems := (observe_inside hin hlead h).2
  have hold : ∀ c, Item.comment c ∈ b.items + b.gainedBy e → Item.comment c ∈ b'.items := by
    intro c hc
    rw [← hitems] at hc
    rcases Multiset.mem_add.mp hc with hc | hc
    · exact hc
    · obtain ⟨t, -, ht⟩ := Multiset.mem_map.mp hc
      cases ht
  obtain ⟨c, hc | hc, htext⟩ := hquotes
  · exact ⟨c, .inl (hold c (Multiset.mem_add.mpr (.inl hc))), htext⟩
  -- The comment that is being read goes on, or is completed.
  cases r with
  | comment =>
    cases e <;> cases hlead
    · next x =>
      cases h
      refine ⟨{ c with value := c.value.push x }, .inr (by simp [hc]), ?_⟩
      rw [String.toList_push]
      exact htext.trans (List.prefix_append _ _).isInfix
    · next pos =>
      refine ⟨{ c with span := ⟨c.span.start, pos⟩ }, .inl (hold _ ?_), htext⟩
      simp [gainedBy, hc]
  | text => exact absurd (hc.symm.trans hin.reads.2.2) (by simp)
  | tag => exact absurd (hc.symm.trans hin.reads.2.2) (by simp)
  | name => exact absurd (hc.symm.trans hin.reads.2.2) (by simp)
  | value => exact absurd (hc.symm.trans hin.reads.2.2) (by simp)

theorem observeAll_quotes {r r' : Region} {events : List Event} {text : List Char}
    (hin : Inside base r b) (hlead : Markup.leadTo? r events = some r')
    (h : b.observeAll source events = .ok b') (hquotes : b.Quotes text) : b'.Quotes text :=
  (observeAll_induction (fun _ => observe_quotes) hin hlead h hquotes).2

theorem finishAttr_leaves {pos : Nat} (h : b.finishAttr pos = .ok b') :
    b'.machine = b.machine ∧ b'.frames = b.frames := by
  cases finishAttr_runs h with
  | absent => exact ⟨rfl, rfl⟩
  | dropped => exact ⟨rfl, rfl⟩
  | joined => exact ⟨rfl, rfl⟩

/-- An attribute without a value is completed where a modifier stands. -/
theorem emptyValue_leaves {pos : Nat}
    (h : b.observeAll source [.beginAttributeValue false pos, .finishAttributeValue pos]
      = .ok b') : b'.machine = b.machine ∧ b'.frames = b.frames := by
  obtain ⟨b₁, hbegin, h⟩ := observeAll_cons.mp h
  obtain ⟨b₂, hfinish, hend⟩ := observeAll_cons.mp h
  cases hbegin
  cases hend
  have hleaves := finishAttr_leaves hfinish
  exact hleaves

theorem finishTag_machine {pos : Nat} (h : b.finishTag source pos = .ok b') :
    b'.machine = b.machine := by
  cases finishTag_runs h with
  | absent => rfl
  | complete => exact append_machine _ _
  | opened => rfl
  | closed => exact append_machine _ _

/-- Events leave the reader as it is. -/
theorem observe_machine {e : Event} (h : b.observe source e = .ok b') :
    b'.machine = b.machine := by
  cases e
  case finishData pos =>
    simp only [observe] at h
    split at h <;> cases h
    · exact append_machine _ _
    · rfl
  case finishComment pos =>
    simp only [observe] at h
    split at h <;> cases h
    · exact append_machine _ _
    · rfl
  case finishTag pos => exact finishTag_machine h
  case finishAttributeValue pos => exact (finishAttr_leaves h).1
  all_goals
    cases h
    rfl

theorem observeAll_machine {events : List Event} (h : b.observeAll source events = .ok b') :
    b'.machine = b.machine := by
  induction events generalizing b with
  | nil =>
    cases h
    rfl
  | cons e rest ih =>
    obtain ⟨b₁, h₁, h⟩ := observeAll_cons.mp h
    exact (ih h).trans (observe_machine h₁)

/-! ### Balance -/

/-- The region in which a builder stands between two statements. -/
def region (b : Builder) : Region := b.machine.state.region

/-- What a run comes to that is given some tags: the tree has them all but those
in the ledger, and what is hidden stands in the text of a comment. -/
structure Balance (source : Source) (b b' : Builder) (given : Multiset Tag) (l : Ledger) :
    Prop where
  tags : b'.tags + l.hiddenTags + l.lost = b.tags + given
  quotes : ∀ text, b.Quotes text → b'.Quotes text
  hidden : ∀ n ∈ l.hidden, b'.Quotes (source.slice n.span).toList

/-- Two runs, one after the other. -/
theorem Balance.seq {b₁ b₂ b₃ : Builder} {g₁ g₂ : Multiset Tag} {l₁ l₂ : Ledger}
    (h₁ : Balance source b₁ b₂ g₁ l₁) (h₂ : Balance source b₂ b₃ g₂ l₂) :
    Balance source b₁ b₃ (g₁ + g₂) (l₁ + l₂) where
  tags := by
    rw [← add_assoc, ← h₁.tags, Ledger.hiddenTags_add, Ledger.lost_add]
    calc b₃.tags + (l₁.hiddenTags + l₂.hiddenTags) + (l₁.lost + l₂.lost)
        = (b₃.tags + l₂.hiddenTags + l₂.lost) + l₁.hiddenTags + l₁.lost := by abel
      _ = (b₂.tags + g₂) + l₁.hiddenTags + l₁.lost := by rw [h₂.tags]
      _ = b₂.tags + l₁.hiddenTags + l₁.lost + g₂ := by abel
  quotes text h := h₂.quotes text (h₁.quotes text h)
  hidden n hn := by
    rcases Multiset.mem_add.mp hn with hn | hn
    · exact h₂.quotes _ (h₁.hidden n hn)
    · exact h₂.hidden n hn

/-- A run that hides and loses nothing. -/
theorem Balance.of_items {given : Multiset Tag} (hitems : b'.items = b.items + given.map .tag)
    (hcomment : b'.comment = b.comment) : Balance source b b' given 0 where
  tags := by
    simp only [Builder.tags, hitems, Multiset.filterMap_add, filterMap_tag, Ledger.hiddenTags,
      Ledger.hidden_zero, Ledger.lost_zero, Multiset.map_zero, Multiset.sum_zero, add_zero]
  quotes text := by
    rintro ⟨c, hc | hc, htext⟩
    · exact ⟨c, .inl (hitems ▸ Multiset.mem_add.mpr (.inl hc)), htext⟩
    · exact ⟨c, .inr (hcomment.trans hc), htext⟩
  hidden n hn := absurd hn (Multiset.notMem_zero n)

/-- Events, one after the other. -/
theorem observeAll_balance {r r' : Region} {events : List Event} (hin : Inside base r b)
    (hlead : Markup.leadTo? r events = some r') (h : b.observeAll source events = .ok b') :
    Balance source b b' 0 { lost := b.lostByAll source events } where
  tags := by
    have htags := (observeAll_inside hin hlead h).2
    simpa [Ledger.hiddenTags] using htags
  quotes text := observeAll_quotes hin hlead h
  hidden n hn := absurd hn (Multiset.notMem_zero n)

/-- A run of text. -/
theorem content_balance {c : Content} (hin : Inside base b.region b)
    (h : b.content source c = .ok b') :
    Inside base b'.region b' ∧ Balance source b b' 0 (b.contentLedger source c) := by
  rw [content] at h
  simp only at h
  have hlead : Markup.leadTo? b.region _ = some _ :=
    (Markup.leadTo?_append ((b.machine.moveTo c.valueStart).read_leads c.value)).trans
      (Markup.Machine.flush_leads _)
  have hin' := hin.withMachine ((b.machine.moveTo c.valueStart).read c.value).1.flush.1
  have hmachine := observeAll_machine h
  have hbalance := observeAll_balance hin' hlead h
  refine ⟨?_, ⟨hbalance.tags, hbalance.quotes, hbalance.hidden⟩⟩
  rw [region, hmachine]
  exact (observeAll_inside hin' hlead h).1

/-! ### Single tags -/

theorem Inside.goTo {r : Region} (hin : Inside base r b) (state : Markup.State) :
    Inside base r (b.goTo state) :=
  hin.withMachine _

theorem Balance.goTo {given : Multiset Tag} {l : Ledger} (h : Balance source b b' given l)
    (state : Markup.State) : Balance source b (b'.goTo state) given l :=
  ⟨h.tags, h.quotes, h.hidden⟩

theorem region_of_isComment (h : b.machine.state.isComment = true) : b.region = .comment := by
  rw [region]
  cases hs : b.machine.state <;> rw [hs] at h <;> first | rfl | cases h

theorem region_of_isData (h : b.machine.state.isData = true) : b.region = .text := by
  rw [region]
  cases hs : b.machine.state <;> rw [hs] at h <;> first | rfl | cases h

theorem isData_eq_false_of_isComment {state : Markup.State} (h : state.isComment = true) :
    state.isData = false := by
  cases state <;> first | rfl | cases h

theorem region_of_isAttributeValue (h : b.machine.state.isAttributeValue = true) :
    b.region = .value := by
  rw [region]
  cases hs : b.machine.state <;> rw [hs] at h <;> first | rfl | cases h

/-- Outside of comments of the markup a tag is lost in an end tag only. -/
theorem tagLedger_outside {n : Node} (h : b.region ≠ .comment) :
    b.tagLedger n = if b.inEndTag then { lost := n.tag } else 0 :=
  if_neg fun hcomment => h (region_of_isComment hcomment)

/-- A tag in a comment of the markup becomes part of the text of the comment. -/
theorem appendToComment_balance (hin : Inside base b.region b)
    (hcomment : b.machine.state.isComment = true) (n : Node) :
    Inside base (b.appendToComment source n.span).region (b.appendToComment source n.span) ∧
      Balance source b (b.appendToComment source n.span) (nodesTags [n]) { hidden := {n} } := by
  rw [region_of_isComment hcomment] at hin
  obtain ⟨htag, hattr, hsome⟩ := hin.reads
  obtain ⟨c, hc⟩ := Option.isSome_iff_exists.mp hsome
  refine ⟨⟨hin.above, htag, hattr, by simpa [appendToComment, goTo] using hsome⟩, ?_, ?_, ?_⟩
  · have htags : (b.appendToComment source n.span).tags = b.tags := rfl
    simp [htags, Ledger.hiddenTags]
  · rintro text ⟨c', hc' | hc', htext⟩
    · exact ⟨c', .inl hc', htext⟩
    -- The comment that is being read grows at its end, so what it quotes stays a part of it.
    · obtain rfl : c = c' := Option.some.inj (hc.symm.trans hc')
      refine ⟨_, .inr (by simp only [appendToComment, goTo, hc, Option.map_some]; rfl), ?_⟩
      simp only [String.toList_append]
      exact htext.trans (List.prefix_append _ _).isInfix
  · intro n' hn'
    obtain rfl := Multiset.mem_singleton.mp hn'
    refine ⟨_, .inr (by simp only [appendToComment, goTo, hc, Option.map_some]; rfl), ?_⟩
    simp only [String.toList_append]
    exact (List.suffix_append _ _).isInfix.trans (List.suffix_append _ _).isInfix

/-- Elsewhere than in an end tag no tag is lost. -/
theorem inEndTag_eq_false (hbefore : b.machine.state ≠ .beforeAttributeName)
    (hafter : b.machine.state ≠ .afterAttributeName)
    (hquoted : b.machine.state ≠ .afterAttributeValueQuoted) : b.inEndTag = false := by
  rw [inEndTag]
  split <;> simp_all

theorem inEndTag_of_isData (hdata : b.machine.state.isData = true) : b.inEndTag = false := by
  apply inEndTag_eq_false <;> rintro hstate <;> rw [hstate] at hdata <;> cases hdata

/-- A tag becomes a statement of the tree. -/
theorem append_balance (source : Source) {s : Statement} {t : Tag} {l : Ledger}
    (hin : Inside base b.region b) (hend : b.inEndTag = false) (hs : s.within = [s])
    (hitems : s.items = {.tag t}) :
    Inside base (b.append s).region (b.append s) ∧
      Balance source b (b.append s) {t} (if b.inEndTag then l else 0) := by
  obtain ⟨hin', happend⟩ := append_inside hin s
  rw [if_neg (by simp [hend]), region, append_machine]
  refine ⟨hin', .of_items ?_ (append_comment b s)⟩
  rw [happend, itemsOf_singleton hs, hitems, Multiset.map_singleton]

/-- The tags that a modifier loses. -/
def lostModifier (b : Builder) (m : MustacheTag) : Multiset Tag :=
  match b.tag with
  | some (.closing _ _) => {.mustache m.call m.span}
  | _ => 0

/-- A modifier joins the start tag; in an end tag it is lost. -/
theorem addModifier_balance (source : Source) {m : MustacheTag} (hin : Inside base .tag b)
    (h : b.addModifier m = .ok b') :
    Inside base .tag b' ∧ b'.machine = b.machine ∧
      Balance source b b' {.mustache m.call m.span} { lost := b.lostModifier m } := by
  obtain ⟨hsome, hattr, hcomment⟩ := hin.reads
  cases addModifier_runs h with
  | joined htag =>
    refine ⟨⟨hin.above, rfl, hattr, hcomment⟩, rfl, ?_⟩
    have hlost : b.lostModifier m = 0 := by simp [lostModifier, htag]
    rw [hlost]
    refine Balance.of_items ?_ rfl
    simp only [items, pendingTags, htag, hattr, Option.map_some, Option.map_none, Option.getD_some,
      Option.getD_none, PendingTag.tags, StartTag.tags, List.map_append, List.map_cons,
      List.map_nil, ← Multiset.coe_add, Multiset.map_add, Multiset.coe_singleton]
    abel
  | dropped hclosing =>
    refine ⟨hin, rfl, ?_, fun text => id, fun n hn => absurd hn (Multiset.notMem_zero n)⟩
    obtain ⟨tag, htag⟩ := Option.isSome_iff_exists.mp hsome
    cases tag with
    | opening tag start => exact absurd htag (hclosing tag start)
    | closing name start => simp [lostModifier, htag, Ledger.hiddenTags]

/-- A part joins the value of an attribute. -/
theorem addPart_balance (source : Source) (hin : Inside base .value b) (m : MustacheTag) :
    Inside base .value (b.addPart m) ∧
      Balance source b (b.addPart m) {.mustache m.call m.span} 0 := by
  obtain ⟨htag, ⟨a, hattr, hstatic⟩, hcomment⟩ := hin.reads
  refine ⟨⟨hin.above, htag, ⟨_, by simp only [addPart, hattr, Option.map_some]; rfl, by simp⟩,
    hcomment⟩, .of_items ?_ rfl⟩
  simp only [items, addPart, pendingTags, hattr, Option.map_some, Option.getD_some,
    partsTags_append, PendingAttr.finishText_tags]
  simp only [partsTags, List.map_cons, List.map_nil, List.sum_cons, List.sum_nil, ConcatPart.tags,
    Multiset.map_add, add_zero]
  abel

/-- An attribute that is completed belongs to a start tag. -/
theorem finishAttr_opening {pos : Nat} (hin : Inside base .value b)
    (h : b.finishAttr pos = .ok b') :
    (∃ tag start, b.tag = some (.opening tag start)) ∧
      ∃ tag start, b'.tag = some (.opening tag start) := by
  obtain ⟨hsome, ⟨a, hattr, -⟩, -⟩ := hin.reads
  cases finishAttr_runs h with
  | absent hnone => cases hnone.symm.trans hattr
  | dropped hnone => simp [hnone] at hsome
  | joined _ _ htag _ => exact ⟨⟨_, _, htag⟩, _, _, rfl⟩

/-- An attribute without a value is completed where a modifier stands. -/
theorem emptyValue_balance {pos : Nat} (hin : Inside base .name b)
    (h : b.observeAll source [.beginAttributeValue false pos, .finishAttributeValue pos]
      = .ok b') :
    Inside base .tag b' ∧ (∃ tag start, b.tag = some (.opening tag start)) ∧
      (∃ tag start, b'.tag = some (.opening tag start)) ∧ Balance source b b' 0 0 := by
  have hlead : Markup.leadTo? .name [.beginAttributeValue false pos, .finishAttributeValue pos]
      = some .tag := rfl
  have hbalance := observeAll_balance hin hlead h
  have hin' := (observeAll_inside hin hlead h).1
  simp only [observeAll, List.foldlM_cons, List.foldlM_nil, bind_eq_ok, pure_eq_ok] at h
  obtain ⟨b₁, h₁, b₂, h₂, rfl⟩ := h
  have hbegin : Event.leadsTo? .name (.beginAttributeValue false pos) = some .value := rfl
  have hin₁ := (observe_inside hin hbegin h₁).1
  have htag : b₁.tag = b.tag := by
    cases h₁
    rfl
  obtain ⟨hopening, hopening'⟩ := finishAttr_opening hin₁ h₂
  refine ⟨hin', htag ▸ hopening, hopening', ?_⟩
  -- The attribute has no parts, so none is lost.
  obtain ⟨-, ⟨a, hattr, hdynamic, -⟩, -⟩ := hin.reads
  have hlost : b.lostByAll source [.beginAttributeValue false pos, .finishAttributeValue pos]
      = 0 := by
    have hattr₁ : (b₁.attr.map PendingAttr.lost).getD 0 = 0 := by
      cases h₁
      simp [hattr, PendingAttr.lost, hdynamic]
    simp only [lostByAll, lostBy, h₁, hattr₁, zero_add]
    split <;> rfl
  rwa [hlost] at hbalance

/-- A modifier where the reader is between attributes. -/
theorem modifier_balance {m : MustacheTag} (hin : Inside base b.region b)
    (hstate : b.machine.state = .beforeAttributeName ∨
      b.machine.state = .afterAttributeValueQuoted)
    (h : b.addModifier m = .ok b') :
    Inside base .tag b' ∧ b'.machine = b.machine ∧
      Balance source b b' {.mustache m.call m.span}
        (if b.inEndTag then { lost := (Node.mustache m).tag } else 0) := by
  have hregion : b.region = .tag := by
    rw [region]
    rcases hstate with hstate | hstate <;> rw [hstate] <;> rfl
  rw [hregion] at hin
  have hledger : (if b.inEndTag then { lost := (Node.mustache m).tag } else 0)
      = ({ lost := b.lostModifier m } : Ledger) := by
    obtain ⟨tag, htag⟩ := Option.isSome_iff_exists.mp hin.reads.1
    cases tag <;> rcases hstate with hstate | hstate <;>
      simp [inEndTag, lostModifier, htag, hstate, Node.tag] <;> rfl
  rw [hledger]
  exact addModifier_balance source hin h

/-- A modifier after the name of an attribute, which is then complete. -/
theorem nameModifier_balance {m : MustacheTag} {pos : Nat} {b₁ b₂ : Builder}
    (hin : Inside base .name b)
    (hvalue : b.observeAll source [.beginAttributeValue false pos, .finishAttributeValue pos]
      = .ok b₁) (h : b₁.addModifier m = .ok b₂) :
    Inside base .tag b₂ ∧ Balance source b b₂ {.mustache m.call m.span}
      (if b.inEndTag then { lost := (Node.mustache m).tag } else 0) := by
  obtain ⟨hin₁, ⟨tag, start, htag⟩, ⟨tag₁, start₁, htag₁⟩, hbalance₁⟩ :=
    emptyValue_balance hin hvalue
  obtain ⟨hin₂, -, hbalance₂⟩ := addModifier_balance source hin₁ h
  refine ⟨hin₂, ?_⟩
  have hlost : b₁.lostModifier m = 0 := by simp [lostModifier, htag₁]
  have hend : b.inEndTag = false := by simp [inEndTag, htag]
  rw [hlost] at hbalance₂
  have hbalance := hbalance₁.seq hbalance₂
  rw [Multiset.zero_add, Ledger.zero_add] at hbalance
  rwa [if_neg (by simp [hend])]

/-- A mustache is placed by the state of the reader. -/
theorem mustache_balance {m : MustacheTag} (hin : Inside base b.region b)
    (h : b.mustache source m = .ok b') :
    Inside base b'.region b' ∧
      Balance source b b' (nodesTags [.mustache m]) (b.tagLedger (.mustache m)) := by
  have htags : nodesTags [.mustache m] = {.mustache m.call m.span} := by
    simp [nodesTags, Mustache.nodesWithin, Node.within, Node.tag]
  cases mustache_runs h with
  | inComment hcomment =>
    rw [tagLedger, if_pos hcomment]
    exact appendToComment_balance hin hcomment (.mustache m)
  | modifier hstate hadd =>
    obtain ⟨hin', hmachine, hbalance⟩ := modifier_balance hin (.inl hstate) hadd
    rw [htags, tagLedger_outside (by rw [region, hstate]; decide)]
    refine ⟨?_, hbalance⟩
    rw [region, hmachine, hstate]
    exact hin'
  -- The attribute before it ends without a value.
  | afterName hstate hvalue hadd =>
    have hregion : b.region = .name := by
      rcases hstate with hstate | hstate <;> rw [region, hstate] <;> rfl
    obtain ⟨hin', hbalance⟩ := nameModifier_balance (hregion ▸ hin) hvalue hadd
    rw [htags, tagLedger_outside (by rw [hregion]; decide)]
    exact ⟨hin'.goTo _, hbalance.goTo _⟩
  | afterValue hstate hadd =>
    obtain ⟨hin', -, hbalance⟩ := modifier_balance hin (.inr hstate) hadd
    rw [htags, tagLedger_outside (by rw [region, hstate]; decide)]
    exact ⟨hin'.goTo _, hbalance.goTo _⟩
  | @beginValue b₁ hstate hbegin =>
    have hregion : b.region = .name := by rw [region, hstate]; rfl
    have hlead : Event.leadsTo? .name (.beginAttributeValue false m.span.start) = some .value :=
      rfl
    obtain ⟨hin₁, hitems⟩ := observe_inside (hregion ▸ hin) hlead hbegin
    have hbalance₁ : Balance source b b₁ 0 0 := by
      cases hbegin
      exact .of_items (by simpa [lostBy, gainedBy] using hitems) rfl
    obtain ⟨hin₂, hbalance₂⟩ := addPart_balance source hin₁ m
    have hbalance := hbalance₁.seq hbalance₂
    rw [Multiset.zero_add, Ledger.zero_add] at hbalance
    have hend : b.inEndTag = false := by
      apply inEndTag_eq_false <;> simp [hstate]
    rw [htags, tagLedger_outside (by rw [hregion]; decide), if_neg (by simp [hend])]
    exact ⟨hin₂.goTo _, hbalance.goTo _⟩
  | part hstate =>
    have hregion : b.region = .value := region_of_isAttributeValue hstate
    have hend : b.inEndTag = false := by
      apply inEndTag_eq_false <;> rintro heq <;> rw [heq] at hstate <;> cases hstate
    obtain ⟨hin', hbalance⟩ := addPart_balance source (hregion ▸ hin) m
    rw [htags, tagLedger_outside (by rw [hregion]; decide), if_neg (by simp [hend])]
    refine ⟨?_, hbalance⟩
    rw [show (b.addPart m).region = .value from hregion]
    exact hin'
  | statement hstate =>
    have hend : b.inEndTag = false := by
      rcases hstate with hdata | hstate | hstate
      · exact inEndTag_of_isData hdata
      · apply inEndTag_eq_false <;> simp [hstate]
      · apply inEndTag_eq_false <;> simp [hstate]
    have hregion : b.region ≠ .comment := by
      rcases hstate with hdata | hstate | hstate
      · simp [region_of_isData hdata]
      · rw [region, hstate]
        decide
      · rw [region, hstate]
        decide
    rw [htags, tagLedger_outside hregion]
    exact append_balance source hin hend (by simp only [Statement.within]) rfl

/-- A comment in braces joins the start tag; in an end tag it is lost. -/
theorem note_balance {value : String} {strip : Strip} {span : Span} (hin : Inside base b.region b)
    (hstate : b.machine.state = .beforeAttributeName ∨ b.machine.state = .afterAttributeName) :
    let note : StartTag → StartTag := fun t => { t with comments := t.comments ++ [⟨value, span⟩] }
    let b' : Builder := { b with tag := b.tag.map (·.onStartTag note) }
    Inside base b'.region b' ∧
      Balance source b b' {.comment ⟨value, span⟩}
        (if b.inEndTag then { lost := (Node.comment value strip span).tag } else 0) := by
  intro note b'
  have htag : b.tag.isSome := by
    have hreads := hin.reads
    rw [region] at hreads
    rcases hstate with hstate | hstate <;> rw [hstate] at hreads <;> exact hreads.1
  have hin' : Inside base b'.region b' := by
    refine ⟨hin.above, ?_⟩
    have hreads := hin.reads
    have hsome : (b.tag.map (·.onStartTag note)).isSome := by simpa using htag
    show Reads b' b.machine.state.region
    rw [region] at hreads
    rcases hstate with hstate | hstate <;> rw [hstate] at hreads ⊢
    · exact ⟨hsome, hreads.2⟩
    · exact ⟨hsome, hreads.2⟩
  refine ⟨hin', ?_⟩
  obtain ⟨tag, htag⟩ := Option.isSome_iff_exists.mp htag
  cases tag with
  | opening tag start =>
    have hend : b.inEndTag = false := by simp [inEndTag, htag]
    rw [if_neg (by simp [hend])]
    refine .of_items ?_ rfl
    simp only [items, b', note, pendingTags, htag, Option.map_some, Option.getD_some,
      PendingTag.onStartTag, PendingTag.tags, StartTag.tags, List.map_append, List.map_cons,
      List.map_nil, ← Multiset.coe_add, Multiset.map_add, Multiset.coe_singleton]
    abel
  | closing name start =>
    have hend : b.inEndTag = true := by
      rcases hstate with hstate | hstate <;> simp [inEndTag, htag, hstate]
    rw [if_pos hend]
    -- An end tag takes no comments: the tag is gone.
    have htags : b'.tags = b.tags := by
      simp [tags, items, b', pendingTags, htag, PendingTag.onStartTag]
    refine ⟨?_, fun text hquotes => ?_, fun n hn => absurd hn (Multiset.notMem_zero n)⟩
    · simp [htags, Ledger.hiddenTags, Node.tag]
    · obtain ⟨c, hc, htext⟩ := hquotes
      refine ⟨c, hc.imp_left fun hc => ?_, htext⟩
      simpa [items, b', pendingTags, htag, PendingTag.onStartTag] using hc

/-- A comment in braces is placed by the state of the reader. -/
theorem mustacheComment_balance {value : String} {strip : Strip} {span : Span}
    (hin : Inside base b.region b) (h : b.mustacheComment source ⟨value, span⟩ = .ok b') :
    Inside base b'.region b' ∧
      Balance source b b' (nodesTags [.comment value strip span])
        (b.tagLedger (.comment value strip span)) := by
  have htags : nodesTags [.comment value strip span] = {.comment ⟨value, span⟩} := by
    simp [nodesTags, Mustache.nodesWithin, Node.within, Node.tag]
  cases mustacheComment_runs h with
  | inComment hcomment =>
    rw [tagLedger, if_pos hcomment]
    exact appendToComment_balance hin hcomment (.comment value strip span)
  | statement hdata =>
    rw [htags, tagLedger_outside (by simp [region_of_isData hdata])]
    exact append_balance source hin (inEndTag_of_isData hdata) (by simp only [Statement.within]) rfl
  | note hstate =>
    have hregion : b.region ≠ .comment := by
      rcases hstate with hstate | hstate <;> rw [region, hstate] <;> decide
    rw [htags, tagLedger_outside hregion]
    exact note_balance hin hstate

/-- A partial stands between tags. -/
theorem partialCall_balance {p : PartialTag} (hin : Inside base b.region b)
    (h : b.partialCall source p = .ok b') :
    Inside base b'.region b' ∧
      Balance source b b' (nodesTags [.partialCall p]) (b.tagLedger (.partialCall p)) := by
  have htags : nodesTags [.partialCall p] = {.partialCall p} := by
    simp [nodesTags, Mustache.nodesWithin, Node.within, Node.tag]
  cases partialCall_runs h with
  | inComment hcomment =>
    rw [tagLedger, if_pos hcomment]
    exact appendToComment_balance hin hcomment (.partialCall p)
  | statement hdata =>
    rw [htags, tagLedger_outside (by simp [region_of_isData hdata])]
    exact append_balance source hin (inEndTag_of_isData hdata) (by simp only [Statement.within]) rfl

end Builder

/-! ### Programs -/

/-- The tags of statements, at any depth. -/
def tagsOf (ss : List Statement) : Multiset Tag := (itemsOf ss).filterMap Item.tag?

/-- A text is part of a comment of the markup among statements. -/
def QuotedIn (ss : List Statement) (text : List Char) : Prop :=
  ∃ c : Comment, Item.comment c ∈ itemsOf ss ∧ text <:+: c.value.toList

/-- The items of a block are its tag and those of its branches. -/
theorem itemsOf_block (tag : BlockTag) (program : Block Statement)
    (other : Option (Block Statement)) :
    itemsOf [.block tag program other] = {.tag (.block tag)} + itemsOf program.body
      + ((other.map (·.body)).map itemsOf).getD 0 := by
  cases program
  cases other with
  | none => simp [itemsOf, statementsWithin, Statement.within, Statement.items, otherWithin,
      blockWithin]
  | some other =>
    cases other
    simp [itemsOf, statementsWithin, Statement.within, Statement.items, otherWithin, blockWithin]

theorem tagsOf_block (tag : BlockTag) (program : Block Statement)
    (other : Option (Block Statement)) :
    tagsOf [.block tag program other] = {.block tag} + tagsOf program.body
      + ((other.map (·.body)).map tagsOf).getD 0 := by
  unfold tagsOf
  rw [itemsOf_block]
  cases other with
  | none => simp [← Multiset.cons_zero, Item.tag?]
  | some other => simp [Multiset.filterMap_add, ← Multiset.cons_zero, Item.tag?]

/-- What is quoted in a branch of a block is quoted in the block. -/
theorem QuotedIn.block {tag : BlockTag} {program : Block Statement}
    {other : Option (Block Statement)} {text : List Char}
    (h : QuotedIn program.body text ∨ ∃ inverse ∈ other, QuotedIn inverse.body text) :
    QuotedIn [.block tag program other] text := by
  rcases h with ⟨c, hc, htext⟩ | ⟨inverse, rfl, c, hc, htext⟩
  · exact ⟨c, by simp [itemsOf_block, hc], htext⟩
  · exact ⟨c, by simp [itemsOf_block, hc], htext⟩

namespace Builder

variable {source : Source} {base : List Frame} {b b' : Builder}

/-- A builder between tags, with nothing begun. -/
structure Idle (b : Builder) : Prop where
  data : b.machine.state.isData = true
  reads : b.Reads .text

theorem Idle.items_eq (h : b.Idle) : b.items = framesItems b.frames := by
  simp [items, pendingTags, h.reads.1, h.reads.2.1]

/-- Between tags, a builder in its region is idle. -/
theorem Inside.idle (hin : Inside base b.region b) (hdata : b.machine.state.isData = true) :
    b.Idle :=
  ⟨hdata, region_of_isData hdata ▸ hin.reads⟩

theorem Idle.push (h : b.Idle) :
    Inside b.frames (b.push (.block [])).region (b.push (.block [])) := by
  have hregion : (b.push (.block [])).region = .text := region_of_isData h.data
  rw [hregion]
  exact ⟨.block, h.reads⟩

/-- What the run of a program comes to: the statements in its frame have all its
tags but those in the ledger. -/
structure BodyBalance (source : Source) (b : Builder) (body : List Statement)
    (given : Multiset Tag) (l : Ledger) : Prop where
  tags : tagsOf body + l.hiddenTags + l.lost = given
  hidden : ∀ n ∈ l.hidden, b.Quotes (source.slice n.span).toList ∨
    QuotedIn body (source.slice n.span).toList

/-- The end of a program takes its frame off and leaves the frames below it. -/
theorem endProgram_idle {names : List String} {chained : Bool} {span : Span}
    {block : Block Statement} (hin : Inside base b.region b)
    (h : b.endProgram names chained span = .ok (block, b')) :
    b.Idle ∧ b'.Idle ∧ b'.machine = b.machine ∧ b'.frames = base ∧
      b.frames = .block block.body :: base := by
  obtain ⟨hdata, body, rest, hframes, rfl, rfl⟩ := endProgram_eq_ok.mp h
  rw [region_of_isData hdata] at hin
  have hover := hin.above
  rw [hframes] at hover
  cases hover with
  | block => exact ⟨⟨hdata, hin.reads⟩, ⟨hdata, hin.reads⟩, rfl, rfl, hframes⟩

/-- A program that was run in a frame of its own. -/
theorem program_balance {p : Program} {block : Block Statement} {given : Multiset Tag} {l : Ledger}
    (hidle : b.Idle)
    (hnodes : ∀ b₁, nodes source (b.push (.block [])) p.body = .ok b₁ →
      Inside b.frames b₁.region b₁ ∧ Balance source (b.push (.block [])) b₁ given l)
    (h : b.program source p = .ok (block, b')) :
    b'.Idle ∧ b'.frames = b.frames ∧ BodyBalance source b block.body given l := by
  obtain ⟨b₁, hrun, hend⟩ := program_eq_ok.mp h
  obtain ⟨hin, hbalance⟩ := hnodes b₁ hrun
  obtain ⟨hidle₁, hidle', -, hframes, hbody⟩ := endProgram_idle hin hend
  have hitems : b₁.items = itemsOf block.body + b.items := by
    rw [hidle₁.items_eq, hidle.items_eq, hbody, framesItems_cons, Frame.items]
  refine ⟨hidle', hframes, ?_, fun n hn => ?_⟩
  · have htags := hbalance.tags
    have hpush : (b.push (.block [])).tags = b.tags := by
      simp [tags, items, Builder.push, framesItems_cons, Frame.items, itemsOf, statementsWithin]
    have hbody' : b₁.tags = tagsOf block.body + b.tags := by
      rw [tags, hitems, Multiset.filterMap_add]
      rfl
    -- The frames below the program are the same before and after, so they cancel.
    apply add_right_cancel (b := b.tags)
    calc tagsOf block.body + l.hiddenTags + l.lost + b.tags
        = tagsOf block.body + b.tags + l.hiddenTags + l.lost := by abel
      _ = b.tags + given := by rw [← hbody', htags, hpush]
      _ = given + b.tags := add_comm _ _
  · obtain ⟨c, hc | hc, htext⟩ := hbalance.hidden n hn
    · rw [hitems] at hc
      rcases Multiset.mem_add.mp hc with hc | hc
      · exact .inr ⟨c, hc, htext⟩
      · exact .inl ⟨c, .inl hc, htext⟩
    · exact absurd (hc.symm.trans hidle₁.reads.2.2) (by simp)

theorem Idle.quotes {b₂ : Builder} {text : List Char} (h : b.Idle) (h₂ : b₂.Idle)
    (hframes : b₂.frames = b.frames) (hquotes : b₂.Quotes text) : b.Quotes text := by
  obtain ⟨c, hc | hc, htext⟩ := hquotes
  · refine ⟨c, .inl ?_, htext⟩
    rwa [h.items_eq, ← hframes, ← h₂.items_eq]
  · exact absurd (hc.symm.trans h₂.reads.2.2) (by simp)

/-- Where the frames are the same, no other comments are in them. -/
theorem BodyBalance.of_idle {b₂ : Builder} {body : List Statement} {given : Multiset Tag}
    {l : Ledger} (h : BodyBalance source b₂ body given l) (hidle : b.Idle) (hidle₂ : b₂.Idle)
    (hframes : b₂.frames = b.frames) : BodyBalance source b body given l :=
  ⟨h.tags, fun n hn => (h.hidden n hn).imp_left (hidle.quotes hidle₂ hframes)⟩

/-- A block without an inverse. -/
theorem BodyBalance.block {tag : BlockTag} {program : Block Statement} {given : Multiset Tag}
    {l : Ledger} (h : BodyBalance source b program.body given l) :
    BodyBalance source b [.block tag program none] ({.block tag} + given) l where
  tags := by
    rw [tagsOf_block, ← h.tags]
    simp only [Option.map_none, Option.getD_none, add_zero, add_assoc]
  hidden n hn := (h.hidden n hn).imp_right fun hquoted => .block (.inl hquoted)

/-- A block with an inverse. -/
theorem BodyBalance.blockElse {tag : BlockTag} {program inverse : Block Statement}
    {given given' : Multiset Tag} {l l' : Ledger} (h : BodyBalance source b program.body given l)
    (h' : BodyBalance source b inverse.body given' l') :
    BodyBalance source b [.block tag program (some inverse)] ({.block tag} + given + given')
      (l + l') where
  tags := by
    rw [tagsOf_block, ← h.tags, ← h'.tags, Ledger.hiddenTags_add, Ledger.lost_add]
    simp only [Option.map_some, Option.getD_some]
    abel
  hidden n hn := by
    rcases Multiset.mem_add.mp hn with hn | hn
    · exact (h.hidden n hn).imp_right fun hquoted => .block (.inl hquoted)
    · exact (h'.hidden n hn).imp_right fun hquoted => .block (.inr ⟨inverse, rfl, hquoted⟩)

/-- A block that was read joins the frame in which it stands. -/
theorem appendBlock_balance {s : Statement} {b₂ : Builder} {given : Multiset Tag} {l : Ledger}
    (hin : Inside base b.region b) (hidle : b.Idle) (hidle₂ : b₂.Idle)
    (hframes : b₂.frames = b.frames) (hbody : BodyBalance source b [s] given l) :
    Inside base (b₂.append s).region (b₂.append s) ∧ Balance source b (b₂.append s) given l := by
  have hregion : b₂.region = .text := region_of_isData hidle₂.data
  have hin₂ : Inside base b₂.region b₂ := hregion ▸ ⟨hframes ▸ hin.above, hidle₂.reads⟩
  obtain ⟨hin', happend⟩ := append_inside hin₂ s
  have hitems : (b₂.append s).items = b.items + itemsOf [s] := by
    rw [happend, hidle₂.items_eq, hidle.items_eq, hframes]
  rw [region, append_machine]
  refine ⟨hin', ?_, ?_, fun n hn => ?_⟩
  · have htags : (b₂.append s).tags = b.tags + tagsOf [s] := by
      rw [tags, hitems, Multiset.filterMap_add]
      rfl
    rw [htags, ← hbody.tags]
    abel
  · rintro text ⟨c, hc | hc, htext⟩
    · exact ⟨c, .inl (by simp [hitems, hc]), htext⟩
    · exact absurd (hc.symm.trans hidle.reads.2.2) (by simp)
  · rcases hbody.hidden n hn with ⟨c, hc | hc, htext⟩ | ⟨c, hc, htext⟩
    · exact ⟨c, .inl (by simp [hitems, hc]), htext⟩
    · exact absurd (hc.symm.trans hidle.reads.2.2) (by simp)
    · exact ⟨c, .inl (by simp [hitems, hc]), htext⟩

mutual

/-- A statement: its tags come into the tree, but for those in its ledger. -/
theorem node_balance (n : Node) {base : List Frame} {b b' : Builder}
    (hin : Inside base b.region b) (h : b.node source n = .ok b') :
    Inside base b'.region b' ∧ Balance source b b' (nodesTags [n]) (nodeLedger source b n) := by
  match n with
  | .content c =>
    have htags : nodesTags [.content c] = 0 := by
      simp [nodesTags, Mustache.nodesWithin, Node.within, Node.tag]
    rw [node] at h
    unfold nodeLedger
    rw [htags]
    exact content_balance hin h
  | .comment value strip span =>
    rw [node] at h
    unfold nodeLedger
    exact mustacheComment_balance hin h
  | .mustache m =>
    rw [node] at h
    unfold nodeLedger
    exact mustache_balance hin h
  | .partialCall p =>
    rw [node] at h
    unfold nodeLedger
    exact partialCall_balance hin h
  | .block tag ⟨body, names, chained, span⟩ other =>
    unfold nodeLedger
    rw [Mustache.nodesTags_block]
    match other, block_runs h with
    | other, .inComment hcomment =>
      rw [if_pos hcomment, ← Mustache.nodesTags_block]
      exact appendToComment_balance hin hcomment (.block tag ⟨body, names, chained, span⟩ other)
    | none, .alone hdata hprogram =>
      have hidle := hin.idle hdata
      obtain ⟨hidle₁, hframes₁, hbody⟩ :=
        program_balance hidle (fun _ => nodes_balance body hidle.push) hprogram
      rw [if_neg fun hcomment => by simp [isData_eq_false_of_isComment hcomment] at hdata]
      simp only [Option.map_none, Option.getD_none, add_zero, Ledger.add_zero]
      exact appendBlock_balance hin hidle hidle₁ hframes₁ hbody.block
    | some ⟨otherBody, otherNames, otherChained, otherSpan⟩, .withElse hdata hprogram hinverse =>
      have hidle := hin.idle hdata
      obtain ⟨hidle₁, hframes₁, hbody⟩ :=
        program_balance hidle (fun _ => nodes_balance body hidle.push) hprogram
      obtain ⟨hidle₂, hframes₂, hbody₂⟩ :=
        program_balance hidle₁ (fun _ => nodes_balance otherBody hidle₁.push) hinverse
      have hother := hbody₂.of_idle hidle hidle₁ hframes₁
      rw [if_neg fun hcomment => by simp [isData_eq_false_of_isComment hcomment] at hdata]
      -- The ledger runs the first branch again to find where the second one begins.
      simp only [hprogram, Option.map_some, Option.getD_some]
      exact appendBlock_balance hin hidle hidle₂ (hframes₂.trans hframes₁) (hbody.blockElse hother)

/-- Statements in order. -/
theorem nodes_balance (ns : List Node) {base : List Frame} {b b' : Builder}
    (hin : Inside base b.region b) (h : b.nodes source ns = .ok b') :
    Inside base b'.region b' ∧ Balance source b b' (nodesTags ns) (nodesLedger source b ns) := by
  match ns with
  | [] =>
    rw [nodes] at h
    cases h
    rw [nodesLedger]
    exact ⟨hin, .of_items (by simp [nodesTags, Mustache.nodesWithin]) rfl⟩
  | n :: rest =>
    obtain ⟨b₁, hnode, hrest⟩ := nodes_cons_eq_ok.mp h
    obtain ⟨hin₁, hbalance₁⟩ := node_balance n hin hnode
    obtain ⟨hin₂, hbalance₂⟩ := nodes_balance rest hin₁ hrest
    refine ⟨hin₂, ?_⟩
    rw [Mustache.nodesTags_cons, nodesLedger, hnode]
    exact hbalance₁.seq hbalance₂

end

/-- A program leaves the frames that it found. -/
theorem program_idle {p : Program} {block : Block Statement} (hidle : b.Idle)
    (h : b.program source p = .ok (block, b')) :
    b'.Idle ∧ b'.frames = b.frames ∧
      ∃ c, nodes source (b.push (.block [])) p.body = .ok c ∧
        c.frames = .block block.body :: b.frames := by
  obtain ⟨c, hc, hend⟩ := program_eq_ok.mp h
  have hin := (nodes_balance p.body hidle.push hc).1
  obtain ⟨-, hidle', -, hframes, hbody⟩ := endProgram_idle hin hend
  exact ⟨hidle', hframes, c, hc, hbody⟩

/-- The builder of a template, before anything is read. -/
theorem idle_start (mode : Markup.Mode) : Idle { machine := { mode } } :=
  ⟨rfl, rfl, rfl, rfl⟩

end Builder

/-! ### Templates -/

/-- The program that is built in a mode: for running, whitespace control comes
first. -/
def builtProgram (mode : Markup.Mode) (program : Program) : Program :=
  match mode with
  | .precompile => Mustache.stripProgram program
  | .codemod => program

theorem builtProgram_tags (mode : Markup.Mode) (program : Program) :
    nodesTags (builtProgram mode program).body = nodesTags program.body := by
  cases mode with
  | precompile => exact Mustache.stripProgram_tags program
  | codemod => rfl

/-- The ledger of a template. -/
def ledger (source : Source) (mode : Markup.Mode) (program : Program) : Ledger :=
  Builder.nodesLedger source (Builder.push { machine := { mode } } (.block []))
    (builtProgram mode program).body

theorem parse_eq_ok {source : Source} {mode : Markup.Mode} {result : Template × List Diagnostic} :
    parse source mode = .ok result ↔
      ∃ program, Mustache.parseProgram (Mustache.lex source.text) = .ok program ∧
        build source mode (builtProgram mode program) = .ok result := by
  rw [parse]
  rw [bind_eq_ok]
  cases mode with
  | precompile => rfl
  | codemod => rfl

/-- The tree of a program, against its ledger. -/
theorem build_tags {source : Source} {mode : Markup.Mode} {program : Program} {t : Template}
    {warnings : List Diagnostic}
    (h : build source mode (builtProgram mode program) = .ok (t, warnings)) :
    tagsOf t.body + (ledger source mode program).hiddenTags + (ledger source mode program).lost
        = nodesTags program.body ∧
      ∀ n ∈ (ledger source mode program).hidden,
        QuotedIn t.body (source.slice n.span).toList := by
  obtain ⟨block, b, hprogram, rfl, -⟩ := build_eq_ok.mp h
  have hidle := Builder.idle_start mode
  obtain ⟨-, -, hbody⟩ :=
    Builder.program_balance hidle (fun _ => Builder.nodes_balance _ hidle.push) hprogram
  refine ⟨hbody.tags.trans (builtProgram_tags mode program), fun n hn => ?_⟩
  -- Before anything is read there is no comment.
  rcases hbody.hidden n hn with ⟨c, hc | hc, -⟩ | hquoted
  · rw [hidle.items_eq] at hc
    exact absurd hc (Multiset.notMem_zero _)
  · cases hc
  · exact hquoted

/-- Every tag of a program is in the tree exactly once, or hidden in a comment
that quotes it, or lost; and none is missing only if none is lost. -/
theorem parse_tags {source : Source} {mode : Markup.Mode} {t : Template}
    {warnings : List Diagnostic} (h : parse source mode = .ok (t, warnings)) :
    ∃ program, Mustache.parseProgram (Mustache.lex source.text) = .ok program ∧
      (∀ n ∈ (ledger source mode program).hidden,
        n ∈ Mustache.nodesWithin (builtProgram mode program).body ∧
          QuotedIn t.body (source.slice n.span).toList) ∧
      tagsOf t.body + (ledger source mode program).hiddenTags + (ledger source mode program).lost
        = nodesTags program.body ∧
      (tagsOf t.body + (ledger source mode program).hiddenTags = nodesTags program.body ↔
        (ledger source mode program).lost = 0) := by
  obtain ⟨program, hprogram, hbuild⟩ := parse_eq_ok.mp h
  obtain ⟨htags, hhidden⟩ := build_tags hbuild
  refine ⟨program, hprogram, fun n hn => ⟨Builder.nodesLedger_hidden _ hn, hhidden n hn⟩, htags, ?_⟩
  rw [← htags]
  exact left_eq_add

/-- A tag in a comment of the markup, and one in a start tag. -/
def placedTags : Source := ⟨"<!--\x7b\x7b!a\x7d\x7d--><p \x7b\x7b!b\x7d\x7d/>", ""⟩

theorem parse_tags_placed :
    ∃ t warnings program, parse placedTags .precompile = .ok (t, warnings) ∧
      Mustache.parseProgram (Mustache.lex placedTags.text) = .ok program ∧
      QuotedIn t.body "\x7b\x7b!a\x7d\x7d".toList ∧
      tagsOf t.body + (ledger placedTags .precompile program).hiddenTags
        = nodesTags program.body := by
  -- One run tells all that is needed: it succeeds, hides the one tag, and loses none.
  have hrun : (Mustache.parseProgram (Mustache.lex placedTags.text)).toOption.map
      (fun program =>
        ((build placedTags .precompile (builtProgram .precompile program)).toOption.map
          fun _ => (),
        (ledger placedTags .precompile program).hidden.map fun n => placedTags.slice n.span,
        (ledger placedTags .precompile program).lost.card))
      = some (some (), {"\x7b\x7b!a\x7d\x7d"}, 0) := by
    decide +kernel
  obtain ⟨program, hprogram, hrun⟩ := ok_of_map_toOption hrun
  simp only [Prod.mk.injEq] at hrun
  obtain ⟨hok, hslices, hlost⟩ := hrun
  obtain ⟨⟨t, warnings⟩, hbuild, -⟩ := ok_of_map_toOption hok
  have hparse : parse placedTags .precompile = .ok (t, warnings) :=
    parse_eq_ok.mpr ⟨program, hprogram, hbuild⟩
  obtain ⟨program', hprogram', hhidden, -, hiff⟩ := parse_tags hparse
  obtain rfl : program = program' := Except.ok.inj (hprogram.symm.trans hprogram')
  obtain ⟨n, hn, hslice⟩ := Multiset.mem_map.mp (hslices ▸ Multiset.mem_singleton_self _)
  exact ⟨t, warnings, program, hparse, hprogram, hslice ▸ (hhidden n hn).2,
    hiff.mpr (Multiset.card_eq_zero.mp hlost)⟩

/-- A modifier that stands in an end tag. -/
def modifierInEndTag : Source := ⟨"<div></div \x7b\x7bfoo\x7d\x7d>", ""⟩

/-- The tag is in no statement, and there is no comment to quote it. -/
theorem parse_endTag_loses_modifier :
    ∃ t warnings program, parse modifierInEndTag .precompile = .ok (t, warnings) ∧
      Mustache.parseProgram (Mustache.lex modifierInEndTag.text) = .ok program ∧
      (nodesTags program.body).card = 1 ∧ itemsOf t.body = 0 := by
  have hrun : (Mustache.parseProgram (Mustache.lex modifierInEndTag.text)).toOption.map
      (fun program => ((nodesTags program.body).card,
        (build modifierInEndTag .precompile (builtProgram .precompile program)).toOption.map
          fun result => (itemsOf result.1.body).card)) = some (1, some 0) := by
    decide +kernel
  obtain ⟨program, hprogram, hrun⟩ := ok_of_map_toOption hrun
  obtain ⟨htags, hitems⟩ := Prod.mk.inj hrun
  obtain ⟨⟨t, warnings⟩, hbuild, hitems⟩ := ok_of_map_toOption hitems
  exact ⟨t, warnings, program, parse_eq_ok.mpr ⟨program, hprogram, hbuild⟩, hprogram, htags,
    Multiset.card_eq_zero.mp hitems⟩

end TemplateCompiler.Template
