/-
The tree of a template without braces is its list of tokens.

The builder of trees and the collector of tokens follow the same events, each
with a tag, an attribute and a text of its own that are still being read.  They
stay in step: what the builder has in its open frames, written out from the
outermost frame to the innermost, is what the collector has gathered.

* `Markup.Mark` — a token as far as a tree keeps it: a start tag keeps where it
  starts, an end tag where it ends;
* `Statement.marks`, `framesMarks` — a tree, and one that is still being built,
  written out;
* `Builder.InStep` — a builder and a collector have read the same;
* `observe_inStep`, `read_inStep` — so they have after one more event, and after
  a whole text;
* `Mustache.parseProgram_plain` — a text without two opening braces is one run;
* `marks_parse` — the tree that is parsed from such a text, written out, is its
  list of tokens.
-/
import Mathlib.Data.List.TakeWhile
import TemplateCompiler.Proofs.Markup.Collecting
import TemplateCompiler.Proofs.Markup.Places
import TemplateCompiler.Proofs.Mustache.Text
import TemplateCompiler.Proofs.Template.Closing

namespace TemplateCompiler.Markup

/-! ### Marks -/

/-- An attribute, as far as trees and tokens both keep it.  A value that is not
plain text is `none`. -/
structure AttrMark where
  name : String
  value : Option String
  span : Span
deriving DecidableEq, Repr

/-- A token, as far as trees and tokens both keep it. -/
inductive Mark where
  | startTag (name : String) (attributes : List AttrMark) (selfClosing : Bool) (start : Nat)
  | endTag (name : String) (stop : Nat)
  | chars (text : String) (span : Span)
  | comment (text : String) (span : Span)
  /-- A tag in braces, which no token is. -/
  | braces (span : Span)
deriving DecidableEq, Repr

namespace Mark

/-- The names of the attributes. -/
def attributeNames : Mark → List String
  | startTag _ attributes _ _ => attributes.map (·.name)
  | _ => []

/-- The mark, ended at a position. -/
def endAt (pos : Nat) : Mark → Mark
  | endTag name _ => endTag name pos
  | chars text span => chars text { span with stop := pos }
  | comment text span => comment text { span with stop := pos }
  | mark => mark

/-- The mark with one more character of its name or text. -/
def push (c : Char) : Mark → Mark
  | startTag name attributes selfClosing start =>
    startTag (name.push c) attributes selfClosing start
  | endTag name stop => endTag (name.push c) stop
  | chars text span => chars (text.push c) span
  | comment text span => comment (text.push c) span
  | mark => mark

/-- The mark of a tag that closes itself. -/
def markSelfClosing : Mark → Mark
  | startTag name attributes _ start => startTag name attributes true start
  | mark => mark

/-- The mark with one more attribute. -/
def addAttribute (a : AttrMark) : Mark → Mark
  | startTag name attributes selfClosing start =>
    startTag name (attributes ++ [a]) selfClosing start
  | mark => mark

end Mark

/-- What a tree keeps of an attribute. -/
def Attribute.mark (a : Attribute) : AttrMark := ⟨a.name, some a.value, a.span⟩

namespace Token

/-- The names of the attributes. -/
def attributeNames : Token → List String
  | startTag _ attributes _ _ => attributes.map (·.name)
  | _ => []

/-- What a tree keeps of a token. -/
def mark : Token → Mark
  | startTag name attributes selfClosing span =>
    .startTag name (attributes.map Attribute.mark) selfClosing span.start
  | endTag name span => .endTag name span.stop
  | chars text span => .chars text span
  | comment text span => .comment text span

theorem mark_attributeNames (t : Token) : t.mark.attributeNames = t.attributeNames := by
  cases t <;> simp [mark, attributeNames, Mark.attributeNames, Attribute.mark]

theorem mark_endAt (t : Token) (pos : Nat) : (t.endAt pos).mark = t.mark.endAt pos := by
  cases t <;> rfl

theorem mark_push (t : Token) (c : Char) : (t.push c).mark = t.mark.push c := by
  cases t <;> rfl

theorem mark_markSelfClosing (t : Token) : t.markSelfClosing.mark = t.mark.markSelfClosing := by
  cases t <;> rfl

theorem mark_addAttribute (t : Token) (a : Attribute) :
    (t.addAttribute a).mark = t.mark.addAttribute a.mark := by
  cases t <;> simp [mark, addAttribute, Mark.addAttribute]

end Token

/-! ### Collectors -/

namespace Collector

theorem current_push (c : Collector) (ch : Char) :
    (c.current.map (·.push ch)).map Token.mark = (c.current.map Token.mark).map (Mark.push ch) := by
  simp only [Option.map_map]
  exact congrArg (c.current.map ·) (funext fun t => t.mark_push ch)

theorem current_markSelfClosing (c : Collector) :
    (c.current.map (·.markSelfClosing)).map Token.mark
      = (c.current.map Token.mark).map Mark.markSelfClosing := by
  simp only [Option.map_map]
  exact congrArg (c.current.map ·) (funext Token.mark_markSelfClosing)

/-- The end of a token adds its mark. -/
theorem close_tokens {c : Collector} {mark : Mark} (h : c.current.map Token.mark = some mark)
    (pos : Nat) :
    (c.close pos).tokens.map Token.mark = c.tokens.map Token.mark ++ [mark.endAt pos] ∧
      c.close pos = { c with tokens := (c.close pos).tokens, current := none } := by
  obtain ⟨token, hcurrent, rfl⟩ := Option.map_eq_some_iff.mp h
  simp only [close, hcurrent, List.map_append, List.map_cons, List.map_nil, Token.mark_endAt,
    and_self]

end Collector

end TemplateCompiler.Markup

namespace TemplateCompiler.Mustache

/-! ### Texts without braces -/

theorem splitAtBraces_plain {cs : List Char} (h : ¬ ['{', '{'] <:+: cs) :
    splitAtBraces cs = (cs, []) := by
  fun_induction splitAtBraces cs with
  -- The text has ended.
  | case1 => rfl
  -- Two braces stand here.
  | case2 rest => exact absurd (List.prefix_append ['{', '{'] rest).isInfix h
  -- Any other character.
  | case3 c rest _ halves ih =>
    have hrest : ¬ ['{', '{'] <:+: rest := fun hin =>
      h (hin.trans (List.suffix_cons c rest).isInfix)
    simp only [halves, ih hrest]

/-- The one run of text of a template without braces; an empty text is none. -/
def plainBody (text : String) : List Node :=
  if text.toList.isEmpty then []
  else [.content (.ofText text (.ofOffsets 0 (Text.byteLength text.toList)))]

/-- A text without two opening braces is one run of text. -/
theorem parseProgram_plain {text : String} (h : ¬ ['{', '{'] <:+: text.toList) :
    (parseProgram (lex text)).map (·.body) = .ok (plainBody text) := by
  have hlex : lex text
      = contentTokens text.toList 0 (Text.byteLength text.toList)
        ++ [⟨.eof, .ofOffsets (Text.byteLength text.toList) (Text.byteLength text.toList)⟩] := by
    rw [lex, lexFrom_plain (splitAtBraces_plain h), Nat.zero_add]
  rw [hlex, contentTokens, plainBody]
  split
  · rfl
  · rw [String.ofList_toList]
    rfl

theorem stripBody_plainBody (text : String) :
    stripBody true [] (plainBody text) = plainBody text := by
  rw [plainBody]
  split
  · rfl
  · rfl

end TemplateCompiler.Mustache

namespace TemplateCompiler.Template

open Markup (Event Region Place Mark AttrMark Collector Token Attribute)
open Mustache (Node Content Program)

/-! ### Trees, written out -/

/-- The text of a value that is plain text. -/
def AttrValue.text? : AttrValue → Option String
  | .text node => some node.chars
  | _ => none

/-- What tokens keep of an attribute. -/
def Attr.mark (a : Attr) : AttrMark := ⟨a.name, a.value.text?, a.span⟩

/-- The mark of a start tag. -/
def StartTag.mark (tag : StartTag) (start : Nat) : Mark :=
  .startTag tag.name (tag.attributes.map Attr.mark) tag.selfClosing start

/-- The mark of the end tag, unless the start tag is complete in itself. -/
def StartTag.endMarks (tag : StartTag) (stop : Nat) : List Mark :=
  if isVoid tag.name || tag.selfClosing then [] else [.endTag tag.name stop]

theorem StartTag.Opens.endMarks {tag : StartTag} (h : tag.Opens) (stop : Nat) :
    tag.endMarks stop = [.endTag tag.name stop] := by
  rw [StartTag.endMarks, h.1, h.2]
  rfl

mutual

/-- A statement, written out. -/
def Statement.marks : Statement → List Mark
  | .mustache tag => [.braces tag.span]
  | .block tag _ _ => [.braces tag.span]
  | .partialCall tag => [.braces tag.span]
  | .comment c => [.comment c.value c.span]
  | .mustacheComment c => [.braces c.span]
  | .text node => [.chars node.chars node.span]
  | .element tag children span =>
    tag.mark span.start :: (marksOf children ++ tag.endMarks span.stop)

/-- Statements, written out. -/
def marksOf : List Statement → List Mark
  | [] => []
  | s :: rest => s.marks ++ marksOf rest

end

theorem marksOf_append (a b : List Statement) : marksOf (a ++ b) = marksOf a ++ marksOf b := by
  induction a with
  | nil => simp only [List.nil_append, marksOf]
  | cons s rest ih => simp only [List.cons_append, marksOf, ih, List.append_assoc]

theorem marksOf_singleton (s : Statement) : marksOf [s] = s.marks := by
  simp only [marksOf, List.append_nil]

/-- An open frame, written out; an open element has no end tag yet. -/
def Frame.marks : Frame → List Mark
  | .block body => marksOf body
  | .element tag children span => tag.mark span.start :: marksOf children

theorem Frame.push_marks (s : Statement) (f : Frame) : (f.push s).marks = f.marks ++ s.marks := by
  cases f with
  | block body => simp only [Frame.push, Frame.marks, marksOf_append, marksOf_singleton]
  | element tag children span =>
    simp only [Frame.push, Frame.marks, marksOf_append, marksOf_singleton, List.cons_append]

/-- Open frames, written out from the outermost to the innermost. -/
def framesMarks (frames : List Frame) : List Mark := frames.reverse.flatMap Frame.marks

theorem framesMarks_cons (f : Frame) (rest : List Frame) :
    framesMarks (f :: rest) = framesMarks rest ++ f.marks := by
  simp [framesMarks]

/-- The mark of a tag that is still being read. -/
def PendingTag.mark : PendingTag → Mark
  | .opening tag start => tag.mark start
  | .closing name start => .endTag name start

theorem PendingTag.mark_pushName (t : PendingTag) (c : Char) :
    (t.pushName c).mark = t.mark.push c := by
  cases t <;> rfl

theorem PendingTag.mark_selfClosing (t : PendingTag) :
    (t.onStartTag fun tag => { tag with selfClosing := true }).mark = t.mark.markSelfClosing := by
  cases t <;> rfl

/-- The mark of an attribute that is still being read. -/
def PendingAttr.mark (a : PendingAttr) : AttrMark :=
  ⟨a.name, some ((a.text.map (·.chars)).getD ""), .point a.start⟩

/-- An attribute that is still being read and has no tags in braces. -/
structure PendingAttr.Plain (a : PendingAttr) : Prop where
  parts : a.parts = []
  dynamic : a.dynamic = false

theorem PendingAttr.Plain.pushValue {a : PendingAttr} (h : a.Plain) (c : Char) (pos : Nat) :
    (a.pushValue c pos).Plain := by
  rw [PendingAttr.pushValue]
  split
  · exact ⟨h.parts, h.dynamic⟩
  · exact ⟨h.parts, h.dynamic⟩

theorem PendingAttr.mark_pushValue (a : PendingAttr) (c : Char) (pos : Nat) :
    (a.pushValue c pos).mark = { a.mark with value := a.mark.value.map (·.push c) } := by
  rw [PendingAttr.pushValue]
  cases htext : a.text with
  | none => simp [PendingAttr.mark, htext]
  | some node => simp [PendingAttr.mark, htext]

theorem PendingAttr.finishText_name (a : PendingAttr) (stop : Nat) :
    (a.finishText stop).name = a.name := by
  rw [PendingAttr.finishText]
  split <;> rfl

theorem PendingAttr.finishText_start (a : PendingAttr) (stop : Nat) :
    (a.finishText stop).start = a.start := by
  rw [PendingAttr.finishText]
  split <;> rfl

/-- The value of an attribute without braces is its text. -/
theorem PendingAttr.Plain.attrValue {a : PendingAttr} {value : AttrValue} {stop : Nat} {span : Span}
    (h : a.Plain) (hvalue : attrValue (a.finishText stop) span = .ok value) :
    value.text? = a.mark.value := by
  rw [PendingAttr.finishText] at hvalue
  rw [PendingAttr.mark]
  cases htext : a.text with
  | none =>
    simp only [htext, Template.attrValue, h.dynamic, h.parts, Bool.false_eq_true, if_false]
      at hvalue
    cases hvalue
    rfl
  | some node =>
    simp only [htext, Template.attrValue, h.dynamic, h.parts, Bool.false_eq_true, if_false,
      List.nil_append] at hvalue
    cases hvalue
    rfl

/-- A start tag without an attribute named `as` declares nothing. -/
theorem extractBlockParams_plain {tag kept : StartTag} (has : "as" ∉ tag.attributes.map (·.name))
    (h : extractBlockParams tag = .ok kept) : kept = tag := by
  have hdrop : (tag.attributes.map (·.name)).dropWhile (· ≠ "as") = [] := by
    rw [List.dropWhile_eq_nil_iff]
    intro name hname
    simp only [decide_eq_true_eq]
    rintro rfl
    exact has hname
  rw [extractBlockParams] at h
  simp only [hdrop, ite_eq_ok, reduceCtorEq, and_false, false_or, Except.ok.injEq] at h
  exact h.2.symm

namespace Builder

variable {source : Source} {base : List Frame} {b b' : Builder} {c : Collector}

theorem append_marks (h : Over base b.frames) (s : Statement) :
    framesMarks (b.append s).frames = framesMarks b.frames ++ s.marks := by
  rw [append]
  cases hframes : b.frames with
  | nil =>
    rw [hframes] at h
    cases h
  | cons f rest =>
    simp only [framesMarks_cons, Frame.push_marks, List.append_assoc]

@[simp] theorem append_warnings (b : Builder) (s : Statement) :
    (b.append s).warnings = b.warnings := by
  rw [append]
  split <;> rfl

/-! ### In step -/

/-- The mark of what is still being read in a region. -/
def openMark (b : Builder) : Region → Option Mark
  | .text => b.text.map fun t => .chars t.chars t.span
  | .comment => b.comment.map fun t => .comment t.value t.span
  | .tag | .name | .value => b.tag.map PendingTag.mark

/-- A builder and a collector have read the same.  `running` says whether a run
of text is open. -/
structure InStep (r : Region) (running : Bool) (b : Builder) (c : Collector) : Prop where
  tokens : c.tokens.map Token.mark = framesMarks b.frames
  current : c.current.map Token.mark = b.openMark r
  pending : c.pending.map Attribute.mark = b.attr.map PendingAttr.mark
  running : b.text.isSome = running
  plain : ∀ a ∈ b.attr, a.Plain
  unvalued : r = .name → ∀ a ∈ b.attr, a.text = none
  warnings : b.warnings = c.problems.map fun p => warning p.1 p.2

/-- What ends joins both: a token on one side, and its mark on the other. -/
theorem InStep.close {r : Region} {running : Bool} {mark : Mark} {pos : Nat}
    (h : InStep r running b c) (hcurrent : c.current.map Token.mark = some mark)
    (hframes : framesMarks b'.frames = framesMarks b.frames ++ [mark.endAt pos])
    (htext : b'.text = none) (hattr : b'.attr = none ∧ b.attr = none)
    (hwarnings : b'.warnings = b.warnings) : InStep .text false b' (c.close pos) := by
  obtain ⟨htokens, hclose⟩ := Collector.close_tokens hcurrent pos
  rw [hclose]
  refine ⟨?_, ?_, ?_, ?_, ?_, by simp, ?_⟩
  · rw [htokens, h.tokens, hframes]
  · rw [openMark, htext]
    rfl
  · rw [hattr.1, ← hattr.2]
    exact h.pending
  · rw [htext]
    rfl
  · rw [hattr.1]
    simp
  · rw [hwarnings]
    exact h.warnings

/-- A tag that ends. -/
theorem finishTag_inStep {pos : Nat} (hin : Inside base .tag b) (hclosing : b.Closing)
    (h : InStep .tag false b c)
    (has : ∀ token ∈ (c.close pos).tokens, "as" ∉ token.attributeNames)
    (hobs : b.finishTag source pos = .ok b') : InStep .text false b' (c.close pos) := by
  obtain ⟨hsome, hattr, -⟩ := hin.reads
  have htext : b.text = none := by simpa using h.running
  have hcurrent : ∀ {tag}, b.tag = some tag → c.current.map Token.mark = some tag.mark := by
    intro tag htag
    rw [h.current, openMark, htag]
    rfl
  -- Without the name `as` no attributes spell block parameters.
  have hplain : ∀ {tag kept start}, b.tag = some (.opening tag start) →
      extractBlockParams tag = .ok kept → kept = tag := by
    intro tag kept start htag hkept
    refine extractBlockParams_plain ?_ hkept
    obtain ⟨token, htoken, hmark⟩ := Option.map_eq_some_iff.mp (hcurrent htag)
    have hlast := has (token.endAt pos) (by simp [Collector.close, htoken])
    rw [← Token.mark_attributeNames, Token.mark_endAt, hmark] at hlast
    simpa [PendingTag.mark, StartTag.mark, Mark.endAt, Mark.attributeNames, Attr.mark] using hlast
  cases finishTag_runs hobs with
  | absent hnone => simp [hnone] at hsome
  | complete htag _ hkept hcomplete =>
    obtain rfl := hplain htag hkept
    refine h.close (hcurrent htag) ?_ ((append_text _ _).trans htext)
      ⟨(append_attr _ _).trans hattr, hattr⟩ (append_warnings _ _)
    rw [append_marks (b := { b with tag := none }) hin.above]
    simp only [Statement.marks, marksOf, StartTag.endMarks, Bool.or_eq_true, hcomplete, if_true,
      List.append_nil]
    rfl
  | opened htag _ hkept =>
    obtain rfl := hplain htag hkept
    refine h.close (hcurrent htag) ?_ htext ⟨hattr, hattr⟩ rfl
    rw [push, framesMarks_cons]
    simp only [Frame.marks, marksOf]
    rfl
  | @closed tag children span rest _ htag _ hframes =>
    refine h.close (hcurrent htag) ?_ ((append_text _ _).trans htext)
      ⟨(append_attr _ _).trans hattr, hattr⟩ (append_warnings _ _)
    have hopens := (hclosing (.element tag children span) (by simp [hframes])).1
    have hover := hin.above
    rw [hframes] at hover ⊢
    cases hover with
    | element hrest =>
      rw [append_marks (b := { b with tag := none, frames := rest }) hrest, framesMarks_cons]
      simp only [Statement.marks, Frame.marks, hopens.endMarks, List.append_assoc,
        List.cons_append]
      rfl

/-- An attribute that ends joins the start tag of both. -/
theorem finishAttr_inStep {running : Bool} {pos : Nat} (hin : Inside base .value b)
    (h : InStep .value running b c) (hobs : b.finishAttr pos = .ok b') :
    InStep .tag running b' (c.closeAttribute pos) := by
  obtain ⟨hsome, ⟨a, hattr, -⟩, -⟩ := hin.reads
  obtain ⟨q, hpending, hmark⟩ := Option.map_eq_some_iff.mp (h.pending.trans (by rw [hattr]; rfl))
  cases finishAttr_runs hobs with
  | absent hnone => cases hnone.symm.trans hattr
  | dropped hnone => simp [hnone] at hsome
  | joined hattr' hfinish htag hvalue =>
    cases hattr.symm.trans hattr'
    subst hfinish
    have hvalue' := (h.plain a hattr).attrValue hvalue
    rw [Collector.closeAttribute, hpending]
    refine ⟨h.tokens, ?_, rfl, h.running, by simp, by simp, h.warnings⟩
    obtain ⟨token, htoken, htagMark⟩ :=
      Option.map_eq_some_iff.mp (h.current.trans (by rw [openMark, htag]; rfl))
    simp only [htoken, Option.map_some, Token.mark_addAttribute, htagMark, openMark]
    simp only [Attribute.mark, PendingAttr.mark, AttrMark.mk.injEq, Span.point] at hmark hvalue'
    simp only [PendingTag.mark, StartTag.mark, Mark.addAttribute, Attr.mark, Attribute.mark,
      hvalue', hmark.1, hmark.2.1, hmark.2.2, PendingAttr.finishText_name,
      PendingAttr.finishText_start, List.map_append, List.map_cons, List.map_nil]

/-- A change to the attribute that is being read. -/
theorem InStep.onAttr {r r' : Region} {running : Bool} {f : PendingAttr → PendingAttr}
    {g : Attribute → Attribute} (h : InStep r running b c) (hopen : b.openMark r' = b.openMark r)
    (hmark : ∀ a q, b.attr = some a → q.mark = a.mark → (g q).mark = (f a).mark)
    (hplain : ∀ a, a.Plain → (f a).Plain)
    (hunvalued : r' = .name → ∀ a, b.attr = some a → (f a).text = none) :
    InStep r' running { b with attr := b.attr.map f } { c with pending := c.pending.map g } := by
  refine { h with current := ?_, pending := ?_, plain := ?_, unvalued := ?_ }
  · exact h.current.trans hopen.symm
  -- The collector has a pending attribute when the builder has one, and only then.
  · have hpending := h.pending
    cases hattr : b.attr with
    | none =>
      rw [hattr] at hpending
      rw [Option.map_eq_none_iff.mp hpending]
      rfl
    | some a =>
      rw [hattr] at hpending
      obtain ⟨q, hq, hqa⟩ := Option.map_eq_some_iff.mp hpending
      rw [hq]
      exact congrArg some (hmark a q hattr hqa)
  · intro a' ha'
    obtain ⟨a, ha, rfl⟩ := Option.map_eq_some_iff.mp ha'
    exact hplain a (h.plain a ha)
  · intro hr a' ha'
    obtain ⟨a, ha, rfl⟩ := Option.map_eq_some_iff.mp ha'
    exact hunvalued hr a ha

/-- One event keeps a builder and a collector in step. -/
theorem observe_inStep {r r' : Region} {p : Place} {e : Event} (hin : Inside base r b)
    (hclosing : b.Closing) (hlead : Event.leadsTo? r e = some r') (hfits : e.Fits p)
    (h : InStep r p.running b c)
    (has : ∀ token ∈ (c.observe e).tokens, "as" ∉ token.attributeNames)
    (hobs : b.observe source e = .ok b') : InStep r' (e.move p).running b' (c.observe e) := by
  have hreads := hin.reads
  cases e with
  | reset => exact hfits.elim
  | tagOpen pos =>
    cases r <;> cases hlead
    cases hobs
    exact { h with running := h.running.trans hfits.1 }
  | beginData pos =>
    cases r <;> cases hlead
    cases hobs
    exact { h with current := rfl, running := rfl, unvalued := by simp }
  | data ch =>
    cases r <;> cases hlead
    cases hobs
    refine { h with current := ?_, running := ?_ }
    · rw [Collector.observe, Collector.current_push, h.current]
      simp only [openMark, Option.map_map]
      rfl
    · rw [Option.isSome_map]
      exact h.running
  | finishData pos =>
    cases r <;> cases hlead
    obtain ⟨t, htext⟩ := Option.isSome_iff_exists.mp (h.running.trans hfits.1)
    simp only [observe, htext] at hobs
    cases hobs
    have hcurrent : c.current.map Token.mark = some (.chars t.chars t.span) := by
      rw [h.current, openMark, htext]
      rfl
    refine h.close hcurrent ?_ (append_text _ _) ⟨(append_attr _ _).trans hreads.2.1, hreads.2.1⟩
      (append_warnings _ _)
    rw [append_marks (b := { b with text := none }) hin.above]
    simp only [Statement.marks, Mark.endAt]
  | beginComment pos =>
    cases r <;> cases hlead
    cases hobs
    exact { h with current := rfl, unvalued := by simp }
  | commentData ch =>
    cases r <;> cases hlead
    cases hobs
    refine { h with current := ?_ }
    rw [Collector.observe, Collector.current_push, h.current]
    simp only [openMark, Option.map_map]
    rfl
  | finishComment pos =>
    cases r <;> cases hlead
    obtain ⟨t, hcomment⟩ := Option.isSome_iff_exists.mp hreads.2.2
    simp only [observe, hcomment] at hobs
    cases hobs
    have htext : b.text = none := by simpa [hfits.1] using h.running
    have hcurrent : c.current.map Token.mark = some (.comment t.value t.span) := by
      rw [h.current, openMark, hcomment]
      rfl
    refine h.close hcurrent ?_ ((append_text _ _).trans htext)
      ⟨(append_attr _ _).trans hreads.2.1, hreads.2.1⟩ (append_warnings _ _)
    rw [append_marks (b := { b with comment := none }) hin.above]
    simp only [Statement.marks, Mark.endAt]
  | beginStartTag pos =>
    cases r <;> cases hlead
    cases hobs
    exact { h with current := rfl, unvalued := by simp }
  | beginEndTag pos =>
    cases r <;> cases hlead
    cases hobs
    exact { h with current := rfl, unvalued := by simp }
  | tagName ch =>
    cases r <;> cases hlead
    cases hobs
    refine { h with current := ?_ }
    rw [Collector.observe, Collector.current_push, h.current]
    simp only [openMark, Option.map_map]
    exact congrArg (b.tag.map ·) (funext fun t => (t.mark_pushName ch).symm)
  | selfClosing =>
    cases r <;> cases hlead
    cases hobs
    refine { h with current := ?_ }
    rw [Collector.observe, Collector.current_markSelfClosing, h.current]
    simp only [openMark, Option.map_map]
    exact congrArg (b.tag.map ·) (funext fun t => t.mark_selfClosing.symm)
  | finishTag pos =>
    cases r <;> cases hlead
    rw [hfits.1] at h
    exact finishTag_inStep hin hclosing h has hobs
  | beginAttribute pos =>
    cases r <;> cases hlead
    cases hobs
    refine { h with pending := rfl, plain := ?_, unvalued := ?_ }
    · rintro a ⟨⟩
      exact ⟨rfl, rfl⟩
    · rintro - a ⟨⟩
      rfl
  | attributeName ch =>
    cases r <;> cases hlead
    cases hobs
    refine h.onAttr rfl (fun a q _ hmark => ?_) (fun a ha => ⟨ha.parts, ha.dynamic⟩)
      fun _ a ha => h.unvalued rfl a ha
    simp only [Attribute.mark, PendingAttr.mark, AttrMark.mk.injEq] at hmark ⊢
    rw [hmark.1]
    exact ⟨rfl, hmark.2⟩
  | beginAttributeValue quoted pos =>
    cases r <;> cases hlead
    cases hobs
    refine h.onAttr rfl (fun a q ha hmark => ?_) (fun a ha => ⟨ha.parts, ha.dynamic⟩) (by simp)
    -- Nothing of the value has come yet.
    simp only [Attribute.mark, PendingAttr.mark, h.unvalued rfl a ha] at hmark ⊢
    exact hmark
  | attributeValue ch pos =>
    cases r <;> cases hlead
    cases hobs
    refine h.onAttr rfl (fun a q _ hmark => ?_) (fun a ha => ha.pushValue ch pos) (by simp)
    rw [PendingAttr.mark_pushValue, ← hmark]
    rfl
  | finishAttributeValue pos =>
    cases r <;> cases hlead
    exact finishAttr_inStep hin h hobs
  | problem problem pos =>
    cases r <;> cases hlead <;> cases hobs
    · refine { h with warnings := ?_ }
      simp [Collector.observe, h.warnings]
    · refine { h with warnings := ?_ }
      simp [Collector.observe, h.warnings]

/-- Events keep a builder and a collector in step, one after the other. -/
theorem observeAll_inStep {r r' : Region} {p : Place} {events : List Event} {hi : Nat}
    (hin : Inside base r b) (hclosing : b.Closing) (hlead : Markup.leadTo? r events = some r')
    (hfit : Markup.FitAll p events hi) (h : InStep r p.running b c)
    (has : ∀ token ∈ (c.observeAll events).tokens, "as" ∉ token.attributeNames)
    (hobs : b.observeAll source events = .ok b') :
    InStep r' (Markup.moveAll p events).running b' (c.observeAll events) := by
  induction events generalizing b c p r with
  | nil =>
    cases hlead
    cases hobs
    exact h
  | cons e rest ih =>
    obtain ⟨r₁, hlead₁, hlead⟩ := Markup.leadTo?_cons.mp hlead
    obtain ⟨b₁, h₁, hobs⟩ := observeAll_cons.mp hobs
    have hbegins := ((c.observe e).tokens_observeAll hlead).subset
    have hstep := observe_inStep hin hclosing hlead₁ hfit.1 h (fun t ht => has t (hbegins ht)) h₁
    exact ih (observe_inside hin hlead₁ h₁).1 (observe_closing hclosing h₁) hlead hfit.2 hstep has
      hobs

/-- A piece of text, read to its end. -/
theorem read_inStep {m : Markup.Machine} {p : Place} {input : List Char}
    (hin : Inside base m.state.region b) (hclosing : b.Closing) (hat : m.At p)
    (h : InStep m.state.region p.running b c)
    (has : ∀ token ∈ (c.observeAll (m.read input).2).tokens, "as" ∉ token.attributeNames)
    (hobs : b.observeAll source (m.read input).2 = .ok b') :
    ∃ q, (m.read input).1.At q ∧
      InStep (m.read input).1.state.region q.running b' (c.observeAll (m.read input).2) := by
  fun_induction Markup.Machine.read m input generalizing b c p
  case case1 m =>
    cases hobs
    exact ⟨p, hat, h⟩
  case case2 m ch rest next result ih =>
    obtain ⟨b₁, h₁, hobs⟩ := observeAll_append.mp hobs
    rw [Collector.observeAll_append] at has ⊢
    have hmoves := Markup.Machine.step_moves hat ch rest
    have hin₁ := (observeAll_inside hin (m.step_leads ch rest) h₁).1
    have hbegins := ((c.observeAll next.events).tokens_observeAll
      (next.machine.read_leads next.rest)).subset
    have hstep := observeAll_inStep hin hclosing (m.step_leads ch rest) hmoves.fits h
      (fun t ht => has t (hbegins ht)) h₁
    exact ih hin₁ (observeAll_closing hclosing h₁) hmoves.at_next hstep has hobs

/-! ### Templates -/

/-- Before anything is read, nothing differs. -/
theorem inStep_start (m : Markup.Machine) :
    InStep .text false { machine := m, frames := [.block []] } {} := by
  refine ⟨?_, rfl, rfl, rfl, by simp, by simp, rfl⟩
  simp [framesMarks, Frame.marks, marksOf]

/-- A text that is read from the start and ended. -/
theorem text_inStep {mode : Markup.Mode} {text : List Char} {machine : Markup.Machine}
    (has : ∀ token ∈ (Markup.tokenize mode text).1, "as" ∉ token.attributeNames)
    (hobs : observeAll source { machine, frames := [.block []] }
      ((Markup.Machine.read { mode } text).2 ++ (Markup.Machine.read { mode } text).1.flush.2)
        = .ok b') :
    ∃ r running c, InStep r running b' c ∧ Markup.tokenize mode text = (c.tokens, c.problems) := by
  rw [Markup.tokenize_eq, Collector.observeAll_append] at has
  rw [Markup.tokenize_eq, Collector.observeAll_append]
  generalize hm : ({ mode } : Markup.Machine) = m at *
  obtain ⟨b₁, h₁, h₂⟩ := observeAll_append.mp hobs
  have hin : Inside [] m.state.region { machine, frames := [.block []] } := by
    rw [← hm]
    exact ⟨.block, rfl, rfl, rfl⟩
  have hclosing : Closing { machine, frames := [.block []] } := by
    rintro f ⟨⟩
    · exact .nil
    · contradiction
  have hat : m.At ⟨false, 0, 0⟩ := by
    rw [← hm]
    exact ⟨rfl, by simp, Nat.zero_le _⟩
  have hstart : InStep m.state.region false { machine, frames := [.block []] } {} := by
    rw [← hm]
    exact inStep_start machine
  -- The tokens that are there after the reading stay when it is flushed.
  have hbegins := ((Collector.observeAll {} (m.read text).2).tokens_observeAll
    (m.read text).1.flush_leads).subset
  obtain ⟨q, hat₁, hread⟩ := read_inStep hin hclosing hat hstart
    (fun t ht => has t (hbegins ht)) h₁
  have hin₁ := (observeAll_inside hin (m.read_leads text) h₁).1
  exact ⟨_, _, _, observeAll_inStep hin₁ (observeAll_closing hclosing h₁)
    (m.read text).1.flush_leads (Markup.Machine.flush_moves hat₁).1 hread has h₂, rfl⟩

/-- The builder of a template without braces follows the events of its text. -/
theorem nodes_plain {text : String} (hoffset : b.machine.offset = 0)
    (hstate : b.machine.state = .beforeData) :
    b.nodes source (Mustache.plainBody text) =
      observeAll source { b with machine := (b.machine.read text.toList).1.flush.1 }
        ((b.machine.read text.toList).2 ++ (b.machine.read text.toList).1.flush.2) := by
  rw [Mustache.plainBody]
  split
  · next hempty =>
    rw [nodes, List.isEmpty_iff.mp hempty, Markup.Machine.read, Markup.Machine.flush,
      if_neg (by simp [hstate])]
    rfl
  · have hmove : b.machine.moveTo 0 = b.machine := by
      rw [Markup.Machine.moveTo, ← hoffset]
    simp only [nodes, node, content, Mustache.Content.ofText, Span.ofOffsets, Nat.zero_min, hmove]
    exact bind_pure _

end Builder

/-- The program of a template without braces is the one run of its text. -/
theorem builtProgram_plain {text : String} (mode : Markup.Mode)
    (hplain : ¬ ['{', '{'] <:+: text.toList) :
    ∃ program, Mustache.parseProgram (Mustache.lex text) = .ok program ∧
      (builtProgram mode program).body = Mustache.plainBody text := by
  have hmap := Mustache.parseProgram_plain hplain
  cases hprogram : Mustache.parseProgram (Mustache.lex text) with
  | error fault =>
    rw [hprogram] at hmap
    cases hmap
  | ok program =>
    rw [hprogram] at hmap
    have hbody : program.body = Mustache.plainBody text := Except.ok.inj hmap
    refine ⟨program, rfl, ?_⟩
    cases mode with
    | precompile =>
      show Mustache.stripBody true [] program.body = _
      rw [hbody, Mustache.stripBody_plainBody]
    | codemod => exact hbody

/-- The run of the builder on a template without braces. -/
theorem parse_plain {source : Source} {mode : Markup.Mode} {t : Template}
    {warnings : List Diagnostic} (hplain : ¬ ['{', '{'] <:+: source.text.toList)
    (h : parse source mode = .ok (t, warnings)) :
    let m := Markup.Machine.read { mode } source.text.toList
    ∃ b : Builder,
      Builder.observeAll source { machine := m.1.flush.1, frames := [.block []] }
        (m.2 ++ m.1.flush.2) = .ok b ∧
      b.frames = [.block t.body] ∧ b.warnings = warnings := by
  obtain ⟨program, hprogram, hbuild⟩ := parse_eq_ok.mp h
  obtain ⟨program', hprogram', hbody⟩ := builtProgram_plain mode hplain
  obtain rfl : program' = program := Except.ok.inj (hprogram'.symm.trans hprogram)
  obtain ⟨block, b₂, hrun, rfl, rfl⟩ := build_eq_ok.mp hbuild
  obtain ⟨b₁, h₁, hend⟩ := Builder.program_eq_ok.mp hrun
  have hin := (Builder.nodes_balance _ (Builder.idle_start mode).push h₁).1
  obtain ⟨-, -, -, -, hframes⟩ := Builder.endProgram_idle hin hend
  rw [hbody, Builder.nodes_plain rfl rfl] at h₁
  refine ⟨b₁, h₁, hframes, ?_⟩
  obtain ⟨-, body, rest, -, -, rfl⟩ := Builder.endProgram_eq_ok.mp hend
  rfl

/-- If the builder comes to the end of a template without braces, between tags and with nothing
open, the template is parsed. -/
theorem parse_of_plain (source : Source) (mode : Markup.Mode) {m : Markup.Machine}
    {events : List Event} {b : Builder} {body : List Statement}
    (hplain : ¬ ['{', '{'] <:+: source.text.toList)
    (hread : Markup.Machine.read { mode } source.text.toList = (m, events))
    (h : Builder.observeAll source { machine := m.flush.1, frames := [.block []] }
      (events ++ m.flush.2) = .ok b)
    (hstate : b.machine.state.isData = true) (hframes : b.frames = [.block body]) :
    ∃ span, parse source mode = .ok (⟨body, span⟩, b.warnings) := by
  obtain ⟨program, hprogram, hbody⟩ := builtProgram_plain mode hplain
  refine ⟨(builtProgram mode program).span, parse_eq_ok.mpr ⟨program, hprogram, ?_⟩⟩
  have hnodes : Builder.nodes source (Builder.push { machine := { mode } } (.block []))
      (builtProgram mode program).body = .ok b := by
    rw [hbody, Builder.nodes_plain rfl rfl, Builder.push, hread]
    exact h
  have hend : ∀ names chained span, b.endProgram names chained span
      = .ok (⟨body, names, chained, span⟩, { b with frames := [] }) := fun _ _ _ =>
    Builder.endProgram_eq_ok.mpr ⟨hstate, body, [], hframes, rfl, rfl⟩
  rw [build, Builder.program, hnodes]
  exact congrArg (· >>= _) (hend _ _ _)

/-- A template without braces and block parameters, written out, is the list of its tokens, and
its warnings are their problems. -/
theorem marks_parse {source : Source} {mode : Markup.Mode} {t : Template}
    {warnings : List Diagnostic} (hplain : ¬ ['{', '{'] <:+: source.text.toList)
    (has : ∀ token ∈ (Markup.tokenize mode source.text.toList).1, "as" ∉ token.attributeNames)
    (h : parse source mode = .ok (t, warnings)) :
    (Markup.tokenize mode source.text.toList).1.map Token.mark = marksOf t.body ∧
      warnings.map (fun w => (w.message, w.primarySpan?))
        = (Markup.tokenize mode source.text.toList).2.map
          fun p => (p.1.message, some (Span.point p.2)) := by
  obtain ⟨b, hobs, hframes, rfl⟩ := parse_plain hplain h
  obtain ⟨r, running, c, hstep, htokenize⟩ := Builder.text_inStep has hobs
  rw [htokenize]
  constructor
  · rw [hstep.tokens, hframes]
    simp [framesMarks, Frame.marks]
  · rw [hstep.warnings, List.map_map]
    rfl

/-- A tag with a stray character, an element that is void and one that closes itself, and a
comment. -/
def plainTags : Source := ⟨"<p a'=1 b>x<br><i/></p><!--c-->", ""⟩

theorem marks_parse_tags :
    ¬ ['{', '{'] <:+: plainTags.text.toList ∧
      ∃ t warnings, parse plainTags .precompile = .ok (t, warnings) ∧
        marksOf t.body
          = [.startTag "p" [⟨"a'", some "1", ⟨3, 7⟩⟩, ⟨"b", some "", ⟨8, 9⟩⟩] false 0,
            .chars "x" ⟨10, 11⟩, .startTag "br" [] false 11, .startTag "i" [] true 15,
            .endTag "p" 23, .comment "c" ⟨23, 31⟩] ∧
        warnings.map (fun w => (w.message, w.primarySpan?))
          = [("' is not a valid character within attribute names", some (.point 4))] := by
  have hplain : ¬ ['{', '{'] <:+: plainTags.text.toList := by decide
  have htokens : (Markup.tokenize .precompile plainTags.text.toList).1
      = [.startTag "p" [⟨"a'", "1", false, ⟨3, 7⟩⟩, ⟨"b", "", false, ⟨8, 9⟩⟩] false ⟨0, 10⟩,
        .chars "x" ⟨10, 11⟩, .startTag "br" [] false ⟨11, 15⟩, .startTag "i" [] true ⟨15, 19⟩,
        .endTag "p" ⟨19, 23⟩, .comment "c" ⟨23, 31⟩] := by decide +kernel
  have hproblems : (Markup.tokenize .precompile plainTags.text.toList).2
      = [(.strayInName '\'', 4)] := by decide +kernel
  have hrun : (parse plainTags .precompile).toOption.map (fun _ => ()) = some () := by
    decide +kernel
  obtain ⟨⟨t, warnings⟩, hparse, -⟩ := ok_of_map_toOption hrun
  obtain ⟨hmarks, hwarnings⟩ := marks_parse hplain (by rw [htokens]; decide) hparse
  rw [htokens] at hmarks
  rw [hproblems] at hwarnings
  exact ⟨hplain, t, warnings, hparse, hmarks.symm, hwarnings⟩

end TemplateCompiler.Template
