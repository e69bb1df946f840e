/-
Texts that are written with numeric references compile to themselves.

* `Machine.go` — some steps of a reader;
* `Builder.observeAll_attributeValue` — characters that are told one by one join the value
  that is being read;
* `parse_referenced`, `parse_referencedTitle` — a text written with references, alone and as
  the value of an attribute, is parsed to one text node;
* `compile_referenced` — so it compiles to that text, alone and in an attribute, whatever
  its characters.
-/
import TemplateCompiler.Compile.Basic
import TemplateCompiler.Proofs.Markup.References
import TemplateCompiler.Proofs.Resolved.Steps
import TemplateCompiler.Proofs.Template.Flattening
import TemplateCompiler.Proofs.Template.Text

namespace TemplateCompiler.Markup

open Text (byteLength)

/-! ### Reading -/

namespace Machine

/-- Some steps of a reader: what it tells, where it is then, and what is left. -/
def go : Nat → Machine → List Char → List Event × Machine × List Char
  | 0, m, input => ([], m, input)
  | _ + 1, m, [] => ([], m, [])
  | n + 1, m, c :: rest =>
    let next := m.step c rest
    let (events, m', left) := go n next.machine next.rest
    (next.events ++ events, m', left)

theorem ReadsTo.of_go {n : Nat} {m m' : Machine} {input rest : List Char} {events : List Event}
    (h : go n m input = (events, m', rest)) : m.ReadsTo input events m' rest := by
  induction n generalizing m input events with
  | zero =>
    cases h
    exact .refl
  | succ n ih =>
    cases input with
    | nil =>
      cases h
      exact .refl
    | cons c input =>
      cases h
      exact (ReadsTo.step m c input).trans (ih rfl)

theorem ReadsTo.read_eq {m m' : Machine} {input : List Char} {events : List Event}
    (h : m.ReadsTo input events m' []) : m.read input = (m', events) := by
  rw [ReadsTo, read, List.append_nil] at h
  exact h

/-- A text written with references, when nothing is open, is told as a run of text. -/
theorem read_referenced {text written : List Char} (h : Referenced text written)
    (hne : text ≠ []) (hnull : '\x00' ∉ text) :
    ∃ m' : Machine, m'.state = .data ∧
      Machine.read { mode := .precompile } written = (m', .beginData 0 :: text.map .data) := by
  obtain ⟨values, hvalues, hreads⟩ := h.reads hnull
    (m := { mode := .precompile, state := .data }) rfl (fun c _ => .data c)
    (fun offset rest => rfl) []
  have hdata : values.map (fun value => Event.data value.1) = text.map Event.data := by
    rw [← hvalues, List.map_map]
    rfl
  rw [List.append_nil, hdata] at hreads
  obtain ⟨body, hbegin⟩ : ∃ body, written = '&' :: body := by
    cases h with
    | nil => exact absurd rfl hne
    | cons hc _ =>
      rw [List.mem_cons, not_or] at hnull
      obtain ⟨body, rfl, -⟩ := hc.resolves (Ne.symm hnull.1)
      exact ⟨_, rfl⟩
  have hfirst : Machine.ReadsTo { mode := .precompile } written [.beginData 0]
      { mode := .precompile, state := .data } written := by
    rw [hbegin]
    exact .step _ '&' body
  exact ⟨_, rfl, (hfirst.trans hreads).read_eq⟩

/-- What is told of `<div title="`. -/
def titleOpening : List Event :=
  [.tagOpen 0, .beginStartTag 0, .tagName 'd', .tagName 'i', .tagName 'v', .beginAttribute 5,
    .attributeName 't', .attributeName 'i', .attributeName 't', .attributeName 'l',
    .attributeName 'e', .beginAttributeValue true 11]

/-- What is told of the quote behind the value, the end of the tag, and the end tag. -/
def titleClosing (stop close opened finish : Nat) : List Event :=
  [.finishAttributeValue stop, .finishTag close, .tagOpen opened, .beginEndTag opened,
    .tagName 'd', .tagName 'i', .tagName 'v', .finishTag finish]

/-- A text written with references is told as the value of an attribute. -/
theorem read_referencedTitle {text written : List Char} (h : Referenced text written)
    (hnull : '\x00' ∉ text) :
    ∃ (m' : Machine) (values : List (Char × Nat)) (stop close opened finish : Nat),
      m'.state = .beforeData ∧ values.map Prod.fst = text ∧
        Machine.read { mode := .precompile }
            ("<div title=\"".toList ++ (written ++ "\"></div>".toList)) =
          (m', titleOpening ++ (values.map (fun value => Event.attributeValue value.1 value.2) ++
            titleClosing stop close opened finish)) := by
  let inside (offset : Nat) : Machine :=
    { mode := .precompile, state := .attributeValueDoubleQuoted, tagName := "div", offset }
  have hbefore : ReadsTo { mode := .precompile }
      ("<div title=\"".toList ++ (written ++ "\"></div>".toList)) titleOpening
      (inside 12) (written ++ "\"></div>".toList) :=
    .of_go (n := 13) rfl
  obtain ⟨values, hvalues, hreads⟩ := h.reads hnull (m := inside 12) rfl .attributeValue
    (fun _ _ => rfl) "\"></div>".toList
  obtain ⟨stop, close, opened, finish, m', hstate, hbehind⟩ :
      ∃ (stop close opened finish : Nat) (m' : Machine), m'.state = .beforeData ∧
        go 8 (inside (12 + byteLength written)) "\"></div>".toList =
          (titleClosing stop close opened finish, m', []) :=
    ⟨_, _, _, _, _, rfl, rfl⟩
  have hall := hbefore.trans (hreads.trans (.of_go hbehind))
  exact ⟨m', values, stop, close, opened, finish, hstate, hvalues, hall.read_eq⟩

end Machine

end TemplateCompiler.Markup

namespace TemplateCompiler.Template

open Markup (Event Machine Referenced)

/-! ### Building -/

namespace PendingAttr

/-- The text of a value that is being read. -/
def written (a : PendingAttr) : String := (a.text.map (·.chars)).getD ""

/-- A character of the value changes the text that is being read, and nothing else. -/
theorem pushValue_eq (a : PendingAttr) (c : Char) (pos : Nat) :
    ∃ text, a.pushValue c pos = { a with text } ∧ written { a with text } = a.written.push c := by
  unfold pushValue written
  cases a.text with
  | none => exact ⟨_, rfl, rfl⟩
  | some node => exact ⟨_, rfl, rfl⟩

end PendingAttr

/-- The start tag of a `div` with a title. -/
def titledTag (text : String) (inside outside : Span) : StartTag :=
  { name := "div", attributes := [⟨"title", .text ⟨text, inside⟩, outside⟩] }

namespace Builder

variable (source : Source) {b : Builder}

/-- Characters of a value that are told one by one join the text that is being read. -/
theorem observeAll_attributeValue {a : PendingAttr} (hattr : b.attr = some a)
    (values : List (Char × Nat)) :
    ∃ text, PendingAttr.written { a with text } = a.written ++ String.ofList (values.map Prod.fst) ∧
      observeAll source b (values.map fun value => .attributeValue value.1 value.2) =
        .ok { b with attr := some { a with text } } := by
  induction values generalizing b a with
  | nil =>
    refine ⟨a.text, ?_, by rw [← hattr]; rfl⟩
    rw [List.map_nil, String.ofList_nil, String.append_empty]
  | cons value rest ih =>
    obtain ⟨text, hpush, hwritten⟩ := a.pushValue_eq value.1 value.2
    obtain ⟨text', hwritten', hrest⟩ := ih (b := { b with attr := some { a with text } }) rfl
    refine ⟨text', ?_, observeAll_cons.mpr ⟨_, ?_, hrest⟩⟩
    · rw [hwritten', hwritten, push_append, List.map_cons]
    · simp only [observe, hattr, Option.map_some, hpush]

/-- A run of text becomes a statement. -/
theorem observeAll_text (m : Machine) (chars : List Char) (pos : Nat) :
    ∃ span, observeAll source { machine := m, frames := [.block []] }
        (.beginData 0 :: chars.map Event.data ++ [Markup.Event.finishData pos]) =
      .ok { machine := m, frames := [.block [Statement.text ⟨String.ofList chars, span⟩]] } := by
  refine ⟨⟨0, pos⟩, observeAll_append.mpr
    ⟨_, observeAll_cons.mpr ⟨_, rfl, observeAll_data rfl chars⟩, ?_⟩⟩
  rw [String.empty_append]
  rfl

/-- The tag has no block parameters to be taken out. -/
theorem extractBlockParams_titledTag (text : String) (inside outside : Span) :
    extractBlockParams (titledTag text inside outside) = .ok (titledTag text inside outside) := by
  have hkeyword : ["title"].dropWhile (· ≠ "as") = [] := rfl
  have hbar : (["title"].getLast?.map startsWithBar).getD false = false := rfl
  rw [extractBlockParams]
  simp only [titledTag, List.map_cons, List.map_nil, hkeyword, hbar]
  rfl

/-- A value becomes the attribute of an element. -/
theorem observeAll_title (m : Machine) (values : List (Char × Nat))
    (stop close opened finish : Nat) :
    ∃ inside outside span, observeAll source { machine := m, frames := [.block []] }
        (Machine.titleOpening ++ (values.map (fun value => Event.attributeValue value.1 value.2) ++
          Machine.titleClosing stop close opened finish)) =
      .ok { machine := m, frames := [.block
        [.element (titledTag (String.ofList (values.map Prod.fst)) inside outside) [] span]] } := by
  let reading (text : Option TextNode) : Builder :=
    { machine := m, frames := [.block []], tag := some (.opening { name := "div" } 0)
      attr := some { name := "title", text, quoted := true, start := 5, valueStart := 11 } }
  have hopening : observeAll source { machine := m, frames := [.block []] } Machine.titleOpening =
      .ok (reading none) := rfl
  obtain ⟨text, hwritten, hvalues⟩ := observeAll_attributeValue source
    (b := reading none) rfl values
  have hclosing : observeAll source (reading text) (Machine.titleClosing stop close opened finish) =
      .ok { machine := m, frames := [.block
        [.element (titledTag ((text.map (·.chars)).getD "") ⟨11, stop⟩ ⟨5, stop⟩) []
          ⟨0, finish⟩]] } := by
    have hfinish (value : String) : observe source
        { machine := m, frames := [.block []],
          tag := some (.opening (titledTag value ⟨11, stop⟩ ⟨5, stop⟩) 0) } (.finishTag close) =
        .ok { machine := m, frames :=
          [.element (titledTag value ⟨11, stop⟩ ⟨5, stop⟩) [] ⟨0, close⟩, .block []] } := by
      rw [observe, finishTag]
      simp only [finishStartTag, extractBlockParams_titledTag]
      rfl
    cases text with
    | none => exact observeAll_cons.mpr ⟨_, rfl, observeAll_cons.mpr ⟨_, hfinish _, rfl⟩⟩
    | some node => exact observeAll_cons.mpr ⟨_, rfl, observeAll_cons.mpr ⟨_, hfinish _, rfl⟩⟩
  rw [show (text.map (·.chars)).getD "" = _ from hwritten, PendingAttr.written, Option.map_none,
    Option.getD_none, String.empty_append] at hclosing
  exact ⟨_, _, _, observeAll_append.mpr ⟨_, hopening, observeAll_append.mpr ⟨_, hvalues, hclosing⟩⟩⟩

end Builder

/-! ### Parsing -/

/-- A text written with references has no braces. -/
theorem brace_notMem_referenced {text written : List Char} (h : Referenced text written)
    (hnull : '\x00' ∉ text) : '\x7b' ∉ written := by
  induction h with
  | nil => exact List.not_mem_nil
  | cons hc _ ih =>
    rw [List.mem_cons, not_or] at hnull
    obtain ⟨body, rfl, -, hbody, -⟩ := hc.resolves (Ne.symm hnull.1)
    simp [hbody, ih hnull.2]

theorem plain_of_notMem {input : List Char} (h : '\x7b' ∉ input) :
    ¬ ['\x7b', '\x7b'] <:+: (String.ofList input).toList := by
  rw [String.toList_ofList]
  exact fun hin => h (hin.subset (by simp))

/-- A text written with references is parsed to a text node. -/
theorem parse_referenced {text written : List Char} (h : Referenced text written)
    (hne : text ≠ []) (hnull : '\x00' ∉ text) (moduleName : String) :
    ∃ inner span, parse ⟨String.ofList written, moduleName⟩ .precompile =
      .ok (⟨[.text ⟨String.ofList text, inner⟩], span⟩, []) := by
  obtain ⟨m', hstate, hread⟩ := Machine.read_referenced h hne hnull
  rw [← String.toList_ofList (l := written)] at hread
  have hflush : m'.flush = ({ m' with state := .beforeData }, [.finishData m'.pos]) := by
    rw [Machine.flush, if_pos hstate]
  obtain ⟨inner, hbuilt⟩ := Builder.observeAll_text ⟨String.ofList written, moduleName⟩
    { m' with state := .beforeData } text m'.pos
  obtain ⟨span, hparse⟩ := parse_of_plain ⟨String.ofList written, moduleName⟩ .precompile
    (plain_of_notMem (brace_notMem_referenced h hnull)) hread (by rw [hflush]; exact hbuilt) rfl rfl
  exact ⟨inner, span, hparse⟩

/-- So is such a text as the value of an attribute. -/
theorem parse_referencedTitle {text written : List Char} (h : Referenced text written)
    (hnull : '\x00' ∉ text) (moduleName : String) :
    ∃ inside outside inner span,
      parse ⟨String.ofList ("<div title=\"".toList ++ (written ++ "\"></div>".toList)), moduleName⟩
          .precompile =
        .ok (⟨[.element (titledTag (String.ofList text) inside outside) [] inner], span⟩, []) := by
  obtain ⟨m', values, stop, close, opened, finish, hstate, hvalues, hread⟩ :=
    Machine.read_referencedTitle h hnull
  have hbrace : '\x7b' ∉ "<div title=\"".toList ++ (written ++ "\"></div>".toList) := by
    simp [brace_notMem_referenced h hnull]
  -- From here on it only matters what is told of the whole text.
  generalize "<div title=\"".toList ++ (written ++ "\"></div>".toList) = whole at hread hbrace ⊢
  rw [← String.toList_ofList (l := whole)] at hread
  have hflush : m'.flush = (m', []) := by
    rw [Machine.flush, if_neg (by rw [hstate]; decide)]
  obtain ⟨inside, outside, inner, hbuilt⟩ := Builder.observeAll_title
    ⟨String.ofList whole, moduleName⟩ m' values stop close opened finish
  obtain ⟨span, hparse⟩ := parse_of_plain ⟨String.ofList whole, moduleName⟩ .precompile
    (plain_of_notMem hbrace) hread (by rw [hflush, List.append_nil]; exact hbuilt)
    (by rw [hstate]; rfl) rfl
  rw [hvalues] at hparse
  exact ⟨inside, outside, inner, span, hparse⟩

end TemplateCompiler.Template

namespace TemplateCompiler

open Markup (Referenced)
open Resolved (Content isArgumentName isBlockName isComponent plainElement statement statements
  start tagInScope tagPath run_bind_ok)
open Template (titledTag)

/-! ### Compiling -/

/-- What a template compiles to that uses no names. -/
def Compiled.nameless (statements : List Wire.Statement) : Compiled where
  program := { statements, symbols := [], hasEval := false, upvars := [] }
  usedLocals := []
  warnings := []

theorem compileTemplate_text (text : String) (inner span : Span) :
    (compileTemplate {} ⟨[.text ⟨text, inner⟩], span⟩ []).result =
      .ok (.nameless [.append (.literal (.string text)) false]) := rfl

/-- A `div` with a title is resolved to an element, and takes no symbols. -/
theorem resolve_title (text : String) (inside outside inner span : Span) :
    Template.resolve ⟨[.element (titledTag text inside outside) [] inner], span⟩ {} =
      (.ok ⟨[.element "div" ⟨[.attr "title" (.literal (.string text) inside) false outside], []⟩ []
        inner], span⟩, start {}) := by
  let tag := titledTag text inside outside
  let content : Content :=
    .element "div" ⟨[.attr "title" (.literal (.string text) inside) false outside], []⟩ [] inner
  have hblock : ¬ isBlockName tag.name = true := show ¬ isBlockName "div" = true by decide
  have hpath : tagPath tag.name = ("div", []) := show tagPath "div" = _ by decide +kernel
  have hscope : tagInScope {} (start {}).symbols "div" = false := by decide +kernel
  have hcomponent : (isComponent {} tag inner).run (start {}) = .ok false (start {}) := by
    rw [isComponent, hpath]
    exact run_bind_ok.mpr ⟨_, _, rfl, by rw [hscope]; rfl⟩
  have hargument : tag.attributes.find? (fun attr => isArgumentName attr.name) = none :=
    List.find?_cons_of_neg (show ¬ isArgumentName "title" = true by decide)
  have hplain : (plainElement {} tag inner (pure [])).run (start {}) = .ok content (start {}) := by
    rw [plainElement, hargument]
    rfl
  have hstatement : (statement {} (.element tag [] inner)).run (start {})
      = .ok content (start {}) := by
    rw [statement, if_neg hblock, statements]
    exact run_bind_ok.mpr ⟨_, _, hcomponent, hplain⟩
  have hstatements : (statements {} [.element tag [] inner]).run (start {})
      = .ok [content] (start {}) := by
    rw [statements, statements]
    exact run_bind_ok.mpr ⟨_, _, hstatement, rfl⟩
  rw [Template.resolve, hstatements]

theorem compileTemplate_title (text : String) (inside outside inner span : Span) :
    (compileTemplate {} ⟨[.element (titledTag text inside outside) [] inner], span⟩ []).result =
      .ok (.nameless [.openElement "div" false, .staticAttr "title" text none false,
        .flushElement, .closeElement]) := by
  have hresolve := resolve_title text inside outside inner span
  rw [show ({} : Resolved.Settings) = CompileOptions.settings {} from rfl] at hresolve
  simp only [compileTemplate, Plugin.runAll, hresolve]
  rfl

/-- A text whose characters are all written as references compiles to the text, and as the
value of an attribute it compiles to that value. -/
theorem compile_referenced {text written : String} (h : Referenced text.toList written.toList)
    (hnull : '\x00' ∉ text.toList) :
    (text ≠ "" → (compile {} written).result =
      .ok (.nameless [.append (.literal (.string text)) false])) ∧
    (compile {} ("<div title=\"" ++ written ++ "\"></div>")).result =
      .ok (.nameless [.openElement "div" false, .staticAttr "title" text none false,
        .flushElement, .closeElement]) := by
  constructor
  · intro hne
    obtain ⟨inner, span, hparse⟩ := Template.parse_referenced h
      (fun hnil => hne (String.toList_inj.mp hnil)) hnull defaultModuleName
    rw [String.ofList_toList, String.ofList_toList] at hparse
    rw [compile, hparse]
    exact compileTemplate_text text inner span
  · obtain ⟨inside, outside, inner, span, hparse⟩ :=
      Template.parse_referencedTitle h hnull defaultModuleName
    have hwhole : String.ofList ("<div title=\"".toList ++ (written.toList ++ "\"></div>".toList))
        = "<div title=\"" ++ written ++ "\"></div>" := by
      rw [← String.toList_inj, String.toList_ofList, String.toList_append, String.toList_append,
        List.append_assoc]
    rw [hwhole, String.ofList_toList] at hparse
    rw [compile, hparse]
    exact compileTemplate_title text inside outside inner span

/-- A bracket, braces, a quote, an ampersand and a carriage return, none of them read. -/
theorem compile_referenced_markup :
    Referenced "<\x7b\x7b\"&\r".toList "&#60;&#x7b;&#x7B;&#34;&#38;&#13;".toList ∧
      '\x00' ∉ "<\x7b\x7b\"&\r".toList ∧
      (compile {} "&#60;&#x7b;&#x7B;&#34;&#38;&#13;").result =
        .ok (.nameless [.append (.literal (.string "<\x7b\x7b\"&\r")) false]) ∧
      (compile {} ("<div title=\"" ++ "&#60;&#x7b;&#x7B;&#34;&#38;&#13;" ++ "\"></div>")).result =
        .ok (.nameless [.openElement "div" false, .staticAttr "title" "<\x7b\x7b\"&\r" none false,
          .flushElement, .closeElement]) := by
  have hlower : ['7', 'b'].map Char.toLower = Nat.toDigits 16 '\x7b'.toNat := by decide
  have hupper : ['7', 'B'].map Char.toLower = Nat.toDigits 16 '\x7b'.toNat := by decide
  have h : Referenced "<\x7b\x7b\"&\r".toList "&#60;&#x7b;&#x7B;&#34;&#38;&#13;".toList :=
    .cons .decimal (.cons (.hexadecimal hlower) (.cons (.hexadecimal hupper)
      (.cons .decimal (.cons .decimal (.cons .decimal .nil)))))
  have hnull : '\x00' ∉ "<\x7b\x7b\"&\r".toList := by decide
  obtain ⟨htext, htitle⟩ := compile_referenced h hnull
  exact ⟨h, hnull, htext (by decide), htitle⟩

end TemplateCompiler
