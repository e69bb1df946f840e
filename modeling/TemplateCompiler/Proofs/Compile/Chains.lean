/-
Chains of `else`s mean nested blocks.

* `compile_alike` — texts whose templates have the same bare form compile to one
  program, or none of them compiles;
* `Link.build_nested` — a link and the block in its place are built alike;
* `chain_compiles_as_nested` — so they compile alike, in every accepted template;
* `nested_word_callee_refused` — but the block need not close, if its callee is spelled
  otherwise in the closing tag.

Comments of the markup quote the source, and so would tell a link from a block.  The
ledger of a template says what they quote: a block around the link must not be among
it.  The link itself is not, unless a block around it is, since a branch that ends
inside a comment is refused.
-/
import TemplateCompiler.Compile.Basic
import TemplateCompiler.Proofs.Mustache.LinkPlaces
import TemplateCompiler.Proofs.Mustache.LinkTexts
import TemplateCompiler.Proofs.Template.Placeless

namespace TemplateCompiler

open Mustache (Link Node Program Lexes Cut parseProgram lex programShape ProgramMatches)
open Template (ledger)

/-! ### Templates of one form -/

variable {o : CompileOptions}

/-- Without plugins, a template is compiled from what it resolves to. -/
theorem compileTemplate_result (hplugins : o.plugins = []) (t : Template)
    (warnings : List Diagnostic) :
    (compileTemplate o t warnings).result = (t.resolve o.settings).1.map fun body =>
      { program := body.encode (t.resolve o.settings).2.symbols
        usedLocals := (t.resolve o.settings).2.symbols.usedLocals
        warnings } := by
  rw [compileTemplate, hplugins, Plugin.runAll]

/-- Without plugins, a template compiles as its bare form does. -/
theorem compileTemplate_bare (hplugins : o.plugins = []) (t : Template)
    (warnings warnings' : List Diagnostic) :
    Together (fun c c' : Compiled => c.program = c'.program)
      (compileTemplate o t warnings).result (compileTemplate o t.bare warnings').result := by
  obtain ⟨hok, hencode⟩ := Template.resolve_bare t o.settings
  rw [compileTemplate_result hplugins, compileTemplate_result hplugins]
  cases hbare : t.bare.resolve o.settings with
  | mk result' progress' =>
    cases hrun : t.resolve o.settings with
    | mk result progress =>
      rw [hbare, hrun] at hok
      cases result with
      | error fault =>
        cases result' with
        | error fault' => exact .error
        | ok body' => cases hok
      | ok body =>
        cases result' with
        | error fault' => cases hok
        | ok body' => exact .ok (hencode _ _ _ _ hbare hrun).symm

/-- Templates with the same bare form compile to one program, or none of them compiles. -/
theorem compileTemplate_alike (hplugins : o.plugins = []) {t t' : Template} (h : t.bare = t'.bare)
    (warnings warnings' : List Diagnostic) :
    Together (fun c c' : Compiled => c.program = c'.program)
      (compileTemplate o t warnings).result (compileTemplate o t' warnings').result := by
  have hfirst := compileTemplate_bare hplugins t warnings warnings
  rw [h] at hfirst
  exact hfirst.compare (compileTemplate_bare hplugins t' warnings' warnings)

/-- Texts whose templates have the same bare form compile to one program, or none of them
compiles. -/
theorem compile_alike (hplugins : o.plugins = []) {text text' : String}
    (h : Together (fun r r' : Template × List Diagnostic => r.1.bare = r'.1.bare)
      (Template.parse ⟨text, o.moduleName⟩ o.mode) (Template.parse ⟨text', o.moduleName⟩ o.mode)) :
    Together (fun c c' : Compiled => c.program = c'.program)
      (compile o text).result (compile o text').result := by
  rw [compile, compile]
  cases htext : Template.parse ⟨text, o.moduleName⟩ o.mode with
  | error fault =>
    cases htext' : Template.parse ⟨text', o.moduleName⟩ o.mode with
    | error fault' => exact .error
    | ok r' =>
      rw [htext, htext'] at h
      cases h
  | ok r =>
    cases htext' : Template.parse ⟨text', o.moduleName⟩ o.mode with
    | error fault' =>
      rw [htext, htext'] at h
      cases h
    | ok r' =>
      rw [htext, htext'] at h
      cases h with
      | ok hbare => exact compileTemplate_alike hplugins hbare _ _

namespace Mustache.Link

variable (l : Link) {p p' : Program}

theorem parse_chained (h : parseProgram (lex (String.ofList l.chained)) = .ok p) (m : String) :
    Template.parse (l.chainedSource m) .codemod
      = Template.build (l.chainedSource m) .codemod p := by
  rw [Template.parse, chainedSource, h]
  rfl

theorem parse_nested (h : parseProgram (lex (String.ofList l.nested)) = .ok p) (m : String) :
    Template.parse (l.nestedSource m) .codemod
      = Template.build (l.nestedSource m) .codemod p := by
  rw [Template.parse, nestedSource, h]
  rfl

/-- The two spellings are built into templates with the same bare form, if no comment of the markup
quotes the link with what is around it. -/
theorem build_nested (hname : l.NameCloses)
    (h : parseProgram (lex (String.ofList l.chained)) = .ok p)
    (h' : parseProgram (lex (String.ofList l.nested)) = .ok p')
    (hshape : programShape p' = programShape p) (m : String)
    (hshown : ∀ n ∈ (ledger (l.chainedSource m) .codemod p).hidden, l.Fits ∧ ¬l.Covered n.span) :
    Together (fun r r' : Template × List Diagnostic => r.1.bare = r'.1.bare)
      (Template.build (l.chainedSource m) .codemod p)
      (Template.build (l.nestedSource m) .codemod p') := by
  by_cases hfits : l.Fits
  · obtain ⟨p'', hparse, hmatch⟩ := l.parseProgram_matches hname hfits h m
    obtain rfl : p' = p'' := Except.ok.inj (h'.symm.trans hparse)
    refine Template.build_alike hmatch .codemod fun n hn span' hspan => ?_
    exact hspan.resolve_left (hshown n hn).2
  -- Nothing is quoted, so the shape is all that is needed.
  · have hmatch : ProgramMatches (fun _ _ => True) (fun _ => True) p p' :=
      Mustache.programMatches_of_shape (fun _ _ => trivial) p hshape
    exact Template.build_alike hmatch .codemod fun n hn => absurd (hshown n hn).1 hfits

end Mustache.Link

/-! ### Chains -/

/-- Chains of `else`s mean nested blocks.  Every `else` with more after it in an accepted template
is the mark of a link.  The template in which the link is a block of its own is accepted as well, if
the name in the closing tag is read as an expression that is spelled as the callee, and the two
programs differ in places and formatting only.  For a code modifier both templates compile to one
program, or none of them compiles, if no comment of the markup quotes the link with what is around
it, and no comment quotes anything in a template too long for its offsets. -/
theorem chain_compiles_as_nested {text : String} {p : Program}
    (h : parseProgram (lex text) = .ok p) :
    (∀ front t rest, lex text = front ++ t :: rest → t.isChain = true →
      ∃ l : Link, String.ofList l.chained = text ∧ l.frontCuts.map (·.place 0) = front) ∧
    ∀ l : Link, String.ofList l.chained = text → l.NameCloses →
      ∃ p', parseProgram (lex (String.ofList l.nested)) = .ok p' ∧
        programShape p' = programShape p ∧
        ∀ o : CompileOptions, o.mode = .codemod → o.plugins = [] →
          (∀ n ∈ (ledger ⟨text, o.moduleName⟩ .codemod p).hidden, l.Fits ∧ ¬l.Covered n.span) →
          Together (fun c c' : Compiled => c.program = c'.program)
            (compile o text).result (compile o (String.ofList l.nested)).result := by
  refine ⟨fun front t rest hlex ht => ?_, ?_⟩
  · rw [← String.ofList_toList (s := text)] at h hlex
    obtain ⟨l, hchained, hfront⟩ := Mustache.exists_link h ht hlex
    exact ⟨l, by rw [hchained, String.ofList_toList], hfront⟩
  rintro l rfl hname
  obtain ⟨p', hparse, hshape⟩ := l.parseProgram_shape hname h
  refine ⟨p', hparse, hshape, fun o hmode hplugins hshown => compile_alike hplugins ?_⟩
  have hbuild := l.build_nested hname h hparse hshape o.moduleName hshown
  rw [← l.parse_chained h, ← l.parse_nested hparse] at hbuild
  rw [hmode]
  exact hbuild

/-- A link with block parameters, behind a comment that quotes a tag. -/
def quotedLink : Link where
  front := ['<', '!', '-', '-', '{', '{', '!', 'a', '}', '}', '-', '-', '>', '{', '{', '#', 'i', 'f',
    ' ', 'a', '}', '}']
  strip := false
  pad := []
  gap := [' ']
  name := ['b']
  inner := [' ', 'c', ' ', 'a', 's', ' ', '|', 'x', '|', '}', '}', '{', '{', 'x', '}', '}']
  endStrip := false
  rest := ['i', 'f', '}', '}']
  frontCuts := _
  nameCuts := _
  innerCuts := _
  opening := ⟨⟨.path ⟨none, ⟨"b", .dummy⟩, []⟩, [.path ⟨none, ⟨"c", .dummy⟩, []⟩], []⟩,
    some ⟨.dummy, ⟨"x", .dummy⟩, [], .dummy⟩, ⟨false, .dummy⟩⟩
  body := [.mustache ⟨(false, false), .dummy⟩ ⟨.path ⟨none, ⟨"x", .dummy⟩, []⟩, [], []⟩ ⟨false, .dummy⟩]
  inverse := none
  pad_blank := rfl
  gap_blank := rfl
  front_lexes := .text ['<', '!', '-', '-'] rfl (by simp) (.inr rfl) <|
    .token [] '{' ['{', '!', 'a', '}', '}'] (.comment "a" {}) true rfl rfl (by decide +kernel) <|
    .text ['-', '-', '>'] rfl (by simp) (.inr rfl) <|
    .token [] '{' ['{', '#'] (.openBlock false) false rfl rfl (by decide +kernel) <|
    .token [] 'i' ['f'] (.id "if") false rfl rfl (by decide +kernel) <|
    .token [' '] 'a' [] (.id "a") false rfl rfl (by decide +kernel) <|
    .token [] '}' ['}'] (.close false) true rfl rfl (by decide +kernel) <|
    .step (Mustache.step_empty _) .nil
  mark_lexes := .of_lexeme _ false (by decide) (by decide +kernel)
  name_lexes := .token [] 'b' [] (.id "b") false rfl rfl (by decide +kernel) .nil
  inner_lexes := .token [' '] 'c' [] (.id "c") false rfl rfl (by decide +kernel) <|
    .token [' '] 'a' ['s', ' ', '|'] .openBlockParams false rfl rfl (by decide +kernel) <|
    .token [] 'x' [] (.id "x") false rfl rfl (by decide +kernel) <|
    .token [] '|' [] .closeBlockParams false rfl rfl (by decide +kernel) <|
    .token [] '}' ['}'] (.close false) true rfl rfl (by decide +kernel) <|
    .braces <|
    .token [] '{' ['{'] (.open false false) false rfl rfl (by decide +kernel) <|
    .token [] 'x' [] (.id "x") false rfl rfl (by decide +kernel) <|
    .token [] '}' ['}'] (.close false) true rfl rfl (by decide +kernel) <|
    .step (Mustache.step_empty _) .nil
  name_kinds := by decide +kernel
  link_kinds := by decide +kernel

/-- The text of the template with the link, written out. -/
def quotedText : String :=
  "<!--\x7b\x7b!a\x7d\x7d-->\x7b\x7b#if a\x7d\x7d\x7b\x7belse b c as |x|\x7d\x7d\x7b\x7bx\x7d\x7d\x7b\x7b/if\x7d\x7d"

theorem chain_compiles_as_nested_quoted :
    ∃ p p', parseProgram (lex quotedText) = .ok p ∧ String.ofList quotedLink.chained = quotedText ∧
      String.ofList quotedLink.nested
        = "<!--\x7b\x7b!a\x7d\x7d-->\x7b\x7b#if a\x7d\x7d\x7b\x7belse\x7d\x7d\x7b\x7b#b c as |x|\x7d\x7d\x7b\x7bx\x7d\x7d\x7b\x7b/b\x7d\x7d\x7b\x7b/if\x7d\x7d" ∧
      quotedLink.NameCloses ∧
      (∀ n ∈ (ledger ⟨quotedText, defaultModuleName⟩ .codemod p).hidden,
        quotedLink.Fits ∧ ¬quotedLink.Covered n.span) ∧
      parseProgram (lex (String.ofList quotedLink.nested)) = .ok p' ∧
      programShape p' = programShape p ∧
      Together (fun c c' : Compiled => c.program = c'.program)
        (compile { mode := .codemod } quotedText).result
        (compile { mode := .codemod } (String.ofList quotedLink.nested)).result := by
  -- Only the tag in the comment is hidden, and it stands in front of the link.
  have hrun : (parseProgram (lex quotedText)).toOption.map (fun p =>
      (ledger ⟨quotedText, defaultModuleName⟩ .codemod p).hidden.map Node.span)
      = some {⟨4, 10⟩} := by
    decide +kernel
  obtain ⟨p, hparse, hspans⟩ := ok_of_map_toOption hrun
  have hchained : String.ofList quotedLink.chained = quotedText := by decide +kernel
  have hname : quotedLink.NameCloses :=
    .of_cuts (.token [] 'b' [] (.id "b") false rfl rfl (by decide +kernel) .nil) rfl
  have hshown : ∀ n ∈ (ledger ⟨quotedText, defaultModuleName⟩ .codemod p).hidden,
      quotedLink.Fits ∧ ¬quotedLink.Covered n.span := by
    intro n hn
    have hspan : n.span = ⟨4, 10⟩ := by
      have hmem := Multiset.mem_map_of_mem Node.span hn
      rw [hspans] at hmem
      exact Multiset.mem_singleton.mp hmem
    rw [hspan]
    exact ⟨⟨by decide, by decide⟩, fun hcovered => absurd hcovered.2 (by decide)⟩
  obtain ⟨p', hparse', hshape, hcompile⟩ :=
    (chain_compiles_as_nested hparse).2 quotedLink hchained hname
  exact ⟨p, p', hparse, hchained, by decide +kernel, hname, hshown, hparse', hshape,
    hcompile { mode := .codemod } rfl rfl hshown⟩

/-- A link whose callee ends in a word for a value. -/
def wordLink : Link where
  front := ['{', '{', '#', 'i', 'f', ' ', 'a', '}', '}']
  strip := false
  pad := []
  gap := [' ']
  name := ['b', '.', 't', 'r', 'u', 'e']
  inner := ['.', '.', '.', 'c', '}', '}']
  endStrip := false
  rest := ['i', 'f', '}', '}']
  frontCuts := _
  nameCuts := _
  innerCuts := _
  opening := ⟨⟨.path ⟨none, ⟨"b", .dummy⟩, [(⟨'.', .dummy⟩, ⟨"true", .dummy⟩)]⟩,
    [.path ⟨none, ⟨"..", .dummy⟩, [(⟨'.', .dummy⟩, ⟨"c", .dummy⟩)]⟩], []⟩, none, ⟨false, .dummy⟩⟩
  body := []
  inverse := none
  pad_blank := rfl
  gap_blank := rfl
  front_lexes := .braces <|
    .token [] '{' ['{', '#'] (.openBlock false) false rfl rfl (by decide +kernel) <|
    .token [] 'i' ['f'] (.id "if") false rfl rfl (by decide +kernel) <|
    .token [' '] 'a' [] (.id "a") false rfl rfl (by decide +kernel) <|
    .token [] '}' ['}'] (.close false) true rfl rfl (by decide +kernel) <|
    .step (Mustache.step_empty _) .nil
  mark_lexes := .of_lexeme _ false (by decide) (by decide +kernel)
  name_lexes := .token [] 'b' [] (.id "b") false rfl rfl (by decide +kernel) <|
    .token [] '.' [] (.sep '.') false rfl rfl (by decide +kernel) <|
    .token [] 't' ['r', 'u', 'e'] (.id "true") false rfl rfl (by decide +kernel) .nil
  inner_lexes := .token [] '.' ['.'] (.id "..") false rfl rfl (by decide +kernel) <|
    .token [] '.' [] (.sep '.') false rfl rfl (by decide +kernel) <|
    .token [] 'c' [] (.id "c") false rfl rfl (by decide +kernel) <|
    .token [] '}' ['}'] (.close false) true rfl rfl (by decide +kernel) <|
    .step (Mustache.step_empty _) .nil
  name_kinds := by decide +kernel
  link_kinds := by decide +kernel

/-- Without a word in front of dots, the callee of this link is one in the closing tag, so the block
does not close. -/
theorem nested_word_callee_refused :
    String.ofList wordLink.chained
        = "\x7b\x7b#if a\x7d\x7d\x7b\x7belse b.true...c\x7d\x7d\x7b\x7b/if\x7d\x7d" ∧
      String.ofList wordLink.nested
        = "\x7b\x7b#if a\x7d\x7d\x7b\x7belse\x7d\x7d\x7b\x7b#b.true...c\x7d\x7d\x7b\x7b/b.true\x7d\x7d\x7b\x7b/if\x7d\x7d" ∧
      (∃ p, parseProgram (lex (String.ofList wordLink.chained)) = .ok p) ∧
      ∀ p, parseProgram (lex (String.ofList wordLink.nested)) ≠ .ok p := by
  let back : List Cut :=
    [⟨.openEndBlock false, 0, 3⟩, ⟨.id "if", 3, 5⟩, ⟨.close false, 5, 7⟩, ⟨.eof, 7, 7⟩]
  -- The tokens behind the link, wherever it ends.
  have hback : ∀ offset,
      Mustache.lexFrom .tag offset wordLink.after = back.map (·.place offset) := by
    intro offset
    have hlexes : Lexes .tag wordLink.after [] (back.take 3) .content :=
      .token [] '{' ['{', '/'] (.openEndBlock false) false rfl rfl (by decide +kernel) <|
      .token [] 'i' ['f'] (.id "if") false rfl rfl (by decide +kernel) <|
      .token [] '}' ['}'] (.close false) true rfl rfl (by decide +kernel) .nil
    have hlex := hlexes.lexFrom_eq offset
    rw [List.append_nil] at hlex
    rw [hlex, Mustache.lexFrom]
    rfl
  -- The name is cut into three tokens, the last of which is a value and no name.
  have hname : Lexes .tag wordLink.name ('}' :: '}' :: wordLink.after)
      [⟨.id "b", 0, 1⟩, ⟨.sep '.', 1, 2⟩, ⟨.boolean true, 2, 6⟩] .tag :=
    .token [] 'b' [] (.id "b") false rfl rfl (by decide +kernel) <|
    .token [] '.' [] (.sep '.') false rfl rfl (by decide +kernel) <|
    .token [] 't' ['r', 'u', 'e'] (.boolean true) false rfl rfl (by decide +kernel) .nil
  have hchained : (parseProgram (lex (String.ofList wordLink.chained))).isOk = true := by
    rw [wordLink.lex_chained hback]
    decide +kernel
  have hnested : (parseProgram (lex (String.ofList wordLink.nested))).isOk = false := by
    rw [wordLink.lex_nested (by decide) (by decide) hname hback]
    decide +kernel
  refine ⟨by decide +kernel, by decide +kernel, ?_, fun p hp => ?_⟩
  · cases hrun : parseProgram (lex (String.ofList wordLink.chained)) with
    | ok p => exact ⟨p, rfl⟩
    | error fault =>
      rw [hrun] at hchained
      cases hchained
  · rw [hp] at hnested
    cases hnested

end TemplateCompiler
