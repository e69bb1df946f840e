/-
Where a compile points.

* `Span.Within` — a span is in order, and ends in a text;
* `compileTemplate_lies` — without plugins, a compile adds no faults but those of
  resolving;
* `compile_locates` — the place of a fault is one of the source, its line and column
  are those of that place, and all labels lie in the source.
-/
import TemplateCompiler.Compile.Basic
import TemplateCompiler.Proofs.Resolved.Faults

namespace TemplateCompiler

/-- A span is in order, and ends in a text. -/
def Span.Within (text : List Char) (span : Span) : Prop :=
  span.start ≤ span.stop ∧ span.stop ≤ Text.byteLength text

theorem Span.LiesIn.within {text : List Char} {span : Span} (h : span.LiesIn text) :
    span.Within text :=
  ⟨h.start_le, h.stop_le⟩

/-- Resolving a template that lies in its source finds faults there only. -/
theorem Template.resolve_lies {t : Template} {o : Resolved.Settings} {text : List Char}
    {fault : Fault} (hlength : Text.byteLength text ≤ maxOffset) (ht : bodyLies text t.body)
    (h : (t.resolve o).1 = .error fault) : fault.LiesIn text := by
  rw [Template.resolve] at h
  split at h
  · cases h
  · next fault' p hrun =>
    cases h
    exact Resolved.statements_lies hlength t.body ht _ _ _ hrun

/-- Without plugins, a compile goes on with the template as it was parsed. -/
theorem compileTemplate_lies {o : CompileOptions} {t : Template} {warnings : List Diagnostic}
    {text : List Char} (hplugins : o.plugins = []) (hlength : Text.byteLength text ≤ maxOffset)
    (ht : Template.bodyLies text t.body) :
    Fault.OrElse text (fun compiled => compiled.warnings = warnings)
      (compileTemplate o t warnings).result := by
  rw [compileTemplate, hplugins, Plugin.runAll]
  show Fault.OrElse text _ ((t.resolve o.settings).1.map _)
  cases hresolve : (t.resolve o.settings).1 with
  | ok body => rfl
  | error fault => exact Template.resolve_lies hlength ht hresolve

/-- The fault of a compile without plugins starts between two characters of the source
and ends in it; its line is told by the line feeds before it, and its column by the
characters since the last of them.  All other places that a fault points at, and all
labels of warnings, are places of the source too. -/
theorem compile_locates {o : CompileOptions} {text : String} (hplugins : o.plugins = [])
    (hlength : Text.byteLength text.toList < 2 ^ 32) :
    (∀ fault, (compile o text).result = .error fault →
      (∃ before after, text.toList = before ++ after ∧
        Text.byteLength before = fault.span.start ∧
        (fault.locate ⟨text, o.moduleName⟩).position
          = ⟨before.count '\n' + 1, (Source.lastLine before).length⟩) ∧
      fault.span.Within text.toList ∧ ∀ place ∈ fault.related, place.1.Within text.toList) ∧
    ∀ compiled, (compile o text).result = .ok compiled →
      ∀ warning ∈ compiled.warnings, ∀ label ∈ warning.labels, label.span.Within text.toList := by
  have hlength' : Text.byteLength text.toList ≤ maxOffset := Nat.le_of_lt_succ hlength
  -- A fault comes from reading the template or from resolving it.
  have hcompile : Fault.OrElse text.toList
      (fun compiled => Template.Builder.WarningsLie text.toList compiled.warnings)
      (compile o text).result := by
    have hparse : Fault.OrElse text.toList _ (Template.parse ⟨text, o.moduleName⟩ o.mode) :=
      Template.parse_lies hlength'
    rw [compile]
    cases hresult : Template.parse ⟨text, o.moduleName⟩ o.mode with
    | error fault =>
      rw [hresult] at hparse
      exact hparse
    | ok result =>
      rw [hresult] at hparse
      obtain ⟨t, warnings⟩ := result
      exact (compileTemplate_lies hplugins hlength' hparse.1).imp fun compiled hwarnings =>
        hwarnings ▸ hparse.2
  refine ⟨fun fault hfault => ?_, fun compiled hcompiled warning hwarning label hlabel => ?_⟩
  · rw [hfault] at hcompile
    obtain ⟨⟨⟨before, after, htext, hstart⟩, hle, hstop⟩, hrelated⟩ := hcompile
    refine ⟨⟨before, after, htext, hstart, ?_⟩, ⟨hle, hstop⟩,
      fun place hplace => (hrelated place hplace).within⟩
    rw [Fault.locate, ← hstart]
    exact Source.position_cut htext
  · rw [hcompiled] at hcompile
    exact (hcompile warning hwarning label hlabel).within

/-- An end tag that does not match the element around it, behind line feeds and
characters of two bytes. -/
def mismatchedTags : String := "é\n<b>\né</i>"

theorem compile_locates_mismatched :
    ∃ fault, (compile {} mismatchedTags).result = .error fault ∧ fault.span = ⟨9, 13⟩ ∧
      fault.related.map Prod.fst = [⟨3, 6⟩] ∧
      (fault.locate ⟨mismatchedTags, defaultModuleName⟩).position = ⟨3, 1⟩ ∧
      (∃ before after, mismatchedTags.toList = before ++ after ∧
        Text.byteLength before = fault.span.start ∧
        (fault.locate ⟨mismatchedTags, defaultModuleName⟩).position
          = ⟨before.count '\n' + 1, (Source.lastLine before).length⟩) ∧
      fault.span.Within mismatchedTags.toList ∧
      ∀ place ∈ fault.related, place.1.Within mismatchedTags.toList := by
  have hparse : (match Template.parse ⟨mismatchedTags, defaultModuleName⟩ .precompile with
      | .ok _ => none
      | .error fault => some (fault.span, fault.related.map Prod.fst))
      = some (⟨9, 13⟩, [⟨3, 6⟩]) := by decide +kernel
  have hposition : Source.position ⟨mismatchedTags, defaultModuleName⟩ 9 = ⟨3, 1⟩ := by
    decide +kernel
  -- The theorem is applied once, and read for the fault that comes out.
  have hlocates : ∀ fault, (compile {} mismatchedTags).result = .error fault → _ :=
    (compile_locates rfl (by decide +kernel)).1
  cases hresult : Template.parse ⟨mismatchedTags, defaultModuleName⟩ .precompile with
  | ok result =>
    rw [hresult] at hparse
    cases hparse
  | error fault =>
    rw [hresult] at hparse
    simp only [Option.some.injEq, Prod.mk.injEq] at hparse
    obtain ⟨hspan, hrelated⟩ := hparse
    have hcompile : (compile {} mismatchedTags).result = .error fault := by
      rw [compile, hresult]
    refine ⟨fault, hcompile, hspan, hrelated, ?_, hlocates fault hcompile⟩
    rw [Fault.locate, hspan]
    exact hposition

end TemplateCompiler
