/-
Gathering tokens from events.

* `tokenize_eq` — the tokens of a text are what a collector gathers from the
  events of reading it;
* `Collector.tokens_observeAll` — tokens that are gathered are never taken back.
-/
import TemplateCompiler.Markup.Token
import TemplateCompiler.Proofs.Markup.Nesting

namespace TemplateCompiler.Markup

/-- The tokens and problems of a text are those that a collector gathers from the
events of the text. -/
theorem tokenize_eq (mode : Mode) (text : List Char) :
    let m := Machine.read { mode } text
    let c := Collector.observeAll {} (m.2 ++ m.1.flush.2)
    tokenize mode text = (c.tokens, c.problems) := by
  simp only [tokenize, Tokenizer.tokenize, Tokenizer.reset, Tokenizer.ofMode, Tokenizer.feed,
    Tokenizer.finish, Tokenizer.advance, Tokenizer.takeProblems, Machine.reset,
    Collector.observeAll, List.foldl_append, List.foldl_cons, List.foldl_nil, Collector.observe]
  generalize Machine.read { mode } text = m
  generalize List.foldl Collector.observe {} m.2 = c
  -- What is handed out before the end of the text comes before what the end completes.
  rw [Machine.flush]
  split
  · simp only [List.foldl_cons, List.foldl_nil, Collector.observe, Collector.close]
    cases c.current <;> simp
  · simp

namespace Collector

/-- Tokens are never taken back. -/
theorem tokens_observe (c : Collector) {e : Event} (he : e ≠ .reset) :
    c.tokens <+: (c.observe e).tokens := by
  cases e <;> simp only [observe, begin, close, closeAttribute]
  case reset => exact absurd rfl he
  all_goals first
    | exact List.prefix_refl _
    | (split <;> first | exact List.prefix_append _ _ | exact List.prefix_refl _)

theorem tokens_observeAll (c : Collector) {r r' : Region} {events : List Event}
    (hlead : leadTo? r events = some r') : c.tokens <+: (c.observeAll events).tokens := by
  induction events generalizing c r with
  | nil => exact List.prefix_refl _
  | cons e rest ih =>
    obtain ⟨r₁, hlead₁, hlead⟩ := leadTo?_cons.mp hlead
    have he : e ≠ .reset := by
      rintro rfl
      cases r <;> cases hlead₁
    exact (c.tokens_observe he).trans (ih (c.observe e) hlead)

theorem observeAll_append (c : Collector) (a b : List Event) :
    c.observeAll (a ++ b) = (c.observeAll a).observeAll b := by
  rw [observeAll, List.foldl_append]
  rfl

end Collector

end TemplateCompiler.Markup
