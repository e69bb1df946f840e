/-
What is read has a derivation.

Every reader of the grammar that succeeds has read the tokens of a derivation,
and gives back what the derivation stands for.

* `Reads` — a cursor moves past some tokens to another cursor;
* `expr_sound`, `call_sound` — expressions;
* `statements_sound`, `block_sound`, `inverse_sound` — statements.
-/
import TemplateCompiler.Proofs.Diagnostic.Success
import TemplateCompiler.Proofs.Mustache.Derivation

namespace TemplateCompiler.Mustache

open Template (Literal Path Pair Hash Call Expr MustacheTag PartialTag BlockTag)

/-! ### Moving past tokens -/

/-- A cursor moves past tokens, none of which is `eof`. -/
inductive Reads : Cursor → List Token → Cursor → Prop
  | refl (c : Cursor) : Reads c [] c
  | step {previous : Span} {t : Token} {rest ts : List Token} {d : Cursor} (ht : t.kind ≠ .eof)
    (h : Reads ⟨t.span, rest⟩ ts d) : Reads ⟨previous, t :: rest⟩ (t :: ts) d

namespace Reads

variable {c d e : Cursor} {ts us : List Token} {t : Token}

theorem append (h : Reads c ts d) (h' : Reads d us e) : Reads c (ts ++ us) e := by
  induction h with
  | refl c => exact h'
  | step ht _ ih => exact .step ht (ih h')

theorem split (h : Reads c (ts ++ us) e) : ∃ d, Reads c ts d ∧ Reads d us e := by
  induction ts generalizing c with
  | nil => exact ⟨c, .refl c, h⟩
  | cons t ts ih =>
    cases h with
    | step ht h =>
      obtain ⟨d, hts, hus⟩ := ih h
      exact ⟨d, .step ht hts, hus⟩

theorem tokens (h : Reads c ts d) : c.tokens = ts ++ d.tokens := by
  induction h with
  | refl c => rfl
  | step ht _ ih => exact congrArg (_ :: ·) ih

theorem not_eof (h : Reads c ts d) : ∀ t ∈ ts, t.kind ≠ .eof := by
  induction h with
  | refl c => simp
  | step ht _ ih => exact List.forall_mem_cons.mpr ⟨ht, ih⟩

/-- The next token, if it is not `eof`. -/
theorem one {k : TokenKind} (hk : c.kind = k) (hne : k ≠ .eof) :
    Reads c [⟨k, c.current.span⟩] c.advance := by
  obtain ⟨previous, tokens⟩ := c
  cases tokens with
  | nil => exact absurd hk.symm hne
  | cons t rest =>
    replace hk : t.kind = k := hk
    have hadvance : Cursor.advance ⟨previous, t :: rest⟩ = ⟨t.span, rest⟩ := by
      simp [Cursor.advance, hk, hne]
    rw [hadvance]
    subst hk
    exact .step hne (.refl _)

/-- The first token is the next one, and the others are read after it. -/
theorem next (h : Reads c (t :: ts) d) :
    c.kind = t.kind ∧ c.current.span = t.span ∧ Reads c.advance ts d := by
  cases h with
  | step ht h =>
    refine ⟨rfl, rfl, ?_⟩
    rw [Cursor.advance]
    simpa [ht] using h

/-- The cursor remembers where the last token ended. -/
theorem previous_stop (h : Reads c ts d) (hne : ts ≠ []) : d.previous.stop = lastStop ts := by
  induction h with
  | refl c => exact absurd rfl hne
  | @step previous t rest ts d ht h ih =>
    cases ts with
    | nil =>
      cases h
      rfl
    | cons u ts =>
      rw [ih (by simp), lastStop, lastStop, List.getLast?_cons_cons]

/-- What is next starts where the first of the tokens does. -/
theorem start (h : Reads c ts d) : c.current.span.start = startOf ts d.current.span.start := by
  cases h with
  | refl => rfl
  | step ht h => rfl

end Reads

/-! ### Paths -/

/-- Where the last name of a path ends. -/
theorem lastStop_names (first : Leaf String) (rest : List (Leaf Char × Leaf String)) :
    lastStop (⟨.id first.value, first.span⟩ :: tailTokens rest)
      = ((rest.getLast?.map Prod.snd).getD first).span.stop := by
  induction rest generalizing first with
  | nil => rfl
  | cons name rest ih =>
    obtain ⟨mark, name⟩ := name
    have hlast := ih name
    rw [lastStop] at hlast ⊢
    rw [tailTokens, List.getLast?_cons_cons, List.getLast?_cons_cons, hlast]
    cases rest with
    | nil => rfl
    | cons other rest => rw [List.getLast?_cons_cons]; simp [List.getLast?_cons]

theorem segments_sound {separator : Option Char} {tokens : List Token} {previous : Span}
    {list : List Segment} {d : Cursor} (h : segments separator tokens previous = .ok (list, d)) :
    ∃ (first : Leaf String) (rest : List (Leaf Char × Leaf String)),
      Reads ⟨previous, tokens⟩ (⟨.id first.value, first.span⟩ :: tailTokens rest) d ∧
      list = ⟨separator, first.value⟩ ::
        rest.map fun (mark, name) => ⟨some mark.value, name.value⟩ := by
  fun_induction segments separator tokens previous generalizing list d with
  -- A name, and a mark behind it.
  | case1 separator raw span mark sepSpan rest previous ih =>
    simp only [bind_eq_ok, pure_eq_ok, Prod.exists, Prod.mk.injEq] at h
    obtain ⟨more, d, hmore, rfl, rfl⟩ := h
    obtain ⟨first, names, hreads, rfl⟩ := ih hmore
    refine ⟨⟨raw, span⟩, (⟨mark, sepSpan⟩, first) :: names, ?_, rfl⟩
    exact .step (by simp) (.step (by simp) hreads)
  -- The last name.
  | case2 separator raw span rest previous hsep =>
    cases h
    exact ⟨⟨raw, span⟩, [], .step (by simp) (.refl _), rfl⟩
  -- No name.
  | case3 => cases h

/-- A path, of which the at sign is read before. -/
theorem path_sound (data : Option Span) {start : Nat} {c d : Cursor} {p : Path}
    (h : path data.isSome start c = .ok (p, d))
    (hstart : start = (data.getD c.current.span).start) :
    ∃ tree : PathTree, tree.data = data ∧ tree.Accepted ∧ tree.path = p ∧
      Reads c (⟨.id tree.first.value, tree.first.span⟩ :: tailTokens tree.rest) d := by
  simp only [path, bind_eq_ok, pure_eq_ok, Prod.exists, Prod.mk.injEq] at h
  obtain ⟨list, d, hlist, p, hpath, rfl, rfl⟩ := h
  obtain ⟨first, rest, hreads, rfl⟩ := segments_sound hlist
  -- The span of the path is that between the first and the last of its tokens.
  have hfirst : c.current.span = first.span := hreads.next.2.1
  have hspan : (⟨data, first, rest⟩ : PathTree).span = ⟨start, d.previous.stop⟩ := by
    rw [PathTree.span, hstart, hfirst, hreads.previous_stop (by simp), lastStop_names]
  have haccepted : (⟨data, first, rest⟩ : PathTree).path? = .ok p := by
    rw [PathTree.path?, hspan]
    exact hpath
  exact ⟨⟨data, first, rest⟩, rfl, ⟨p, haccepted⟩, by rw [PathTree.path, haccepted]; rfl, hreads⟩

/-! ### Expressions -/

/-- Only literals stand for literals. -/
theorem ExprTree.expr_isLiteral (t : ExprTree) : t.expr.isLiteral = t.isLiteral := by
  cases t <;> simp [ExprTree.expr, ExprTree.isLiteral, Expr.isLiteral]

theorem checkCallee_eq_ok {e : Expr} {u : Unit} : checkCallee e = .ok u ↔ e.isLiteral = false := by
  cases e <;> simp [checkCallee, Expr.isLiteral]

theorem hashSpan_eq {c : Cursor} {stop : Nat} {pairs : List (Pair Expr)}
    (h : pairs = [] → c.previous.stop = stop) : hashSpan c pairs = namedSpan stop pairs := by
  cases pairs with
  | nil => rw [hashSpan, namedSpan, h rfl]
  | cons first rest => rfl

theorem ExprTree.tokens_ne_nil (t : ExprTree) : t.tokens ≠ [] := by
  cases t <;> simp [ExprTree.tokens, PathTree.tokens]

theorem literalToken_ne_eof (value : Literal) : literalToken value ≠ .eof := by
  cases value <;> simp [literalToken]

theorem literal_sound {c : Cursor} (value : Literal) (hkind : c.kind = literalToken value) :
    ∃ t : ExprTree, Reads c t.tokens c.advance ∧ t.Admissible ∧
      t.expr = .literal value c.current.span := by
  refine ⟨.literal value c.current.span, ?_, ?_, by rw [ExprTree.expr]⟩
  · rw [ExprTree.tokens]
    exact .one hkind (literalToken_ne_eof value)
  · rw [ExprTree.Admissible]
    trivial

/-- A reader succeeds only on derivations. -/
def SoundFor {τ α : Type} (read : Reader α) (tokens : τ → List Token) (Admissible : τ → Prop)
    (value : τ → α) : Prop :=
  ∀ {c d : Cursor} {a : α}, read c = .ok (a, d) →
    ∃ t : τ, Reads c (tokens t) d ∧ Admissible t ∧ value t = a

mutual

theorem expr_sound (fuel : Nat) :
    SoundFor (expr fuel) ExprTree.tokens ExprTree.Admissible ExprTree.expr := by
  intro c d e h
  match fuel with
  | 0 =>
    rw [expr] at h
    cases h
  | fuel + 1 =>
    rw [expr] at h
    split at h
    · next hkind =>
      simp only [bind_eq_ok, ite_eq_ok, pure_eq_ok, Prod.exists, Prod.mk.injEq, reduceCtorEq,
        and_false, or_false] at h
      obtain ⟨inner, c', hinner, hclose, u, hcallee, rfl, rfl⟩ := h
      obtain ⟨call, hreads, hadmissible, rfl⟩ := call_sound fuel hinner
      refine ⟨.sub c.current.span call c'.current.span, ?_, ?_, ?_⟩
      · rw [ExprTree.tokens]
        exact (Reads.one hkind (by simp)).append (hreads.append (.one hclose (by simp)))
      · rw [ExprTree.Admissible]
        refine ⟨hadmissible, ?_⟩
        rw [checkCallee_eq_ok, callOf, ExprTree.expr_isLiteral] at hcallee
        exact hcallee
      · rw [ExprTree.expr]
    · next hkind =>
      simp only [bind_eq_ok, pure_eq_ok, Prod.exists, Prod.mk.injEq] at h
      obtain ⟨p, c', hpath, rfl, rfl⟩ := h
      obtain ⟨tree, hdata, haccepted, rfl, hreads⟩ :=
        path_sound (some c.current.span) hpath rfl
      refine ⟨.path tree, ?_, by rwa [ExprTree.Admissible], by rw [ExprTree.expr]⟩
      rw [ExprTree.tokens, PathTree.tokens, hdata]
      exact (Reads.one hkind (by simp)).append hreads
    · next raw hkind =>
      simp only [bind_eq_ok, pure_eq_ok, Prod.exists, Prod.mk.injEq] at h
      obtain ⟨p, c', hpath, rfl, rfl⟩ := h
      obtain ⟨tree, hdata, haccepted, rfl, hreads⟩ := path_sound none hpath rfl
      refine ⟨.path tree, ?_, by rwa [ExprTree.Admissible], by rw [ExprTree.expr]⟩
      rw [ExprTree.tokens, PathTree.tokens, hdata]
      exact hreads
    -- What is left are the literals, each of one token.
    · next value hkind =>
      cases h
      exact literal_sound (.string value) hkind
    · next value hkind =>
      cases h
      exact literal_sound (.number value) hkind
    · next value hkind =>
      cases h
      exact literal_sound (.boolean value) hkind
    · next hkind =>
      cases h
      exact literal_sound .undefined hkind
    · next hkind =>
      cases h
      exact literal_sound .null hkind
    · cases h

theorem call_sound (fuel : Nat) : SoundFor (call fuel) callTokens CallAdmissible callOf := by
  intro c d a h
  match fuel with
  | 0 =>
    rw [call] at h
    cases h
  | fuel + 1 =>
    rw [call] at h
    simp only [bind_eq_ok, pure_eq_ok, Prod.exists, Prod.mk.injEq] at h
    obtain ⟨callee, c₁, hcallee, params, c₂, hparams, pairs, c₃, hpairs, rfl, rfl⟩ := h
    obtain ⟨callee, hreads₁, hadmissible₁, rfl⟩ := expr_sound fuel hcallee
    obtain ⟨params, hreads₂, hadmissible₂, rfl⟩ := params_sound fuel hparams
    obtain ⟨pairs, hreads₃, hadmissible₃, rfl⟩ := pairs_sound fuel hpairs
    refine ⟨⟨callee, params, pairs⟩, ?_, ?_, ?_⟩
    · rw [callTokens]
      exact hreads₁.append (hreads₂.append hreads₃)
    · rw [CallAdmissible]
      exact ⟨hadmissible₁, hadmissible₂, hadmissible₃⟩
    -- Without named arguments their span is where the cursor stands before them.
    · rw [callOf, hashSpan_eq]
      intro hempty
      obtain rfl : pairs = [] := by
        cases pairs with
        | nil => rfl
        | cons pair rest => rw [pairsOf] at hempty; cases hempty
      rw [pairsTokens] at hreads₃
      cases hreads₃
      exact (hreads₁.append hreads₂).previous_stop (by simp [callee.tokens_ne_nil])

theorem params_sound (fuel : Nat) :
    SoundFor (params fuel) exprsTokens ExprsAdmissible exprsOf := by
  intro c d a h
  match fuel with
  | 0 =>
    rw [params] at h
    cases h
  | fuel + 1 =>
    rw [params] at h
    split at h
    · simp only [bind_eq_ok, pure_eq_ok, Prod.exists, Prod.mk.injEq] at h
      obtain ⟨first, c₁, hfirst, rest, c₂, hrest, rfl, rfl⟩ := h
      obtain ⟨first, hreads₁, hadmissible₁, rfl⟩ := expr_sound fuel hfirst
      obtain ⟨rest, hreads₂, hadmissible₂, rfl⟩ := params_sound fuel hrest
      refine ⟨first :: rest, ?_, ?_, by rw [exprsOf]⟩
      · rw [exprsTokens]
        exact hreads₁.append hreads₂
      · rw [ExprsAdmissible]
        exact ⟨hadmissible₁, hadmissible₂⟩
    · cases h
      exact ⟨[], by rw [exprsTokens]; exact .refl _, by rw [ExprsAdmissible]; trivial,
        by rw [exprsOf]⟩

theorem pairs_sound (fuel : Nat) :
    SoundFor (pairs fuel) pairsTokens PairsAdmissible pairsOf := by
  intro c d a h
  match fuel with
  | 0 =>
    rw [pairs] at h
    cases h
  | fuel + 1 =>
    rw [pairs] at h
    split at h
    · next raw hkind hsecond =>
      simp only [bind_eq_ok, pure_eq_ok, Prod.exists, Prod.mk.injEq] at h
      obtain ⟨value, c₁, hvalue, rest, c₂, hrest, rfl, rfl⟩ := h
      obtain ⟨value, hreads₁, hadmissible₁, rfl⟩ := expr_sound fuel hvalue
      obtain ⟨rest, hreads₂, hadmissible₂, rfl⟩ := pairs_sound fuel hrest
      have hkey := Reads.one hkind (by simp)
      -- The second token was looked at before; moving on shows it as the next one.
      have hequals : c.advance.kind = .equals := by
        obtain ⟨previous, tokens⟩ := c
        match tokens, hkind, hsecond with
        | t :: u :: tokens, hkind, hsecond =>
          replace hkind : t.kind = .id raw := hkind
          simp only [Cursor.advance, hkind, reduceCtorEq, if_false]
          exact hsecond
      refine ⟨⟨⟨raw, c.current.span⟩, c.advance.current.span, value⟩ :: rest, ?_, ?_, ?_⟩
      · rw [pairsTokens]
        exact hkey.append ((Reads.one hequals (by simp)).append (hreads₁.append hreads₂))
      · rw [PairsAdmissible]
        exact ⟨hadmissible₁, hadmissible₂⟩
      · rw [pairsOf]
    · cases h
      exact ⟨[], by rw [pairsTokens]; exact .refl _, by rw [PairsAdmissible]; trivial,
        by rw [pairsOf]⟩

end

/-! ### Tags -/

theorem paramNames_sound (tokens : List Token) (previous : Span) :
    ∃ names : List (Leaf String),
      Reads ⟨previous, tokens⟩ (namesTokens names) (paramNames tokens previous).2 ∧
      (paramNames tokens previous).1 = names.map fun name => idName name.value := by
  fun_induction paramNames tokens previous with
  -- A name.
  | case1 raw span rest previous names c hnames ih =>
    rw [hnames] at ih
    obtain ⟨more, hreads, rfl⟩ := ih
    exact ⟨⟨raw, span⟩ :: more, .step (by simp) hreads, rfl⟩
  -- No further name.
  | case2 => exact ⟨[], .refl _, rfl⟩

theorem blockParams_sound :
    SoundFor blockParams paramsTokens (fun _ => True) paramsNames := by
  intro c d a h
  rw [blockParams] at h
  split at h
  · next hkind =>
    simp only [ite_eq_ok, reduceCtorEq, Except.ok.injEq, Prod.mk.injEq, and_false, false_or,
      or_false] at h
    obtain ⟨hnonempty, hclose, rfl, rfl⟩ := h
    obtain ⟨names, hreads, hnames⟩ := paramNames_sound c.advance.tokens c.advance.previous
    rw [hnames] at hnonempty
    cases names with
    | nil => exact absurd rfl hnonempty
    | cons first rest =>
      refine ⟨some ⟨c.current.span, first, rest,
        (paramNames c.advance.tokens c.advance.previous).2.current.span⟩, ?_, trivial, hnames.symm⟩
      exact (Reads.one hkind (by simp)).append (hreads.append (.one hclose (by simp)))
  · cases h
    exact ⟨none, .refl _, trivial, rfl⟩

theorem closeTag_sound {expected : List String} {c d : Cursor} {strip : Bool} {stop : Nat}
    (h : closeTag expected c = .ok ((strip, stop), d)) :
    Reads c [closeToken ⟨strip, c.current.span⟩] d ∧ stop = c.current.span.stop := by
  rw [closeTag] at h
  split at h
  · next hkind =>
    cases h
    exact ⟨.one hkind (by simp), rfl⟩
  · cases h

theorem closeUnescapedTag_sound {c d : Cursor} {strip : Bool} {stop : Nat}
    (h : closeUnescapedTag c = .ok ((strip, stop), d)) :
    Reads c [⟨.closeUnescaped strip, c.current.span⟩] d ∧ stop = c.current.span.stop := by
  rw [closeUnescapedTag] at h
  split at h
  · next hkind =>
    cases h
    exact ⟨.one hkind (by simp), rfl⟩
  · cases h

/-- The end of a tag with two braces or with three. -/
def closeEither (unescaped : Bool) : Reader (Bool × Nat) :=
  if unescaped then closeUnescapedTag else closeTag ("CLOSE" :: exprStart)

theorem mustache_eq_ok {fuel : Nat} {openStrip trusting unescaped : Bool} {c d : Cursor}
    {tag : MustacheTag} :
    mustache fuel openStrip trusting unescaped c = .ok (tag, d) ↔
      ∃ inner c₁ strip stop, call fuel c.advance = .ok (inner, c₁) ∧
        closeEither unescaped c₁ = .ok ((strip, stop), d) ∧
        ((inner.params = [] ∧ inner.hash.pairs = []) ∨ inner.callee.isLiteral = false) ∧
        ⟨inner, trusting, ⟨openStrip, strip⟩, ⟨c.current.span.start, stop⟩⟩ = tag := by
  -- Both ways to close the tag go on alike.
  have hclose : ∀ {α : Type} (c₁ : Cursor) (k : (Bool × Nat) × Cursor → Except Fault α),
      (if unescaped = true then closeUnescapedTag c₁ >>= k
        else closeTag ("CLOSE" :: exprStart) c₁ >>= k) = closeEither unescaped c₁ >>= k := by
    intro α c₁ k
    cases unescaped <;> rfl
  simp only [mustache, hclose, bind_eq_ok, Prod.exists, ite_eq_ok, pure_eq_ok, checkCallee_eq_ok,
    Prod.mk.injEq, Bool.or_eq_true, Bool.not_eq_true', List.isEmpty_eq_false_iff, ne_eq, not_or,
    Classical.not_not]
  constructor
  · rintro ⟨inner, c₁, hcall, strip, stop, d, hend, h⟩
    rcases h with ⟨-, -, hcallee, htag, rfl⟩ | ⟨hbare, htag, rfl⟩
    · exact ⟨inner, c₁, strip, stop, hcall, hend, .inr hcallee, htag⟩
    · exact ⟨inner, c₁, strip, stop, hcall, hend, .inl hbare, htag⟩
  · rintro ⟨inner, c₁, strip, stop, hcall, hend, h, htag⟩
    refine ⟨inner, c₁, hcall, strip, stop, d, hend, ?_⟩
    by_cases hbare : inner.params = [] ∧ inner.hash.pairs = []
    · exact .inr ⟨hbare, htag, rfl⟩
    · exact .inl ⟨Classical.not_and_iff_not_or_not.mp hbare, (), h.resolve_left hbare, htag, rfl⟩

/-- The token that ends a tag with two braces or with three. -/
def closingToken (unescaped : Bool) (close : Leaf Bool) : Token :=
  if unescaped then ⟨.closeUnescaped close.value, close.span⟩ else closeToken close

theorem closeEither_sound {unescaped strip : Bool} {c d : Cursor} {stop : Nat}
    (h : closeEither unescaped c = .ok ((strip, stop), d)) :
    Reads c [closingToken unescaped ⟨strip, c.current.span⟩] d ∧ stop = c.current.span.stop := by
  cases unescaped with
  | true => exact closeUnescapedTag_sound h
  | false => exact closeTag_sound h

/-- Whether a call has arguments can be read off its derivation. -/
theorem callOf_bare {call : CallTree ExprTree} :
    (callOf call).params = [] ∧ (callOf call).hash.pairs = [] ↔
      call.params = [] ∧ call.pairs = [] := by
  obtain ⟨callee, params, pairs⟩ := call
  cases params <;> cases pairs <;> simp [callOf, exprsOf, pairsOf]

theorem callOf_callee (call : CallTree ExprTree) :
    (callOf call).callee.isLiteral = call.callee.isLiteral := by
  obtain ⟨callee, params, pairs⟩ := call
  rw [callOf, ExprTree.expr_isLiteral]

/-- A tag that writes a value, after its mark. -/
theorem mustache_sound {fuel : Nat} {openStrip trusting unescaped : Bool} {c d : Cursor}
    {tag : MustacheTag} (h : mustache fuel openStrip trusting unescaped c = .ok (tag, d)) :
    ∃ (call : CallTree ExprTree) (close : Leaf Bool), WrittenAdmissible call ∧
      Reads c.advance (callTokens call ++ [closingToken unescaped close]) d ∧
      tag = ⟨callOf call, trusting, ⟨openStrip, close.value⟩,
        ⟨c.current.span.start, close.span.stop⟩⟩ := by
  obtain ⟨inner, c₁, strip, stop, hinner, hclose, hcallee, rfl⟩ := mustache_eq_ok.mp h
  obtain ⟨call, hreads, hadmissible, rfl⟩ := call_sound fuel hinner
  obtain ⟨hlast, rfl⟩ := closeEither_sound hclose
  refine ⟨call, ⟨strip, c₁.current.span⟩, ⟨hadmissible, fun hliteral => ?_⟩,
    hreads.append hlast, rfl⟩
  rw [callOf_bare, callOf_callee, hliteral] at hcallee
  exact hcallee.resolve_right (by simp)

theorem partialTag_sound {fuel : Nat} {openStrip : Bool} {c d : Cursor} {tag : PartialTag}
    (h : partialTag fuel openStrip c = .ok (tag, d)) :
    ∃ (call : CallTree ExprTree) (close : Leaf Bool), CallAdmissible call ∧
      Reads c.advance (callTokens call ++ [closeToken close]) d ∧
      tag = ⟨callOf call, ⟨openStrip, close.value⟩, ⟨c.current.span.start, close.span.stop⟩⟩ := by
  simp only [partialTag, bind_eq_ok, pure_eq_ok, Prod.exists, Prod.mk.injEq] at h
  obtain ⟨inner, c₁, hinner, strip, stop, c₂, hclose, rfl, rfl⟩ := h
  obtain ⟨call, hreads, hadmissible, rfl⟩ := call_sound fuel hinner
  obtain ⟨hlast, rfl⟩ := closeTag_sound hclose
  exact ⟨call, ⟨strip, c₁.current.span⟩, hadmissible, hreads.append hlast, rfl⟩

theorem blockOpening_sound (fuel : Nat) :
    SoundFor (blockOpening fuel) OpeningTree.tokens OpeningTree.Admissible
      fun o => (callOf o.call, paramsNames o.params, o.close.value) := by
  intro c d a h
  simp only [blockOpening, bind_eq_ok, pure_eq_ok, Prod.exists, Prod.mk.injEq] at h
  obtain ⟨inner, c₁, hinner, names, c₂, hnames, strip, stop, c₃, hclose, u, hcallee, rfl, rfl⟩ := h
  obtain ⟨call, hreads₁, hadmissible, rfl⟩ := call_sound fuel hinner
  obtain ⟨params, hreads₂, -, rfl⟩ := blockParams_sound hnames
  obtain ⟨hreads₃, -⟩ := closeTag_sound hclose
  rw [checkCallee_eq_ok, callOf_callee] at hcallee
  exact ⟨⟨call, params, ⟨strip, c₂.current.span⟩⟩, hreads₁.append (hreads₂.append hreads₃),
    ⟨hadmissible, hcallee⟩, rfl⟩

theorem blockClosing_sound {fuel : Nat} {expected : List String} {c d : Cursor} {name : Expr}
    {strip : Strip} {stop : Nat}
    (h : blockClosing fuel expected c = .ok ((name, strip, stop), d)) :
    ∃ closing : ClosingTree, Reads c closing.tokens d ∧ closing.name.Admissible ∧
      closing.name.expr = name ∧ closing.strip = strip ∧ closing.close.span.stop = stop ∧
      closing.mark.span = c.current.span := by
  rw [blockClosing] at h
  split at h
  · next openStrip hkind =>
    simp only [bind_eq_ok, pure_eq_ok, Prod.exists, Prod.mk.injEq] at h
    obtain ⟨name, c₁, hname, closeStrip, stop, c₂, hclose, ⟨rfl, rfl, rfl⟩, rfl⟩ := h
    obtain ⟨tree, hreads, hadmissible, rfl⟩ := expr_sound fuel hname
    obtain ⟨hlast, rfl⟩ := closeTag_sound hclose
    refine ⟨⟨⟨openStrip, c.current.span⟩, tree, ⟨closeStrip, c₁.current.span⟩⟩, ?_, hadmissible,
      rfl, rfl, rfl, rfl⟩
    exact (Reads.one hkind (by simp)).append (hreads.append hlast)
  · cases h

/-! ### Statements -/

theorem setChainClose_of_plain {strip : Strip} {p : Program} (h : p.chained = false) :
    setChainClose strip (some p) = some p := by
  unfold setChainClose
  split
  · next heq =>
    cases heq
    cases h
  · rfl

/-- The program between two cursors has the span of the tokens between them. -/
theorem programBetween_eq {first last : Cursor} {tokens : List Token}
    (h : Reads first tokens last) (body : List Node) (names : List String) :
    programBetween first last body names
      = { body, params := names, span := programSpan tokens last.current.span.start } := by
  rw [programBetween, programSpan, h.start]

/-- The other branch of a block as it is read: how its first link strips at its
end is settled by what follows. -/
def OtherRead (other : Option Program) (strip : Strip) (d : Cursor) (t : Option InverseTree) :
    Prop :=
  otherStrip t = strip ∧
    ∀ close, setChainClose close other = otherOf d.current.span.start close t

/-- The `else` of a link of a chain strips as its other branch does. -/
theorem OtherRead.strip_eq {other : Option Program} {strip : Strip} {d : Cursor}
    {t : Option InverseTree} (h : OtherRead other strip d t) :
    (if other.isSome then strip else {}) = otherStrip t := by
  cases other with
  | some program => exact h.1.symm
  | none =>
    cases t with
    | none => rfl
    | some inverse => exact absurd (h.2 {}) (by simp [setChainClose, otherOf])

mutual

theorem statements_sound (fuel : Nat) :
    SoundFor (statements fuel) statementsTokens StatementsAdmissible nodesOf := by
  intro c d body h
  match fuel with
  | 0 =>
    rw [statements] at h
    cases h
  | fuel + 1 =>
    -- A statement is followed by statements that have derivations.
    have hnext : ∀ {t : StatementTree} {c₁ c₂ : Cursor} {rest : List Node},
        Reads c t.tokens c₁ → t.Admissible → statements fuel c₁ = .ok (rest, c₂) →
        ∃ ts, Reads c (statementsTokens ts) c₂ ∧ StatementsAdmissible ts ∧
          nodesOf ts = t.node :: rest := by
      intro t c₁ c₂ rest hreads hadmissible hrest
      obtain ⟨ts, hreads', hadmissible', rfl⟩ := statements_sound fuel hrest
      refine ⟨t :: ts, ?_, ?_, by rw [nodesOf]⟩
      · rw [statementsTokens]
        exact hreads.append hreads'
      · rw [StatementsAdmissible]
        exact ⟨hadmissible, hadmissible'⟩
    rw [statements] at h
    simp only at h
    split at h
    · next value hkind =>
      simp only [bind_eq_ok, pure_eq_ok, Prod.exists, Prod.mk.injEq] at h
      obtain ⟨rest, c₁, hrest, rfl, rfl⟩ := h
      have hreads : Reads c (StatementTree.content ⟨value, c.current.span⟩).tokens c.advance := by
        rw [StatementTree.tokens]
        exact .one hkind (by simp)
      simpa only [StatementTree.node] using
        hnext hreads (by rw [StatementTree.Admissible]; trivial) hrest
    · next value strip hkind =>
      simp only [bind_eq_ok, pure_eq_ok, Prod.exists, Prod.mk.injEq] at h
      obtain ⟨rest, c₁, hrest, rfl, rfl⟩ := h
      have hreads : Reads c (StatementTree.comment ⟨(value, strip), c.current.span⟩).tokens
          c.advance := by
        rw [StatementTree.tokens]
        exact .one hkind (by simp)
      simpa only [StatementTree.node] using
        hnext hreads (by rw [StatementTree.Admissible]; trivial) hrest
    · next strip ampersand hkind =>
      simp only [bind_eq_ok, pure_eq_ok, Prod.exists, Prod.mk.injEq] at h
      obtain ⟨tag, c₁, htag, rest, c₂, hrest, rfl, rfl⟩ := h
      obtain ⟨call, close, hadmissible, hreads, rfl⟩ := mustache_sound htag
      have hreads' : Reads c (StatementTree.mustache ⟨(strip, ampersand), c.current.span⟩ call
          close).tokens c₁ := by
        rw [StatementTree.tokens]
        exact (Reads.one hkind (by simp)).append hreads
      simpa only [StatementTree.node] using
        hnext hreads' (by rwa [StatementTree.Admissible]) hrest
    · next strip hkind =>
      simp only [bind_eq_ok, pure_eq_ok, Prod.exists, Prod.mk.injEq] at h
      obtain ⟨tag, c₁, htag, rest, c₂, hrest, rfl, rfl⟩ := h
      obtain ⟨call, close, hadmissible, hreads, rfl⟩ := mustache_sound htag
      have hreads' : Reads c (StatementTree.unescaped ⟨strip, c.current.span⟩ call close).tokens
          c₁ := by
        rw [StatementTree.tokens]
        exact (Reads.one hkind (by simp)).append hreads
      simpa only [StatementTree.node] using
        hnext hreads' (by rwa [StatementTree.Admissible]) hrest
    · next strip hkind =>
      simp only [bind_eq_ok, pure_eq_ok, Prod.exists, Prod.mk.injEq] at h
      obtain ⟨n, c₁, hn, rest, c₂, hrest, rfl, rfl⟩ := h
      obtain ⟨t, hreads, hadmissible, rfl⟩ := block_sound fuel strip hkind hn
      exact hnext hreads hadmissible hrest
    · next strip hkind =>
      simp only [bind_eq_ok, pure_eq_ok, Prod.exists, Prod.mk.injEq] at h
      obtain ⟨tag, c₁, htag, rest, c₂, hrest, rfl, rfl⟩ := h
      obtain ⟨call, close, hadmissible, hreads, rfl⟩ := partialTag_sound htag
      have hreads' : Reads c (StatementTree.partialCall ⟨strip, c.current.span⟩ call close).tokens
          c₁ := by
        rw [StatementTree.tokens]
        exact (Reads.one hkind (by simp)).append hreads
      simpa only [StatementTree.node] using
        hnext hreads' (by rwa [StatementTree.Admissible]) hrest
    all_goals cases h
    refine ⟨[], ?_, ?_, by rw [nodesOf]⟩
    · rw [statementsTokens]
      exact .refl c
    · rw [StatementsAdmissible]
      trivial

theorem block_sound (fuel : Nat) (openStrip : Bool) {c d : Cursor} {n : Node}
    (hkind : c.kind = .openBlock openStrip) (h : block fuel openStrip c = .ok (n, d)) :
    ∃ t : StatementTree, Reads c t.tokens d ∧ t.Admissible ∧ t.node = n := by
  match fuel with
  | 0 =>
    rw [block] at h
    cases h
  | fuel + 1 =>
    rw [block] at h
    simp only [bind_eq_ok, ite_eq_ok, pure_eq_ok, Prod.exists, Prod.mk.injEq, reduceCtorEq,
      and_false, or_false] at h
    -- Only blocks whose names agree are read, so the other way out is gone.
    obtain ⟨inner, names, openClose, c₁, hopening, body, c₂, hbody, other, strip, c₃, hother,
      name, closeStrip, stop, c₄, hclosing, hspelling, rfl, rfl⟩ := h
    obtain ⟨opening, hreads₁, hopens, heq⟩ := blockOpening_sound fuel hopening
    obtain ⟨rfl, rfl, rfl⟩ : callOf opening.call = inner ∧ paramsNames opening.params = names ∧
      opening.close.value = openClose := by simpa using heq
    obtain ⟨body, hreads₂, hstatements, rfl⟩ := statements_sound fuel hbody
    obtain ⟨inverse, hreads₃, hinverse, hread⟩ := inverse_sound fuel hother
    obtain ⟨closing, hreads₄, hname, rfl, rfl, rfl, hmark⟩ := blockClosing_sound hclosing
    refine ⟨.block ⟨openStrip, c.current.span⟩ opening body inverse closing, ?_, ?_, ?_⟩
    · rw [StatementTree.tokens]
      exact (Reads.one hkind (by simp)).append
        (hreads₁.append (hreads₂.append (hreads₃.append hreads₄)))
    · rw [StatementTree.Admissible]
      refine ⟨hopens, hstatements, hinverse, hname, ?_⟩
      rw [callOf] at hspelling
      exact hspelling
    · rw [StatementTree.node, programBetween_eq hreads₂, hread.2, ← hread.1, hreads₃.start, hmark]

theorem inverse_sound (fuel : Nat) {c d : Cursor} {other : Option Program} {strip : Strip}
    (h : inverse fuel c = .ok ((other, strip), d)) :
    ∃ t : Option InverseTree, Reads c (otherTokens t) d ∧ OtherAdmissible t ∧
      OtherRead other strip d t := by
  match fuel with
  | 0 =>
    rw [inverse] at h
    cases h
  | fuel + 1 =>
    rw [inverse] at h
    simp only at h
    split at h
    -- A plain `else`, behind which no more branches come.
    · next mark hkind =>
      simp only [bind_eq_ok, pure_eq_ok, Prod.exists, Prod.mk.injEq] at h
      obtain ⟨body, c₁, hbody, ⟨rfl, rfl⟩, rfl⟩ := h
      obtain ⟨body, hreads, hstatements, rfl⟩ := statements_sound fuel hbody
      refine ⟨some (.plain ⟨mark, c.current.span⟩ body), ?_, ?_, rfl, fun close => ?_⟩
      · rw [otherTokens, InverseTree.tokens]
        exact (Reads.one hkind (by simp)).append hreads
      · rwa [OtherAdmissible, InverseTree.Admissible]
      · rw [programBetween_eq hreads, setChainClose_of_plain rfl, otherOf, InverseTree.program]
    -- An `else` with more after it is a block in a program of its own.
    · next openStrip hkind =>
      simp only [bind_eq_ok, pure_eq_ok, Prod.exists, Prod.mk.injEq] at h
      obtain ⟨inner, names, closeStrip, c₁, hopening, body, c₂, hbody, other, strip, c₃, hother,
        ⟨rfl, rfl⟩, rfl⟩ := h
      obtain ⟨opening, hreads₁, hopens, heq⟩ := blockOpening_sound fuel hopening
      obtain ⟨rfl, rfl, rfl⟩ : callOf opening.call = inner ∧ paramsNames opening.params = names ∧
        opening.close.value = closeStrip := by simpa using heq
      obtain ⟨body, hreads₂, hstatements, rfl⟩ := statements_sound fuel hbody
      obtain ⟨inverse, hreads₃, hinverse, hread⟩ := inverse_sound fuel hother
      refine ⟨some (.chain ⟨openStrip, c.current.span⟩ opening body inverse), ?_, ?_, rfl,
        fun close => ?_⟩
      · rw [otherTokens, InverseTree.tokens]
        exact (Reads.one hkind (by simp)).append (hreads₁.append (hreads₂.append hreads₃))
      · rw [OtherAdmissible, InverseTree.Admissible]
        exact ⟨hopens, hstatements, hinverse⟩
      · -- The link is closed as its surroundings say, and closes its own chain by its `else`.
        rw [hread.strip_eq, otherOf, InverseTree.program, setChainClose,
          programBetween_eq hreads₂, hread.2, hreads₃.start]
    · cases h
      refine ⟨none, ?_, ?_, rfl, fun close => ?_⟩
      · rw [otherTokens]
        exact .refl c
      · rw [OtherAdmissible]
        trivial
      · rw [setChainClose, otherOf]
        simp

end

end TemplateCompiler.Mustache
