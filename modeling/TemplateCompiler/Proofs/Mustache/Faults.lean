/-
Where the readers of tags find fault.

* `SpansLie` — all spans of nodes lie in a text;
* `lex_cuts` — every token starts and ends between two characters of the source;
* `Cursor.Stands` — the tokens still to be read are those of a text, in order;
* `Reader.Lies` — a reader leaves the cursor so, and a fault of it lies in the text;
* `parseProgram_lies` — so do all spans of a program and all faults of reading it.
-/
import TemplateCompiler.Proofs.Mustache.Soundness
import TemplateCompiler.Proofs.Mustache.Stripping
import TemplateCompiler.Proofs.Mustache.Tokens
import TemplateCompiler.Proofs.Source.Places
import TemplateCompiler.Proofs.Template.Spans

namespace TemplateCompiler

/-! ### Spans of nodes -/

/-- The spans of nodes, and of all nodes in them, lie in a text. -/
def SpansLie (text : List Char) (ts : List SpanTree) : Prop :=
  ∀ t ∈ SpanTree.withinAll ts, t.span.LiesIn text

namespace SpansLie

variable {text : List Char} {ts us : List SpanTree} {t : SpanTree}

theorem nil : SpansLie text [] := by
  intro t ht
  rw [SpanTree.withinAll] at ht
  cases ht

theorem cons_iff : SpansLie text (t :: ts) ↔ SpansLie text [t] ∧ SpansLie text ts := by
  simp only [SpansLie, SpanTree.withinAll, List.append_nil]
  exact List.forall_mem_append

theorem append_iff : SpansLie text (ts ++ us) ↔ SpansLie text ts ∧ SpansLie text us := by
  induction ts with
  | nil => exact ⟨fun h => ⟨nil, h⟩, fun h => h.2⟩
  | cons t ts ih =>
    have hcons : SpansLie text (t :: ts) ↔ SpansLie text [t] ∧ SpansLie text ts := cons_iff
    rw [List.cons_append, cons_iff, ih, hcons, and_assoc]

theorem node_iff {span : Span} :
    SpansLie text [.node span ts] ↔ span.LiesIn text ∧ SpansLie text ts := by
  simp only [SpansLie, SpanTree.withinAll, SpanTree.within, List.append_nil]
  exact List.forall_mem_cons

theorem iff_forall : SpansLie text ts ↔ ∀ t ∈ ts, SpansLie text [t] := by
  induction ts with
  | nil => exact ⟨fun _ t ht => (by cases ht), fun _ => nil⟩
  | cons t ts ih => rw [cons_iff, ih, List.forall_mem_cons]

theorem lies (h : SpansLie text [t]) : t.span.LiesIn text := by
  cases t
  exact (node_iff.mp h).1

end SpansLie

namespace Mustache

open Template

/-! ### Tokens -/

/-- A token starts and ends between two characters of a text that begins at an offset. -/
def Token.OnCuts (text : List Char) (offset : Nat) (t : Token) : Prop :=
  (∃ before after, text = before ++ after ∧
    t.span.start = min (offset + Text.byteLength before) maxOffset) ∧
  ∃ before after, text = before ++ after ∧
    t.span.stop = min (offset + Text.byteLength before) maxOffset

theorem Token.OnCuts.later {before text : List Char} {offset : Nat} {t : Token}
    (h : t.OnCuts text (offset + Text.byteLength before)) : t.OnCuts (before ++ text) offset := by
  obtain ⟨⟨skipped, after, rfl, hstart⟩, skipped', after', htext, hstop⟩ := h
  refine ⟨⟨before ++ skipped, after, by simp, ?_⟩, before ++ skipped', after', by simp [htext], ?_⟩
  · rw [hstart, Text.byteLength_append, Nat.add_assoc]
  · rw [hstop, Text.byteLength_append, Nat.add_assoc]

/-- A token from the start of a text to the end of a piece of it. -/
theorem Token.OnCuts.of_piece {piece after : List Char} {offset : Nat} {kind : TokenKind} :
    Token.OnCuts (piece ++ after) offset
      ⟨kind, .ofOffsets offset (offset + Text.byteLength piece)⟩ :=
  ⟨⟨[], piece ++ after, rfl, rfl⟩, piece, after, rfl, rfl⟩

theorem contentTokens_onCuts {value piece after : List Char} {offset : Nat} :
    ∀ t ∈ contentTokens value offset (offset + Text.byteLength piece),
      t.OnCuts (piece ++ after) offset := by
  intro t ht
  rw [contentTokens] at ht
  split at ht
  · cases ht
  · obtain rfl := List.mem_singleton.mp ht
    exact .of_piece

theorem lexFrom_onCuts (mode : Mode) (offset : Nat) (input : List Char) :
    ∀ t ∈ lexFrom mode offset input, t.OnCuts input offset := by
  -- The end of the source is behind all of it.
  have heof : ∀ {offset : Nat} (piece : List Char), Token.OnCuts piece offset
      ⟨.eof, .ofOffsets (offset + Text.byteLength piece) (offset + Text.byteLength piece)⟩ :=
    fun piece => ⟨⟨piece, [], by simp, rfl⟩, piece, [], by simp, rfl⟩
  fun_induction lexFrom mode offset input with
  -- Text up to the end.
  | case1 offset input text stop h =>
    have hinput : input = text ++ [] := (append_of_splitAtBraces h).symm
    rw [hinput]
    refine List.forall_mem_append.mpr ⟨contentTokens_onCuts, List.forall_mem_singleton.mpr ?_⟩
    rw [List.append_nil]
    exact heof text
  -- A tag behind two backslashes.
  | case2 offset input text stop brace rest h hdouble ih =>
    have hinput : input = text ++ brace :: rest := (append_of_splitAtBraces h).symm
    rw [hinput]
    exact List.forall_mem_append.mpr ⟨contentTokens_onCuts, fun t ht => (ih t ht).later⟩
  -- A brace that is escaped: the text before it and the text from it are two pieces.
  | case3 offset input text stop brace rest h hdouble hsingle escaped next ih =>
    have hinput : input = text ++ brace :: rest := (append_of_splitAtBraces h).symm
    have htail : escaped ++ rest.drop (escaped.length - 1) = brace :: rest :=
      escapedText_append brace rest
    rw [hinput, ← htail]
    exact List.forall_mem_append.mpr ⟨List.forall_mem_append.mpr ⟨contentTokens_onCuts,
      fun t ht => (contentTokens_onCuts t ht).later⟩, fun t ht => (ih t ht).later.later⟩
  -- A tag behind other text.
  | case4 offset input text stop brace rest h hdouble hsingle ih =>
    have hinput : input = text ++ brace :: rest := (append_of_splitAtBraces h).symm
    rw [hinput]
    exact List.forall_mem_append.mpr ⟨contentTokens_onCuts, fun t ht => (ih t ht).later⟩
  -- The end, inside a tag.
  | case5 offset input start h =>
    have hinput := takeWhile_blank_of_dropWhile h
    refine List.forall_mem_singleton.mpr ?_
    show Token.OnCuts input offset ⟨.eof, .ofOffsets start start⟩
    have hstart : start = offset + Text.byteLength input := congrArg _ (congrArg _ hinput)
    rw [hstart]
    exact heof input
  -- A lexeme stands behind blanks, and is its first character with those it takes more.
  | case6 offset input start c rest h lexeme stop ih =>
    rw [← append_of_dropWhile_blank h lexeme.more]
    exact List.forall_mem_cons.mpr ⟨.later .of_piece,
      fun t ht => (ih t (by simpa using ht)).later.later⟩

/-- Every token starts and ends between two characters of the source. -/
theorem lex_cuts {source : String} (hlength : Text.byteLength source.toList ≤ maxOffset) :
    ∀ t ∈ lex source, Text.Cut source.toList t.span.start ∧ Text.Cut source.toList t.span.stop := by
  have hcut : ∀ {before after : List Char} {offset : Nat}, source.toList = before ++ after →
      offset = min (0 + Text.byteLength before) maxOffset → Text.Cut source.toList offset := by
    intro before after offset htext hoffset
    have hle : Text.byteLength before ≤ maxOffset :=
      Nat.le_trans (Text.Cut.le ⟨before, after, htext, rfl⟩) hlength
    exact ⟨before, after, htext, by rw [hoffset, Nat.zero_add, Nat.min_eq_left hle]⟩
  intro t ht
  obtain ⟨⟨_, _, htext, hstart⟩, _, _, htext', hstop⟩ := lexFrom_onCuts .content 0 _ t ht
  exact ⟨hcut htext hstart, hcut htext' hstop⟩

/-! ### The cursor -/

/-- The tokens still to be read are those of a text, in order and up to its end. -/
structure Cursor.Stands (text : List Char) (c : Cursor) : Prop where
  ends : Ends c.tokens
  previous : Text.Cut text c.previous.stop
  cuts : ∀ t ∈ c.tokens, Text.Cut text t.span.start ∧ Text.Cut text t.span.stop
  order : InOrder c.previous.stop c.tokens (Text.byteLength text)

variable {text : List Char} {c : Cursor}

theorem Cursor.Stands.mem_current (h : c.Stands text) : c.current ∈ c.tokens := by
  obtain ⟨init, stop, htokens, -⟩ := h.ends
  rw [Cursor.current]
  cases hc : c.tokens with
  | nil => simp [hc] at htokens
  | cons t rest => exact List.mem_cons_self

/-- The next token lies in the text, behind the last one read. -/
theorem Cursor.Stands.current (h : c.Stands text) :
    c.current.span.LiesIn text ∧ c.previous.stop ≤ c.current.span.start := by
  obtain ⟨hstart, hstop⟩ := h.cuts _ h.mem_current
  have horder := h.order
  cases hc : c.tokens with
  | nil =>
    have hmem := h.mem_current
    rw [hc] at hmem
    cases hmem
  | cons t rest =>
    have hcurrent : c.current = t := by rw [Cursor.current, hc]; rfl
    rw [hc, ← hcurrent] at horder
    exact ⟨⟨hstart, horder.2.1.start_le, hstop.le⟩, horder.1⟩

/-- A fault that points at the next token. -/
theorem Cursor.Stands.unexpected (h : c.Stands text) (expected : List String) :
    (c.unexpected expected).LiesIn text :=
  ⟨h.current.1, by simp [Cursor.unexpected]⟩

theorem Ends.tail {t : Token} {rest : List Token} (h : Ends (t :: rest)) (ht : t.kind ≠ .eof) :
    Ends rest := by
  obtain ⟨init, stop, htokens, hinit⟩ := h
  cases init with
  | nil =>
    obtain ⟨rfl, -⟩ := List.cons.inj htokens
    exact absurd rfl ht
  | cons first init =>
    exact ⟨init, stop, (List.cons.inj htokens).2, fun t ht => hinit t (List.mem_cons_of_mem _ ht)⟩

/-- A cursor further on, in the same text. -/
structure Cursor.Leads (text : List Char) (c c' : Cursor) : Prop where
  stands : c'.Stands text
  le : c.previous.stop ≤ c'.previous.stop

theorem Cursor.Stands.leads (h : c.Stands text) : c.Leads text c := ⟨h, Nat.le_refl _⟩

theorem Cursor.Leads.trans {c' c'' : Cursor} (h : c.Leads text c') (h' : c'.Leads text c'') :
    c.Leads text c'' :=
  ⟨h'.stands, Nat.le_trans h.le h'.le⟩

/-- Moving past a token that is not the end. -/
theorem Cursor.Stands.pass {previous : Span} {t : Token} {rest : List Token}
    (h : Cursor.Stands text ⟨previous, t :: rest⟩) (ht : t.kind ≠ .eof) :
    Cursor.Leads text ⟨previous, t :: rest⟩ ⟨t.span, rest⟩ := by
  obtain ⟨hends, -, hcuts, horder⟩ := h
  obtain ⟨hstart, hplaced, hrest⟩ := horder
  obtain ⟨hfirst, hcuts⟩ := List.forall_mem_cons.mp hcuts
  exact ⟨⟨hends.tail ht, hfirst.2, hcuts, hrest⟩, Nat.le_trans hstart hplaced.start_le⟩

/-- Moving past the next token, which is not the end. -/
theorem Cursor.Stands.advance (h : c.Stands text) (hkind : c.kind ≠ .eof) :
    c.Leads text c.advance ∧ c.advance.previous = c.current.span := by
  obtain ⟨previous, tokens⟩ := c
  cases tokens with
  | nil =>
    obtain ⟨init, stop, htokens, -⟩ := h.ends
    simp at htokens
  | cons t rest =>
    have ht : t.kind ≠ .eof := hkind
    have hadvance : Cursor.advance ⟨previous, t :: rest⟩ = ⟨t.span, rest⟩ := if_neg ht
    rw [hadvance]
    exact ⟨h.pass ht, rfl⟩

/-- Moving past tokens leads further on. -/
theorem Reads.leads {ts : List Token} {d : Cursor} (hreads : Reads c ts d) (h : c.Stands text) :
    c.Leads text d := by
  induction hreads with
  | refl c => exact h.leads
  | step ht _ ih =>
    have hfirst := h.pass ht
    exact hfirst.trans (ih hfirst.stands)

theorem Cursor.kind_advance (c : Cursor) (hkind : c.kind ≠ .eof) :
    c.advance.kind = c.secondKind := by
  obtain ⟨previous, tokens⟩ := c
  cases tokens with
  | nil => exact absurd rfl hkind
  | cons t rest =>
    have hadvance : Cursor.advance ⟨previous, t :: rest⟩ = ⟨t.span, rest⟩ := if_neg hkind
    rw [hadvance]
    cases rest <;> rfl

/-- A token that was passed lies before the cursor. -/
theorem Cursor.Leads.start_le {c' : Cursor} (h : c.Stands text) (hkind : c.kind ≠ .eof)
    (hleads : c.advance.Leads text c') : c.current.span.start ≤ c'.previous.stop := by
  have hle := hleads.le
  rw [(h.advance hkind).2] at hle
  exact Nat.le_trans h.current.1.start_le hle

/-! ### Expressions -/

/-- What a reader leaves: a cursor further on, and a result as `P` says. -/
def ReadsIn {α : Type} (text : List Char) (c : Cursor) (P : α → Cursor → Prop)
    (result : α × Cursor) : Prop :=
  c.Leads text result.2 ∧ P result.1 result.2

/-- A reader that leads on in a text, or finds a fault that lies in it. -/
def Reader.Lies {α : Type} (text : List Char) (P : α → Cursor → Prop) (read : Reader α) : Prop :=
  ∀ c, c.Stands text → Fault.OrElse text (ReadsIn text c P) (read c)

/-- An expression lies in the text, up to the cursor behind it. -/
def ExprLies (text : List Char) (e : Expr) (c : Cursor) : Prop :=
  SpansLie text [e.spanTree] ∧ e.span.stop = c.previous.stop

theorem checkCallee_lies {inner : Call Expr} (h : SpansLie text (callSpans inner)) :
    Fault.OrElse text (fun _ => True) (checkCallee inner.callee) := by
  obtain ⟨callee, params, hash⟩ := inner
  rw [callSpans, SpansLie.cons_iff] at h
  cases callee with
  | path p => exact trivial
  | sub call span => exact trivial
  | literal value span =>
    rw [Expr.spanTree] at h
    exact ⟨h.1.lies, by simp [literalCallee]⟩

/-- The names of a path are tokens of it. -/
theorem segments_lies {separator : Option Char} {tokens : List Token} {previous : Span}
    (h : Cursor.Stands text ⟨previous, tokens⟩) :
    Fault.OrElse text (fun result => result.2.Stands text ∧
      (Cursor.mk previous tokens).current.span.stop ≤ result.2.previous.stop)
      (segments separator tokens previous) := by
  fun_induction segments separator tokens previous with
  -- A name, and a mark behind it.
  | case1 separator raw span mark sepSpan rest previous ih =>
    have hid := (h.pass (by simp)).stands
    have hsep := hid.pass (by simp)
    refine (ih hsep.stands).bind ?_
    rintro result ⟨hstands, hstop⟩
    refine ⟨hstands, ?_⟩
    obtain ⟨hcurrent, hbehind⟩ := hsep.stands.current
    calc
      span.stop ≤ sepSpan.stop := hsep.le
      _ ≤ (Cursor.mk sepSpan rest).current.span.start := hbehind
      _ ≤ (Cursor.mk sepSpan rest).current.span.stop := hcurrent.start_le
      _ ≤ result.2.previous.stop := hstop
  -- The last name.
  | case2 separator raw span rest previous hsep =>
    exact ⟨(h.pass (by simp)).stands, Nat.le_refl _⟩
  -- No name.
  | case3 separator tokens previous => exact h.unexpected _

/-- A path stands from its first token to its last. -/
theorem path_lies {data : Bool} {start : Nat} (h : c.Stands text) (hstart : Text.Cut text start)
    (hle : start ≤ c.current.span.stop) :
    Fault.OrElse text (ReadsIn text c fun p c' => ExprLies text (.path p) c')
      (path data start c) := by
  rw [path]
  refine (segments_lies h).bind ?_
  rintro ⟨list, c'⟩ ⟨hstands, hstop⟩
  have hspan : Span.LiesIn text ⟨start, c'.previous.stop⟩ :=
    ⟨hstart, Nat.le_trans hle hstop, hstands.previous.le⟩
  obtain ⟨hcurrent, hbehind⟩ := h.current
  have hmono : c.previous.stop ≤ c'.previous.stop :=
    Nat.le_trans hbehind (Nat.le_trans hcurrent.start_le hstop)
  simp only [Segment.toPath]
  split
  · refine ⟨⟨hstands, hmono⟩, ?_, rfl⟩
    rw [Expr.spanTree]
    exact SpansLie.node_iff.mpr ⟨hspan, .nil⟩
  · exact .ofStructure hspan

theorem pair_lies {pairs : List (Pair Expr)} {pair : Pair Expr}
    (h : SpansLie text (pairSpans pairs)) (hpair : pair ∈ pairs) :
    pair.span.LiesIn text ∧ SpansLie text [pair.value.spanTree] := by
  induction pairs with
  | nil => cases hpair
  | cons first rest ih =>
    rw [pairSpans, SpansLie.cons_iff] at h
    rcases List.mem_cons.mp hpair with rfl | hpair
    · exact SpansLie.node_iff.mp h.1
    · exact ih h.2 hpair

/-- Named arguments lie in the text as a whole. -/
theorem hashSpan_lies {pairs : List (Pair Expr)} (h : c.Stands text)
    (hpairs : SpansLie text (pairSpans pairs)) : (hashSpan c pairs).LiesIn text := by
  cases pairs with
  | nil => exact .point h.previous
  | cons first rest =>
    refine (pair_lies hpairs List.mem_cons_self).1.merge (pair_lies hpairs ?_).1
    cases hlast : rest.getLast? with
    | none => exact List.mem_cons_self
    | some last => exact List.mem_cons_of_mem _ (List.mem_of_getLast? hlast)

mutual

theorem expr_lies (fuel : Nat) : Reader.Lies text (ExprLies text) (expr fuel) := by
  intro c h
  match fuel with
  | 0 =>
    rw [expr]
    exact h.unexpected _
  | fuel + 1 =>
    -- Literals are one token each.
    have hliteral : ∀ value : Literal, c.kind ≠ .eof →
        ReadsIn text c (ExprLies text) (.literal value c.current.span, c.advance) := by
      intro value hkind
      obtain ⟨hleads, hprevious⟩ := h.advance hkind
      refine ⟨hleads, ?_, by rw [hprevious]; rfl⟩
      rw [Expr.spanTree]
      exact SpansLie.node_iff.mpr ⟨h.current.1, .nil⟩
    rw [expr]
    simp only
    split
    · next hkind =>
      have hkind' : c.kind ≠ .eof := by rw [hkind]; simp
      obtain ⟨hleads, -⟩ := h.advance hkind'
      -- A call in parentheses, from the opening one to the closing one.
      refine (call_lies fuel _ hleads.stands).bind ?_
      rintro ⟨inner, c₁⟩ ⟨hleads₁, hcall⟩
      refine .ite (fun hclose => ?_) fun _ => hleads₁.stands.unexpected _
      refine (checkCallee_lies hcall).bind fun _ _ => ?_
      obtain ⟨hleads₂, hprevious₂⟩ := hleads₁.stands.advance (by rw [hclose]; simp)
      have hstart := (hleads₁.trans hleads₂).start_le h hkind'
      rw [hprevious₂] at hstart
      refine ⟨hleads.trans (hleads₁.trans hleads₂), ?_, by rw [hprevious₂]; rfl⟩
      rw [Expr.spanTree]
      exact SpansLie.node_iff.mpr
        ⟨⟨h.current.1.cut, hstart, hleads₁.stands.current.1.stop_le⟩, hcall⟩
    · next hkind =>
      have hkind' : c.kind ≠ .eof := by rw [hkind]; simp
      obtain ⟨hleads, hprevious⟩ := h.advance hkind'
      obtain ⟨hnext, hbehind⟩ := hleads.stands.current
      -- A path behind an at sign, which is the start of it.
      have hstart := Nat.le_trans (hleads.stands.leads.start_le h hkind') hbehind
      refine (path_lies hleads.stands h.current.1.cut (Nat.le_trans hstart hnext.start_le)).bind ?_
      rintro ⟨p, c₁⟩ ⟨hleads₁, hp⟩
      exact ⟨hleads.trans hleads₁, hp⟩
    · next hkind => exact (path_lies h h.current.1.cut h.current.1.start_le).bind fun _ hp => hp
    · next hkind => exact hliteral _ (by rw [hkind]; simp)
    · next hkind => exact hliteral _ (by rw [hkind]; simp)
    · next hkind => exact hliteral _ (by rw [hkind]; simp)
    · next hkind => exact hliteral _ (by rw [hkind]; simp)
    · next hkind => exact hliteral _ (by rw [hkind]; simp)
    · exact h.unexpected _

theorem call_lies (fuel : Nat) :
    Reader.Lies text (fun inner _ => SpansLie text (callSpans inner)) (call fuel) := by
  intro c h
  match fuel with
  | 0 =>
    rw [call]
    exact h.unexpected _
  | fuel + 1 =>
    rw [call]
    refine (expr_lies fuel c h).bind ?_
    rintro ⟨callee, c₁⟩ ⟨hleads₁, hcallee⟩
    refine (params_lies fuel c₁ hleads₁.stands).bind ?_
    rintro ⟨params, c₂⟩ ⟨hleads₂, hparams⟩
    refine (pairs_lies fuel c₂ hleads₂.stands).bind ?_
    rintro ⟨pairs, c₃⟩ ⟨hleads₃, hpairs⟩
    refine ⟨hleads₁.trans (hleads₂.trans hleads₃), ?_⟩
    show SpansLie text (callSpans ⟨callee, params, pairs, hashSpan c₃ pairs⟩)
    rw [callSpans, SpansLie.cons_iff, SpansLie.append_iff, SpansLie.node_iff]
    exact ⟨hcallee.1, hparams, hashSpan_lies hleads₃.stands hpairs, hpairs⟩

theorem params_lies (fuel : Nat) :
    Reader.Lies text (fun params _ => SpansLie text (exprSpans params)) (params fuel) := by
  intro c h
  match fuel with
  | 0 =>
    rw [params]
    exact h.unexpected _
  | fuel + 1 =>
    rw [params]
    refine .ite (fun _ => ?_) fun _ => ⟨h.leads, .nil⟩
    refine (expr_lies fuel c h).bind ?_
    rintro ⟨first, c₁⟩ ⟨hleads₁, hfirst⟩
    refine (params_lies fuel c₁ hleads₁.stands).bind ?_
    rintro ⟨rest, c₂⟩ ⟨hleads₂, hrest⟩
    exact ⟨hleads₁.trans hleads₂, SpansLie.cons_iff.mpr ⟨hfirst.1, hrest⟩⟩

theorem pairs_lies (fuel : Nat) :
    Reader.Lies text (fun pairs _ => SpansLie text (pairSpans pairs)) (pairs fuel) := by
  intro c h
  match fuel with
  | 0 =>
    rw [pairs]
    exact h.unexpected _
  | fuel + 1 =>
    rw [pairs]
    split
    · next raw hkind hequals =>
      have hkind' : c.kind ≠ .eof := by rw [hkind]; simp
      obtain ⟨hleads, -⟩ := h.advance hkind'
      obtain ⟨hleads', -⟩ := hleads.stands.advance (by rw [c.kind_advance hkind']; simp [hequals])
      refine (expr_lies fuel _ hleads'.stands).bind ?_
      rintro ⟨value, c₁⟩ ⟨hleads₁, hvalue⟩
      refine (pairs_lies fuel c₁ hleads₁.stands).bind ?_
      rintro ⟨rest, c₂⟩ ⟨hleads₂, hrest⟩
      refine ⟨hleads.trans (hleads'.trans (hleads₁.trans hleads₂)), ?_⟩
      -- The argument ends where its value does, behind its name.
      have hstart := (hleads'.trans hleads₁).start_le h hkind'
      rw [← hvalue.2] at hstart
      have hstop := hvalue.1.lies.stop_le
      rw [Expr.spanTree_span] at hstop
      exact SpansLie.cons_iff.mpr
        ⟨SpansLie.node_iff.mpr ⟨⟨h.current.1.cut, hstart, hstop⟩, hvalue.1⟩, hrest⟩
    · exact ⟨h.leads, .nil⟩

end

/-! ### Tags -/

theorem paramNames_lies {tokens : List Token} {previous : Span}
    (h : Cursor.Stands text ⟨previous, tokens⟩) :
    Cursor.Leads text ⟨previous, tokens⟩ (paramNames tokens previous).2 := by
  obtain ⟨names, hreads, -⟩ := paramNames_sound tokens previous
  exact hreads.leads h

theorem blockParams_lies : Reader.Lies text (fun _ _ => True) blockParams := by
  intro c h
  rw [blockParams]
  split
  · next hkind =>
    obtain ⟨hleads, -⟩ := h.advance (by rw [hkind]; simp)
    have hnames : c.advance.Leads text (paramNames c.advance.tokens c.advance.previous).2 :=
      paramNames_lies hleads.stands
    simp only
    refine .ite (fun _ => hnames.stands.unexpected _) fun _ => ?_
    refine .ite (fun hclose => ?_) fun _ => hnames.stands.unexpected _
    obtain ⟨hleads', -⟩ := hnames.stands.advance (by rw [hclose]; simp)
    exact ⟨hleads.trans (hnames.trans hleads'), trivial⟩
  · exact ⟨h.leads, trivial⟩

theorem closeTag_lies (expected : List String) :
    Reader.Lies text (fun closing c' => closing.2 = c'.previous.stop) (closeTag expected) := by
  intro c h
  rw [closeTag]
  split
  · next strip hkind =>
    obtain ⟨hleads, hprevious⟩ := h.advance (by rw [hkind]; simp)
    exact ⟨hleads, congrArg Span.stop hprevious.symm⟩
  · exact h.unexpected _

theorem closeUnescapedTag_lies :
    Reader.Lies text (fun closing c' => closing.2 = c'.previous.stop) closeUnescapedTag := by
  intro c h
  rw [closeUnescapedTag]
  split
  · next strip hkind =>
    obtain ⟨hleads, hprevious⟩ := h.advance (by rw [hkind]; simp)
    exact ⟨hleads, congrArg Span.stop hprevious.symm⟩
  · exact h.unexpected _

/-- A tag stands from the token that opens it to the one that closes it. -/
theorem tag_lies {c' : Cursor} {ts : List SpanTree} {stop : Nat} (h : c.Stands text)
    (hkind : c.kind ≠ .eof) (hleads : c.advance.Leads text c') (hstop : stop = c'.previous.stop)
    (hts : SpansLie text ts) : SpansLie text [.node ⟨c.current.span.start, stop⟩ ts] := by
  subst hstop
  exact SpansLie.node_iff.mpr
    ⟨⟨h.current.1.cut, hleads.start_le h hkind, hleads.stands.previous.le⟩, hts⟩

theorem mustache_lies {fuel : Nat} {openStrip trusting unescaped : Bool} (h : c.Stands text)
    (hkind : c.kind ≠ .eof) : Fault.OrElse text
      (ReadsIn text c fun tag _ => SpansLie text [tag.spanTree])
      (mustache fuel openStrip trusting unescaped c) := by
  obtain ⟨hleads, -⟩ := h.advance hkind
  rw [mustache]
  refine (call_lies fuel _ hleads.stands).bind ?_
  rintro ⟨inner, c₁⟩ ⟨hleads₁, hcall⟩
  -- Both ends of a tag are followed by the same check.
  have hresult : ∀ {closeStrip : Bool} {stop : Nat} {c₂ : Cursor}, c₁.Leads text c₂ →
      stop = c₂.previous.stop →
      ReadsIn text c (fun (tag : MustacheTag) _ => SpansLie text [tag.spanTree])
        (⟨inner, trusting, ⟨openStrip, closeStrip⟩, ⟨c.current.span.start, stop⟩⟩, c₂) :=
    fun hleads₂ hstop => ⟨hleads.trans (hleads₁.trans hleads₂),
      tag_lies h hkind (hleads₁.trans hleads₂) hstop hcall⟩
  refine .ite (fun _ => ?_) fun _ => ?_
  · refine (closeUnescapedTag_lies c₁ hleads₁.stands).bind ?_
    rintro ⟨⟨closeStrip, stop⟩, c₂⟩ ⟨hleads₂, hstop⟩
    refine .ite (fun _ => ?_) fun _ => hresult hleads₂ hstop
    exact (checkCallee_lies hcall).bind fun _ _ => hresult hleads₂ hstop
  · refine (closeTag_lies _ c₁ hleads₁.stands).bind ?_
    rintro ⟨⟨closeStrip, stop⟩, c₂⟩ ⟨hleads₂, hstop⟩
    refine .ite (fun _ => ?_) fun _ => hresult hleads₂ hstop
    exact (checkCallee_lies hcall).bind fun _ _ => hresult hleads₂ hstop

theorem partialTag_lies {fuel : Nat} {openStrip : Bool} (h : c.Stands text)
    (hkind : c.kind ≠ .eof) : Fault.OrElse text
      (ReadsIn text c fun tag _ => SpansLie text [tag.spanTree]) (partialTag fuel openStrip c) := by
  obtain ⟨hleads, -⟩ := h.advance hkind
  rw [partialTag]
  refine (call_lies fuel _ hleads.stands).bind ?_
  rintro ⟨inner, c₁⟩ ⟨hleads₁, hcall⟩
  refine (closeTag_lies _ c₁ hleads₁.stands).bind ?_
  rintro ⟨⟨closeStrip, stop⟩, c₂⟩ ⟨hleads₂, hstop⟩
  exact ⟨hleads.trans (hleads₁.trans hleads₂),
    tag_lies h hkind (hleads₁.trans hleads₂) hstop hcall⟩

theorem blockOpening_lies (fuel : Nat) :
    Reader.Lies text (fun opening _ => SpansLie text (callSpans opening.1))
      (blockOpening fuel) := by
  intro c h
  rw [blockOpening]
  refine (call_lies fuel c h).bind ?_
  rintro ⟨inner, c₁⟩ ⟨hleads₁, hcall⟩
  refine (blockParams_lies c₁ hleads₁.stands).bind ?_
  rintro ⟨names, c₂⟩ ⟨hleads₂, -⟩
  refine (closeTag_lies _ c₂ hleads₂.stands).bind ?_
  rintro ⟨closing, c₃⟩ ⟨hleads₃, -⟩
  refine (checkCallee_lies hcall).bind fun _ _ => ?_
  exact ⟨hleads₁.trans (hleads₂.trans hleads₃), hcall⟩

theorem blockClosing_lies (fuel : Nat) (expected : List String) :
    Reader.Lies text (fun closing c' => closing.2.2 = c'.previous.stop)
      (blockClosing fuel expected) := by
  intro c h
  rw [blockClosing]
  split
  · next openStrip hkind =>
    obtain ⟨hleads, -⟩ := h.advance (by rw [hkind]; simp)
    refine (expr_lies fuel _ hleads.stands).bind ?_
    rintro ⟨name, c₁⟩ ⟨hleads₁, -⟩
    refine (closeTag_lies _ c₁ hleads₁.stands).bind ?_
    rintro ⟨closing, c₂⟩ ⟨hleads₂, hstop⟩
    exact ⟨hleads.trans (hleads₁.trans hleads₂), hstop⟩
  · exact h.unexpected _

/-! ### Programs -/

mutual

/-- The spans of a statement. -/
def Node.spanTree : Node → SpanTree
  | .content c => .node c.span []
  | .comment _ _ span => .node span []
  | .mustache tag => tag.spanTree
  | .partialCall tag => tag.spanTree
  | .block tag program other =>
    .node tag.span (callSpans tag.call ++ (programSpans program :: otherSpans other))

/-- The spans of statements. -/
def nodeSpans : List Node → List SpanTree
  | [] => []
  | n :: rest => n.spanTree :: nodeSpans rest

/-- The spans of a program, with the place where it ends. -/
def programSpans : Program → SpanTree
  | ⟨body, _, _, span⟩ => .node span (.node (.point span.stop) [] :: nodeSpans body)

/-- The spans of a program that may be missing. -/
def otherSpans : Option Program → List SpanTree
  | none => []
  | some program => [programSpans program]

end

theorem setChainClose_spans (strip : Strip) (other : Option Program) :
    otherSpans (setChainClose strip other) = otherSpans other := by
  unfold setChainClose
  split
  · simp only [otherSpans, programSpans, nodeSpans, Node.spanTree]
  · rfl

theorem programBetween_lies {first last : Cursor} {body : List Node} {names : List String}
    (hfirst : first.Stands text) (hlast : last.Stands text)
    (hbody : SpansLie text (nodeSpans body)) :
    SpansLie text [programSpans (programBetween first last body names)] := by
  have hcut : Text.Cut text (max last.current.span.start first.current.span.start) := by
    rcases Nat.le_total last.current.span.start first.current.span.start with hle | hle
    · rw [Nat.max_eq_right hle]
      exact hfirst.current.1.cut
    · rw [Nat.max_eq_left hle]
      exact hlast.current.1.cut
  rw [programBetween, programSpans, SpansLie.node_iff, SpansLie.cons_iff, SpansLie.node_iff]
  exact ⟨⟨hfirst.current.1.cut, Nat.le_max_right _ _, hcut.le⟩, ⟨.point hcut, .nil⟩, hbody⟩

mutual

theorem statements_lies (fuel : Nat) :
    Reader.Lies text (fun body _ => SpansLie text (nodeSpans body)) (statements fuel) := by
  intro c h
  match fuel with
  | 0 =>
    rw [statements]
    exact h.unexpected _
  | fuel + 1 =>
    -- A statement, and those that follow it.
    have hcons : ∀ {c₁ : Cursor} {n : Node}, c.Leads text c₁ → SpansLie text [n.spanTree] →
        Fault.OrElse text (ReadsIn text c fun body _ => SpansLie text (nodeSpans body))
          (do
            let (rest, c) ← statements fuel c₁
            return (n :: rest, c)) := by
      intro c₁ n hleads hn
      refine (statements_lies fuel c₁ hleads.stands).bind ?_
      rintro ⟨rest, c₂⟩ ⟨hleads₂, hrest⟩
      exact ⟨hleads.trans hleads₂, SpansLie.cons_iff.mpr ⟨hn, hrest⟩⟩
    have hleaf : SpansLie text [.node c.current.span []] :=
      SpansLie.node_iff.mpr ⟨h.current.1, .nil⟩
    have hunsupported : ∀ message, (c.unsupported message).LiesIn text :=
      fun message => .ofStructure h.current.1
    rw [statements]
    simp only
    split
    · next value hkind => exact hcons (h.advance (by rw [hkind]; simp)).1 hleaf
    · next value strip hkind => exact hcons (h.advance (by rw [hkind]; simp)).1 hleaf
    · next strip ampersand hkind =>
      refine (mustache_lies h (by rw [hkind]; simp)).bind ?_
      rintro ⟨tag, c₁⟩ ⟨hleads₁, htag⟩
      exact hcons (n := .mustache tag) hleads₁ htag
    · next strip hkind =>
      refine (mustache_lies h (by rw [hkind]; simp)).bind ?_
      rintro ⟨tag, c₁⟩ ⟨hleads₁, htag⟩
      exact hcons (n := .mustache tag) hleads₁ htag
    · next strip hkind =>
      refine (block_lies fuel strip h (by rw [hkind]; simp)).bind ?_
      rintro ⟨n, c₁⟩ ⟨hleads₁, hn⟩
      exact hcons hleads₁ hn
    · next strip hkind =>
      refine (partialTag_lies h (by rw [hkind]; simp)).bind ?_
      rintro ⟨tag, c₁⟩ ⟨hleads₁, htag⟩
      exact hcons (n := .partialCall tag) hleads₁ htag
    · exact hunsupported _
    · exact hunsupported _
    · exact hunsupported _
    · exact hunsupported _
    · exact hunsupported _
    · exact ⟨h.leads, .nil⟩

theorem block_lies (fuel : Nat) (openStrip : Bool) {c : Cursor} (h : c.Stands text)
    (hkind : c.kind ≠ .eof) :
    Fault.OrElse text (ReadsIn text c fun n _ => SpansLie text [n.spanTree])
      (block fuel openStrip c) := by
  match fuel with
  | 0 =>
    rw [block]
    exact h.unexpected _
  | fuel + 1 =>
    obtain ⟨hleads, -⟩ := h.advance hkind
    rw [block]
    refine (blockOpening_lies fuel _ hleads.stands).bind ?_
    rintro ⟨⟨inner, names, openClose⟩, first⟩ ⟨hleads₁, hcall⟩
    refine (statements_lies fuel first hleads₁.stands).bind ?_
    rintro ⟨body, last⟩ ⟨hleads₂, hbody⟩
    refine (inverse_lies fuel last hleads₂.stands).bind ?_
    rintro ⟨⟨other, inverseStrip⟩, c₃⟩ ⟨hleads₃, hother⟩
    refine (blockClosing_lies fuel _ c₃ hleads₃.stands).bind ?_
    rintro ⟨⟨closeName, closeStrip, stop⟩, c₄⟩ ⟨hleads₄, hstop⟩
    -- The four readers, each from where the one before it stopped.
    have hleads' := hleads₁.trans (hleads₂.trans (hleads₃.trans hleads₄))
    refine .ite (fun _ => ⟨hleads.trans hleads', ?_⟩) fun _ => .ofStructure ?_
    · show SpansLie text [Node.spanTree _]
      rw [Node.spanTree, setChainClose_spans]
      refine tag_lies h hkind hleads' hstop (SpansLie.append_iff.mpr ⟨hcall, ?_⟩)
      exact SpansLie.cons_iff.mpr
        ⟨programBetween_lies hleads₁.stands hleads₂.stands hbody, hother⟩
    -- The names differ: the fault points at the callee, whose span was read.
    · obtain ⟨callee, params, hash⟩ := inner
      have hcallee := (SpansLie.cons_iff.mp hcall).1.lies
      rwa [Expr.spanTree_span] at hcallee

theorem inverse_lies (fuel : Nat) :
    Reader.Lies text (fun other _ => SpansLie text (otherSpans other.1)) (inverse fuel) := by
  intro c h
  match fuel with
  | 0 =>
    rw [inverse]
    exact h.unexpected _
  | fuel + 1 =>
    rw [inverse]
    simp only
    split
    · next strip hkind =>
      obtain ⟨hleads, -⟩ := h.advance (by rw [hkind]; simp)
      refine (statements_lies fuel _ hleads.stands).bind ?_
      rintro ⟨body, last⟩ ⟨hleads₁, hbody⟩
      exact ⟨hleads.trans hleads₁, programBetween_lies hleads.stands hleads₁.stands hbody⟩
    · next openStrip hkind =>
      have hkind' : c.kind ≠ .eof := by rw [hkind]; simp
      obtain ⟨hleads, -⟩ := h.advance hkind'
      refine (blockOpening_lies fuel _ hleads.stands).bind ?_
      rintro ⟨⟨inner, names, closeStrip⟩, first⟩ ⟨hleads₁, hcall⟩
      refine (statements_lies fuel first hleads₁.stands).bind ?_
      rintro ⟨body, last⟩ ⟨hleads₂, hbody⟩
      refine (inverse_lies fuel last hleads₂.stands).bind ?_
      rintro ⟨⟨other, inverseStrip⟩, c₃⟩ ⟨hleads₃, hother⟩
      have hleads' := hleads₁.trans (hleads₂.trans hleads₃)
      obtain ⟨hcurrent, hbehind⟩ := hleads₃.stands.current
      have hspan : Span.LiesIn text ⟨c.current.span.start, c₃.current.span.start⟩ :=
        ⟨h.current.1.cut, Nat.le_trans (hleads'.start_le h hkind') hbehind, hcurrent.cut.le⟩
      -- A link is a block in a program of its own, and both have the same span.
      refine ⟨hleads.trans hleads', ?_⟩
      show SpansLie text (otherSpans (some ⟨[.block _ _ _], _, _, _⟩))
      rw [otherSpans, programSpans, nodeSpans, nodeSpans, Node.spanTree, setChainClose_spans,
        SpansLie.node_iff, SpansLie.cons_iff, SpansLie.node_iff, SpansLie.node_iff,
        SpansLie.append_iff, SpansLie.cons_iff]
      exact ⟨hspan, ⟨.point hcurrent.cut, .nil⟩, hspan, hcall,
        programBetween_lies hleads₁.stands hleads₂.stands hbody, hother⟩
    · exact ⟨h.leads, .nil⟩

end

/-- The spans of a program, and the places of a fault in reading it, lie in the source. -/
theorem parseProgram_lies {source : String} (hlength : Text.byteLength source.toList ≤ maxOffset) :
    Fault.OrElse source.toList (fun program => SpansLie source.toList [programSpans program])
      (parseProgram (lex source)) := by
  have hstart : Cursor.Stands source.toList { tokens := lex source } :=
    ⟨lex_ends source, .zero _, lex_cuts hlength,
      (lex_inOrder source).weaken (Nat.min_le_left _ _)⟩
  rw [parseProgram]
  refine (statements_lies _ _ hstart).bind ?_
  rintro ⟨body, c⟩ ⟨hleads, hbody⟩
  refine .ite (fun _ => ?_) fun _ => hleads.stands.unexpected _
  have hcut := (hleads.stands.cuts _ hleads.stands.mem_current).2
  show SpansLie source.toList [programSpans ⟨body, [], false, ⟨0, c.current.span.stop⟩⟩]
  rw [programSpans, SpansLie.node_iff, SpansLie.cons_iff, SpansLie.node_iff]
  exact ⟨⟨.zero _, Nat.zero_le _, hcut.le⟩, ⟨.point hcut, .nil⟩, hbody⟩

mutual

/-- Whitespace control leaves all spans as they are. -/
theorem Node.StripsTo.spans {n n' : Node} : n.StripsTo n' → n'.spanTree = n.spanTree
  | .content h => by simp only [Node.spanTree, h.span]
  | .comment => rfl
  | .mustache => rfl
  | .partialCall => rfl
  | .block hprogram hother => by simp only [Node.spanTree, hprogram.spans, hother.spans]

theorem NodesStripTo.spans {ns ns' : List Node} : NodesStripTo ns ns' → nodeSpans ns' = nodeSpans ns
  | .nil => rfl
  | .cons hfirst hrest => by simp only [nodeSpans, hfirst.spans, hrest.spans]

theorem ProgramStripsTo.spans {p p' : Program} :
    ProgramStripsTo p p' → programSpans p' = programSpans p
  | .mk hbody => by
    cases p
    simp only [programSpans, hbody.spans]

theorem OtherStripsTo.spans {other other' : Option Program} :
    OtherStripsTo other other' → otherSpans other' = otherSpans other
  | .none => rfl
  | .some hprogram => by simp only [otherSpans, hprogram.spans]

end

end Mustache

end TemplateCompiler
