/-
Every link of a chain stands in the text of its template.

* `exists_stretch` — a text is cut at any token of a tag, into a stretch before it and
  what it begins;
* `exists_mark`, `exists_end` — what the mark of a link and a closing tag look like;
* `exists_link` — an `else` with more after it, in an accepted template, is the mark of
  a link.
-/
import TemplateCompiler.Proofs.Mustache.Links

namespace TemplateCompiler.Mustache

open Text (byteLength byteLength_append)

/-! ### Cutting a text at a token -/

/-- A text is ready to be read inside a tag or between tags: the lexer and the grammar are in the
same place, or the lexer stands at the braces that begin a tag. -/
inductive Ready : Mode → Mode → List Char → Prop
  | same {mode : Mode} {input : List Char} : Ready mode mode input
  | braces {rest : List Char} : Ready .tag .content ('{' :: rest)

theorem textCuts_not_inTag (value : List Char) (stop : Nat) :
    ∀ c ∈ textCuts value stop, ¬c.kind.InTag := by
  rw [textCuts]
  split
  · simp
  · exact List.forall_mem_singleton.mpr id

namespace Tagged

variable {mode mode' : Mode} {ts : List Token}

/-- Runs of text stay between tags. -/
theorem of_texts (hts : ∀ t ∈ ts, ¬t.kind.InTag) (h : Tagged .content ts mode') :
    mode' = .content := by
  induction ts with
  | nil =>
    cases h
    rfl
  | cons t ts ih =>
    rw [List.forall_mem_cons] at hts
    cases h with
    | whole ht h => exact ih hts.2 h
    | opens ht h =>
      obtain ⟨kind, span⟩ := t
      cases kind <;> first
        | exact absurd trivial hts.1
        | cases ht

/-- What follows a token of a tag begins where the lexer goes on. -/
theorem of_lexeme {c : Char} {more : List Char} {span : Span}
    (h : Tagged mode (⟨(tagLexeme c more).kind, span⟩ :: ts) mode') :
    Tagged (if (tagLexeme c more).ends then .content else .tag) ts mode' := by
  rw [tagLexeme_ends]
  generalize (tagLexeme c more).kind = kind at h
  cases h with
  | whole ht h | opens ht h | word ht h | closes ht h =>
    cases kind <;> first
      | exact h
      | cases ht

end Tagged

theorem lastCuts_not_inTag (mode : Mode) (input : List Char) :
    ∀ c ∈ lastCuts mode input, ¬c.kind.InTag := by
  cases mode with
  | content =>
    exact List.forall_mem_append.mpr
      ⟨textCuts_not_inTag _ _, List.forall_mem_singleton.mpr id⟩
  | tag => exact List.forall_mem_singleton.mpr id

/-- A token of a tag stands behind the runs of text that come first. -/
theorem split_texts {cuts : List Cut} {offset : Nat} {us later rest : List Token} {t : Token}
    {run' : Mode} (hcuts : ∀ c ∈ cuts, ¬c.kind.InTag) (ht : t.kind.InTag)
    (h : cuts.map (·.place offset) ++ later = us ++ t :: rest) (hus : Tagged .content us run') :
    ∃ us', us = cuts.map (·.place offset) ++ us' ∧ later = us' ++ t :: rest ∧
      Tagged .content us' run' := by
  have htexts : ∀ u ∈ cuts.map (·.place offset), ¬u.kind.InTag := by
    simpa using hcuts
  rcases split_at h.symm with ⟨more, hfirst, -⟩ | ⟨us', rfl, hlater⟩
  · exact absurd ht (htexts t (by rw [hfirst]; simp))
  · obtain ⟨run₁, hfirst, hrest⟩ := hus.split
    obtain rfl := hfirst.of_texts htexts
    exact ⟨us', rfl, hlater, hrest⟩

/-- A text is cut where one of its tags goes on: what comes before is a stretch, and no blanks
stand in front of a tag. -/
theorem exists_stretch (mode run : Mode) (input : List Char) {run' : Mode} {offset : Nat}
    {us rest : List Token} {t : Token} (hready : Ready mode run input)
    (h : lexFrom mode offset input = us ++ t :: rest) (ht : t.kind.InTag)
    (hus : Tagged run us run') :
    ∃ stretch more cuts, input = stretch ++ more ∧ Lexes mode stretch more cuts .tag ∧
      us = cuts.map (·.place offset) ∧ lexFrom .tag (offset + byteLength stretch) more = t :: rest ∧
      Ready .tag run' more := by
  rcases lexFrom_cases mode input with hlast | ⟨first, tail, cuts, mode₁, hinput, hstep, hshorter⟩
  · -- At the end there are only text and the end itself.
    have hmem : t ∈ (lastCuts mode input).map (·.place offset) := by
      rw [← hlast offset, h]
      simp
    obtain ⟨c, hc, rfl⟩ := List.mem_map.mp hmem
    exact absurd ht (lastCuts_not_inTag mode input c hc)
  have hfound := h
  rw [hinput, hstep.lexFrom_eq] at hfound
  -- What follows the first step is cut by the rest of the text.
  have hstretch : ∀ {run₁ us'}, us = cuts.map (·.place offset) ++ us' →
      lexFrom mode₁ (offset + byteLength first) tail = us' ++ t :: rest → Tagged run₁ us' run' →
      Ready mode₁ run₁ tail →
      ∃ stretch more cuts, input = stretch ++ more ∧ Lexes mode stretch more cuts .tag ∧
        us = cuts.map (·.place offset) ∧
        lexFrom .tag (offset + byteLength stretch) more = t :: rest ∧ Ready .tag run' more := by
    intro run₁ us' hsplit htail htagged hready
    obtain ⟨stretch, more, cuts', rfl, hlexes, rfl, hmore, hnext⟩ :=
      exists_stretch mode₁ run₁ tail hready htail ht htagged
    refine ⟨first ++ stretch, more, _, hinput.trans (List.append_assoc _ _ _).symm,
      .step hstep hlexes, ?_, ?_, hnext⟩
    · rw [hsplit]
      simp [Function.comp_def]
    · rw [byteLength_append, ← Nat.add_assoc]
      exact hmore
  subst hinput
  cases hstep with
  | @text text rest' hsplit hne hescape =>
    cases hready with
    | same =>
      obtain ⟨us', husplit, htail, htagged⟩ :=
        split_texts (textCuts_not_inTag _ _) ht hfound hus
      obtain ⟨c, tail, rfl⟩ := List.exists_cons_of_ne_nil hne
      obtain ⟨rfl, -⟩ := List.cons_prefix_cons.mp (splitAtBraces_snd (congrArg Prod.snd hsplit))
      exact hstretch husplit htail htagged .braces
  | @escaped text braces _ hsplit hbraces hne hdouble hsingle =>
    cases hready with
    | same =>
      have hafter : ∀ c ∈ (textCuts braces (byteLength braces)).map (·.after (byteLength text)),
          ¬c.kind.InTag := List.forall_mem_map.mpr (textCuts_not_inTag _ _)
      obtain ⟨us', husplit, htail, htagged⟩ :=
        split_texts (List.forall_mem_append.mpr ⟨textCuts_not_inTag _ _, hafter⟩) ht hfound hus
      exact hstretch husplit htail htagged .same
  | @token blanks c more _ hblanks hc hmore =>
    cases us with
    | nil =>
      cases hus
      exact ⟨[], _, [], rfl, .nil, rfl, h, hready⟩
    | cons u us =>
      obtain ⟨rfl, htail⟩ := List.cons.inj hfound
      exact hstretch rfl htail hus.of_lexeme .same
termination_by lexMeasure mode input
decreasing_by exact hshorter

/-! ### Tags that open -/

/-- What opens a tag, after its braces and its tilde. -/
theorem openRule_eq {rest : List Char} {l : Lexeme} (h : openRule ('{' :: rest) = some l)
    (hraw : l.kind ≠ .openRawBlock) :
    ∃ strip tail, rest = '{' :: (tilde strip ++ tail) ∧
      l = openLexeme ('{' :: rest) strip ((tilde strip).length + 1) tail := by
  unfold openRule at h
  split at h
  · cases h
    exact absurd rfl hraw
  · next tail hrest =>
    obtain ⟨-, rfl⟩ := List.cons.inj hrest
    exact ⟨true, tail, rfl, (Option.some.inj h).symm⟩
  · next tail _ _ hrest =>
    obtain ⟨-, rfl⟩ := List.cons.inj hrest
    exact ⟨false, tail, rfl, (Option.some.inj h).symm⟩
  · cases h

theorem elseLength?_eq_some {cs : List Char} {length : Nat} (h : elseLength? cs = some length) :
    ∃ pad rest, cs = pad ++ 'e' :: 'l' :: 's' :: 'e' :: rest ∧ pad.all Text.isBlank = true ∧
      headIs isIdChar rest = false ∧ length = pad.length + 4 := by
  unfold elseLength? at h
  simp only at h
  split at h
  · next rest hrest =>
    obtain ⟨hid, h⟩ := Option.ite_none_left_eq_some.mp h
    refine ⟨cs.takeWhile Text.isBlank, rest, ?_, List.all_takeWhile, by simpa using hid,
      (Option.some.inj h).symm⟩
    rw [← hrest, List.takeWhile_append_dropWhile]
  · cases h

theorem commentLexeme_ne (input : List Char) (long : Bool) {kind : TokenKind}
    (h : kind.opensTag = true) : (commentLexeme input long).kind ≠ kind := by
  rintro rfl
  unfold commentLexeme at h
  split at h <;> cases h

/-- A tag that begins with `else` and has more in it. -/
theorem openLexeme_chain {input tail : List Char} {strip strip' : Bool} {base : Nat}
    (h : (openLexeme input strip base tail).kind = .openInverseChain strip') :
    strip' = strip ∧ ∃ pad rest, tail = pad ++ 'e' :: 'l' :: 's' :: 'e' :: rest ∧
      pad.all Text.isBlank = true ∧ headIs isIdChar rest = false ∧ inverseClose? rest = none := by
  unfold openLexeme at h
  repeat' split at h
  all_goals try cases h
  all_goals try exact absurd h (commentLexeme_ne _ _ rfl)
  next word hword _ hclose =>
    obtain ⟨pad, rest, rfl, hpad, hrest, rfl⟩ := elseLength?_eq_some hword
    rw [List.drop_append, List.drop_of_length_le (by omega), Nat.add_sub_cancel_left] at hclose
    exact ⟨rfl, pad, rest, rfl, hpad, hrest, hclose⟩

/-- A tag that closes a block. -/
theorem openLexeme_end {input tail : List Char} {strip strip' : Bool} {base : Nat}
    (h : (openLexeme input strip base tail).kind = .openEndBlock strip') :
    strip' = strip ∧ ∃ rest, tail = '/' :: rest := by
  unfold openLexeme at h
  repeat' split at h
  all_goals try cases h
  all_goals try exact absurd h (commentLexeme_ne _ _ rfl)
  exact ⟨rfl, _, rfl⟩

/-- The first token of a text without blanks at its start. -/
theorem lexFrom_head {c : Char} {rest : List Char} {offset : Nat} {t : Token} {ts : List Token}
    (hc : Text.isBlank c = false) (h : lexFrom .tag offset (c :: rest) = t :: ts) :
    (tagLexeme c rest).kind = t.kind := by
  have hhalves := List.take_append_drop (tagLexeme c rest).more rest
  have hstep : LexStep .tag ([] ++ c :: rest.take (tagLexeme c rest).more)
      (rest.drop (tagLexeme c rest).more) _ _ := .token rfl hc (by rw [hhalves])
  have hlex := hstep.lexFrom_eq offset
  rw [List.nil_append, List.cons_append, hhalves, h] at hlex
  rw [(List.cons.inj hlex).1]
  rfl

/-- The mark of a link is braces, blanks and `else`. -/
theorem exists_mark {input : List Char} {offset : Nat} {strip : Bool} {span : Span}
    {ts : List Token}
    (hready : Ready .tag .content input)
    (h : lexFrom .tag offset input = ⟨.openInverseChain strip, span⟩ :: ts) :
    ∃ pad rest, input = elseMark strip pad ++ rest ∧ pad.all Text.isBlank = true ∧
      LexStep .tag (elseMark strip pad) rest
        [⟨.openInverseChain strip, 0, byteLength (elseMark strip pad)⟩] .tag ∧
      lexFrom .tag (offset + byteLength (elseMark strip pad)) rest = ts := by
  cases hready with
  | @braces rest =>
    have hkind := lexFrom_head (by decide) h
    have hopen := tagLexeme_opens (by rw [hkind]; rfl)
    obtain ⟨strip', tail, rfl, hlexeme⟩ := openRule_eq hopen (by rw [hkind]; simp)
    rw [hlexeme] at hkind
    obtain ⟨rfl, pad, rest, rfl, hpad, hrest, hclose⟩ := openLexeme_chain hkind
    have hinput : '{' :: '{' :: (tilde strip ++ (pad ++ 'e' :: 'l' :: 's' :: 'e' :: rest))
        = elseMark strip pad ++ rest := by
      simp [elseMark]
    have hread := tagLexeme_else strip rest hpad hrest
    rw [hclose] at hread
    have hstep : LexStep .tag (elseMark strip pad) rest _ _ :=
      LexStep.of_lexeme (elseMark strip pad).tail false (by decide) hread
    refine ⟨pad, rest, hinput, hpad, hstep, ?_⟩
    rw [hinput, hstep.lexFrom_eq] at h
    exact (List.cons.inj h).2

/-- The tag that closes a block begins with braces and a slash. -/
theorem exists_end {input : List Char} {offset : Nat} {strip : Bool} {ts : List Token}
    (hready : Ready .tag .content input) (hts : headKind ts = .openEndBlock strip)
    (h : lexFrom .tag offset input = ts) :
    ∃ rest, input = '{' :: '{' :: (tilde strip ++ '/' :: rest) := by
  cases ts with
  | nil => cases hts
  | cons t ts =>
    cases hready with
    | @braces rest =>
      have hkind := (lexFrom_head (by decide) h).trans hts
      have hopen := tagLexeme_opens (by rw [hkind]; rfl)
      obtain ⟨strip', tail, rfl, hlexeme⟩ := openRule_eq hopen (by rw [hkind]; simp)
      rw [hlexeme] at hkind
      obtain ⟨rfl, rest, rfl⟩ := openLexeme_end hkind
      exact ⟨rest, rfl⟩

/-- Blanks in front of the first token of a stretch. -/
theorem Lexes.unpad {stretch rest : List Char} {cuts : List Cut} {mode' : Mode}
    (h : Lexes .tag stretch rest cuts mode') (hcuts : cuts ≠ []) :
    ∃ blanks stretch' cuts', stretch = blanks ++ stretch' ∧ blanks.all Text.isBlank = true ∧
      Lexes .tag stretch' rest cuts' mode' ∧ cuts = cuts'.map (·.after (byteLength blanks)) := by
  generalize hmode : Mode.tag = mode at h
  cases h with
  | nil => exact absurd rfl hcuts
  | step hfirst hmore =>
    subst hmode
    cases hfirst with
    | @token blanks c more _ hblanks hc hlength =>
      have hbare : LexStep .tag ([] ++ c :: more) _ _ _ := .token rfl hc hlength
      refine ⟨blanks, _, _, List.append_assoc _ _ _, hblanks, .step hbare hmore, ?_⟩
      simp [Function.comp_def, Cut.after, Nat.add_assoc]

/-! ### Links -/

/-- Something in a tag has to close it. -/
theorem Tagged.exists_head {ts : List Token} (h : Tagged .tag ts .content) :
    ∃ t more, ts = t :: more ∧ t.kind.InTag := by
  cases h with
  | @word t more _ ht h | @closes t more _ ht h =>
    refine ⟨t, more, rfl, ?_⟩
    obtain ⟨kind, span⟩ := t
    cases kind <;> trivial

/-- What opens a block, after its callee. -/
theorem OpeningTree.tokens_eq (o : OpeningTree) :
    ∃ more, o.tokens = o.call.callee.tokens ++ more ∧ Tagged .tag more .content := by
  obtain ⟨⟨callee, params, pairs⟩, names, close⟩ := o
  refine ⟨exprsTokens params ++ pairsTokens pairs ++ (paramsTokens names ++ [closeToken close]),
    ?_, ?_⟩
  · rw [OpeningTree.tokens, callTokens, List.append_assoc]
  · have hwords : ∀ t ∈ exprsTokens params ++ pairsTokens pairs, t.kind.isWord = true :=
      List.forall_mem_append.mpr ⟨exprsTokens_words params, pairsTokens_words pairs⟩
    exact (Tagged.of_words hwords).append
      ((Tagged.of_words (paramsTokens_words names)).append (.closes rfl .nil))

/-- An `else` with more after it is the mark of a link among the statements of its program. -/
theorem exists_chain {ts front rest : List Token} {t : Token} {p : Program} (hends : Ends ts)
    (h : parseProgram ts = .ok p) (ht : t.isChain = true) (hts : ts = front ++ t :: rest) :
    ∃ (mark : Leaf Bool) (opening : OpeningTree) (body : List StatementTree)
      (inverse : Option InverseTree) (back : List Token),
      t = ⟨.openInverseChain mark.value, mark.span⟩ ∧
        rest = opening.tokens ++ (statementsTokens body ++ otherTokens inverse) ++ back ∧
        BeginsEnd back ∧ Tagged .content front .content := by
  obtain ⟨⟨ss, eof⟩, htokens, -, -⟩ := parseProgram_sound hends h
  rw [hts, RootTree.tokens] at htokens
  rcases split_at htokens.symm with ⟨more, hss, rfl⟩ | ⟨more, -, hlast⟩
  · obtain ⟨i, back, -, hbranch, hend⟩ := statements_hold ht ss hss
    have htagged := statements_tagged ss
    rw [hss] at htagged
    -- Tags are balanced around the token, so it opens one outside of all tags.
    obtain ⟨run, hfront, hrest⟩ := htagged.split
    cases i with
    | plain mark body =>
      rw [InverseTree.tokens] at hbranch
      obtain ⟨rfl, -⟩ := List.cons.inj hbranch
      cases ht
    | chain mark opening body inverse =>
      rw [InverseTree.tokens] at hbranch
      obtain ⟨rfl, rfl⟩ := List.cons.inj hbranch
      refine ⟨mark, opening, body, inverse, back ++ [⟨.eof, eof⟩], rfl, List.append_assoc _ _ _,
        hend.append _, ?_⟩
      cases hrest with
      | opens _ _ => exact hfront
      | whole hmark _ | word hmark _ | closes hmark _ => cases hmark
  · have hmem : t ∈ [(⟨.eof, eof⟩ : Token)] := by
      rw [hlast]
      simp
    obtain rfl := List.mem_singleton.mp hmem
    cases ht

/-- Every link of an accepted template stands in its text. -/
theorem exists_link {source : List Char} {p : Program}
    (h : parseProgram (lex (String.ofList source)) = .ok p) {front rest : List Token} {t : Token}
    (ht : t.isChain = true) (hlex : lex (String.ofList source) = front ++ t :: rest) :
    ∃ l : Link, l.chained = source ∧ l.frontCuts.map (·.place 0) = front := by
  obtain ⟨mark, opening, body, inverse, back, rfl, rfl, ⟨endStrip, hend⟩, hfront⟩ :=
    exists_chain (lex_ends _) h ht hlex
  rw [lex, String.toList_ofList] at hlex
  -- The text is taken apart from the front: first what stands before the mark.
  obtain ⟨frontText, markText, frontCuts, rfl, hfrontLexes, rfl, hmarkLex, hready⟩ :=
    exists_stretch .content .content source .same hlex trivial hfront
  obtain ⟨pad, linkText, rfl, hpad, hmarkStep, hlinkLex⟩ := exists_mark hready hmarkLex
  obtain ⟨more, hopening, hmore⟩ := opening.tokens_eq
  obtain ⟨next, others, rfl, hnext⟩ := hmore.exists_head
  rw [hopening, List.append_assoc, List.append_assoc, List.cons_append] at hlinkLex
  -- The name of the block that is opened, without the blanks before it.
  obtain ⟨nameText, innerText, cuts, rfl, hnameLexes, hnameCuts, hinnerLex, -⟩ :=
    exists_stretch .tag .tag linkText .same hlinkLex hnext (.of_words opening.call.callee.words)
  have hcuts : cuts ≠ [] := by
    rintro rfl
    exact opening.call.callee.tokens_ne_nil hnameCuts
  obtain ⟨gap, name, nameCuts, rfl, hgap, hname, rfl⟩ := hnameLexes.unpad hcuts
  cases back with
  | nil => cases hend
  | cons last back =>
    rw [← List.cons_append, ← List.append_assoc] at hinnerLex
    have hin : last.kind.InTag := by
      rw [show last.kind = .openEndBlock endStrip from hend]
      trivial
    -- What is left of the link, up to the tag that closes its block.
    obtain ⟨inner, afterText, innerCuts, rfl, hinner, hinnerCuts, hafterLex, hafter⟩ :=
      exists_stretch .tag .tag innerText .same hinnerLex hin
        (hmore.append ((statements_tagged body).append (other_tagged inverse)))
    obtain ⟨rest, rfl⟩ := exists_end hafter hend hafterLex
    have hnameKinds : cutKinds nameCuts = kinds opening.call.callee.tokens := by
      rw [hnameCuts, kinds_place, cutKinds_after]
    have hinnerKinds : cutKinds innerCuts
        = kinds (next :: others ++ (statementsTokens body ++ otherTokens inverse)) := by
      rw [hinnerCuts, kinds_place]
    rw [List.append_assoc] at hfrontLexes hmarkStep
    refine ⟨{
      front := frontText, strip := mark.value, pad, gap, name, inner, endStrip, rest, frontCuts
      nameCuts, innerCuts, opening, body, inverse
      pad_blank := hpad
      gap_blank := hgap
      front_lexes := hfrontLexes
      mark_lexes := hmarkStep
      name_lexes := hname
      inner_lexes := hinner
      name_kinds := hnameKinds
      link_kinds := ?_ }, ?_, rfl⟩
    · rw [cutKinds_append, hnameKinds, hinnerKinds, hopening, ← kinds_append, List.append_assoc]
    · simp [LinkText.chained, LinkText.after]

end TemplateCompiler.Mustache
