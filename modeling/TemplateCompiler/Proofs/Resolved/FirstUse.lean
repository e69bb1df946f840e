/-
Free names in the order of their use.

Upvars are numbered in the order in which the walk comes to them: a callee before
its positional and its named arguments, these before the blocks; the head of a
tag before its attributes in their order, its modifiers and its children.

* `exprNames`, `ownNames` — the free names in an expression and in a statement
  itself, in this order;
* `freeNames` — those of a whole template;
* `Numbered` — what a step adds to the numbers: these free names, unless they are
  there, and these cursors;
* `expr_numbered`, `elementAttr_numbered`, `modifierOf_numbered` — a value adds
  the free names that are written in it.
-/
import Mathlib.Data.List.Induction
import TemplateCompiler.Proofs.Resolved.Around
import TemplateCompiler.Proofs.Resolved.Agreement

namespace TemplateCompiler.Resolved

open Template (Path Pair Hash Call MustacheTag BlockTag StartTag ConcatPart AttrValue Statement)

/-! ### Free names in the order of the walk -/

section

variable (o : Settings) (around : List String)

/-- The free name at the head of a path. -/
def pathNames (p : Path) : List String :=
  match p.head with
  | .var name => if around.contains name then [] else [name]
  | _ => []

mutual

/-- The free names in an expression. -/
def exprNames : Template.Expr → List String
  | .literal _ _ => []
  | .path p => pathNames around p
  | .sub call _ => callNames (keywordIn? o around CallKeyword.ofName? call.callee).isSome call

/-- The free names in positional arguments. -/
def argumentNames : List Template.Expr → List String
  | [] => []
  | param :: rest => exprNames param ++ argumentNames rest

/-- The free names in named arguments. -/
def pairNames : List (Pair Template.Expr) → List String
  | [] => []
  | ⟨_, value, _⟩ :: rest => exprNames value ++ pairNames rest

/-- The free names in a call; a keyword is none. -/
def callNames (keyword : Bool) : Call Template.Expr → List String
  | ⟨callee, params, ⟨pairs, _⟩⟩ =>
    (if keyword then [] else exprNames callee) ++ argumentNames params ++ pairNames pairs

end

/-- The free names in a tag in the value of an attribute. -/
def attrTagNames (tag : MustacheTag) : List String :=
  callNames o around (keywordIn? o around CallKeyword.ofName? tag.call.callee).isSome tag.call

/-- The free names in a part of an attribute value. -/
def partNames : ConcatPart → List String
  | .text _ => []
  | .mustache tag => attrTagNames o around tag

/-- The free names in the value of an attribute. -/
def attrValueNames : AttrValue → List String
  | .text _ => []
  | .mustache tag => attrTagNames o around tag
  | .concat parts _ => parts.flatMap (partNames o around)

/-- The free names in attributes. -/
def attributeNames (attributes : List Template.Attr) : List String :=
  attributes.flatMap fun attr => attrValueNames o around attr.value

/-- The free names in modifiers. -/
def modifierNames (modifiers : List Template.Modifier) : List String :=
  modifiers.flatMap fun m => callNames o around false m.call

/-- The free name at the head of a tag that invokes a component. -/
def tagNames (tag : StartTag) : List String :=
  let head := (tagPath tag.name).1
  if isArgumentName head || head == "this" || around.contains head then []
  else [if o.strict then head else o.registered head]

/-- The free names in a statement, less those of the statements in it. -/
def ownNames : Statement → List String
  | .mustache tag =>
    callNames o around (keywordIn? o around AppendKeyword.ofName? tag.call.callee).isSome tag.call
  | .block tag _ _ =>
    callNames o around (keywordIn? o around BlockKeyword.ofName? tag.call.callee).isSome tag.call
  | .partialCall tag => callNames o around false tag.call
  | .element tag _ _ =>
    (if !isBlockName tag.name && invokesIn o around tag then tagNames o around tag else [])
      ++ attributeNames o around tag.attributes ++ modifierNames o around tag.modifiers
  | .comment _ | .mustacheComment _ | .text _ => []

end

/-- The free names in statements in their places. -/
def placedNames (o : Settings) (placed : List (List String × Statement)) : List String :=
  placed.flatMap fun s => ownNames o s.1 s.2

/-- The free names of a template. -/
def freeNames (o : Settings) (t : Template) : List String :=
  placedNames o (placedWithin o [] t.body)

theorem placedNames_append (o : Settings) (a b : List (List String × Statement)) :
    placedNames o (a ++ b) = placedNames o a ++ placedNames o b := List.flatMap_append

theorem placedNames_cons (o : Settings) (around : List String) (s : Statement)
    (rest : List (List String × Statement)) :
    placedNames o ((around, s) :: rest) = ownNames o around s ++ placedNames o rest :=
  List.flatMap_cons

/-! ### Numbers -/

/-- Free names with one more, unless it is there. -/
def note (upvars : List String) (name : String) : List String :=
  if name ∈ upvars then upvars else upvars ++ [name]

/-- Names that are noted one after the other are there once, in the order in which they came. -/
theorem foldl_note (names : List String) : names.foldl note [] = names.eraseDups := by
  -- A name is noted after all names in front of it, so the induction takes the last name off.
  induction names using List.reverseRecOn with
  | nil => rfl
  | append_singleton names name ih =>
    rw [List.foldl_append, ih, List.eraseDups_append, List.foldl_cons, List.foldl_nil, note,
      List.removeAll]
    by_cases hmem : name ∈ names
    · simp [hmem]
    · simp [hmem, List.eraseDups_cons]

/-- The text of a cursor. -/
def cursorText (n : Nat) : String := s!"%cursor:{n}%"

/-- The cursor of a piece of content. -/
def Content.guid? : Content → Option String
  | .inElement guid _ _ _ _ => some guid
  | _ => none

/-- The cursors of content, in order. -/
def guidsOf (cs : List Content) : List String := cs.filterMap Content.guid?

theorem guidsOf_append (a b : List Content) : guidsOf (a ++ b) = guidsOf a ++ guidsOf b :=
  List.filterMap_append

/-- What a step adds to the numbers. -/
structure Numbered (names guids : List String) (p q : Progress) : Prop where
  upvars : q.symbols.upvars = names.foldl note p.symbols.upvars
  cursors : q.cursorCount = p.cursorCount + guids.length
  guids : guids = (List.range' p.cursorCount guids.length).map cursorText

section

variable {p q r : Progress} {names names₁ names₂ guids guids₁ guids₂ : List String}

theorem Numbered.refl (p : Progress) : Numbered [] [] p p := ⟨rfl, rfl, rfl⟩

/-- A step that changes other symbols only. -/
theorem Numbered.of_upvars (hupvars : q.symbols.upvars = p.symbols.upvars)
    (hcursors : q.cursorCount = p.cursorCount) : Numbered [] [] p q :=
  ⟨hupvars, hcursors, rfl⟩

/-- Two steps, one after the other. -/
theorem Numbered.seq (h₁ : Numbered names₁ guids₁ p q) (h₂ : Numbered names₂ guids₂ q r) :
    Numbered (names₁ ++ names₂) (guids₁ ++ guids₂) p r := by
  refine ⟨?_, ?_, ?_⟩
  · rw [h₂.upvars, h₁.upvars, List.foldl_append]
  · rw [h₂.cursors, h₁.cursors, List.length_append, Nat.add_assoc]
  · have hrange := h₂.guids
    rw [h₁.cursors] at hrange
    rw [List.length_append, ← List.range'_append_1, List.map_append, ← h₁.guids, ← hrange]

end

/-! ### Names -/

theorem free_upvars (s : Symbols) (name : String) :
    (s.free name).2.upvars = note s.upvars name := by
  rw [Symbols.free, note]
  by_cases hmem : name ∈ s.upvars
  · obtain ⟨upvar, hupvar⟩ := Option.ne_none_iff_exists'.mp
      (show s.upvars.idxOf? name ≠ none by simpa using hmem)
    rw [hupvar, if_pos hmem]
  · rw [show s.upvars.idxOf? name = none by simpa using hmem, if_neg hmem]

theorem programSlot_upvars (s : Symbols) (name : String) :
    (s.programSlot name).2.upvars = s.upvars := by
  rw [Symbols.programSlot]
  split <;> rfl

section

variable {o : Settings} {env : Scopes} {p q : Progress}

theorem programSlot_numbered {name : String} {slot : Nat}
    (h : (onSymbols (·.programSlot name)).run p = .ok slot q) : Numbered [] [] p q := by
  obtain ⟨-, rfl⟩ := run_onSymbols_ok.mp h
  exact .of_upvars (programSlot_upvars _ _) rfl

theorem free_numbered {name : String} {upvar : Nat}
    (h : (onSymbols (·.free name)).run p = .ok upvar q) : Numbered [name] [] p q := by
  obtain ⟨-, rfl⟩ := run_onSymbols_ok.mp h
  exact ⟨free_upvars _ _, rfl, rfl⟩

theorem useLocal_numbered {name : String} {upvar : Nat}
    (h : (onSymbols (·.useLocal name)).run p = .ok upvar q) : Numbered [name] [] p q := by
  obtain ⟨-, rfl⟩ := run_onSymbols_ok.mp h
  exact ⟨free_upvars _ _, rfl, rfl⟩

theorem resolveName_numbered {site : Site} {simple : Bool} {written name : String} {span : Span}
    {v : Variable} (hat : At o env p)
    (h : (resolveName o site simple written name span).run p = .ok v q) :
    Numbered (if env.declared.contains name then [] else [name]) [] p q := by
  simp only [resolveName, run_bind_ok, run_getSymbols_ok] at h
  obtain ⟨_, _, ⟨rfl, rfl⟩, h⟩ := h
  rw [hat.lookup] at h
  rw [← Scopes.find?_isSome]
  cases hfind : env.find? name with
  | some slot =>
    rw [hfind] at h
    obtain ⟨-, rfl⟩ := run_pure_ok.mp h
    exact .refl p
  | none =>
    rw [hfind] at h
    simp only [run_ite_ok, run_bind_ok, run_throw_ok, false_and, exists_false, and_false,
      or_false, run_pure_ok] at h
    rcases h with ⟨-, -, upvar, r, hupvar, -, rfl⟩ | ⟨-, h⟩
    · exact useLocal_numbered hupvar
    · split at h
      · simp only [run_bind_ok, run_pure_ok] at h
        obtain ⟨upvar, r, hupvar, -, rfl⟩ := h
        exact free_numbered hupvar
      · exact (run_throw_ok.mp h).elim

theorem path_numbered {site : Site} {path : Path} {e : Expr} (hat : At o env p)
    (h : (Resolved.path o site path).run p = .ok e q) :
    Numbered (pathNames env.declared path) [] p q := by
  rw [Resolved.path] at h
  rw [pathNames]
  cases hhead : path.head with
  | this =>
    simp only [hhead, run_bind_ok, run_pure_ok] at h
    obtain ⟨_, _, ⟨rfl, rfl⟩, -, rfl⟩ := h
    exact .refl p
  | «at» name =>
    simp only [hhead, run_bind_ok, run_pure_ok] at h
    obtain ⟨slot, _, hslot, _, _, ⟨rfl, rfl⟩, -, rfl⟩ := h
    exact programSlot_numbered hslot
  | var name =>
    simp only [hhead, run_bind_ok, run_pure_ok] at h
    obtain ⟨v, _, hv, -, rfl⟩ := h
    exact resolveName_numbered hat hv

theorem askedBlock_numbered {label : String} {params : List Template.Expr} {slot : Nat}
    (hcount : params.length ≤ 1) (h : (askedBlock label params).run p = .ok slot q) :
    Numbered (argumentNames o env.declared params) [] p q := by
  unfold askedBlock at h
  split at h
  · rw [argumentNames]
    exact programSlot_numbered h
  · next name span rest =>
    obtain rfl : rest = [] := List.eq_nil_of_length_eq_zero (by simpa using hcount)
    simp only [argumentNames, exprNames, List.append_nil]
    exact programSlot_numbered h
  · exact (run_throw_ok.mp h).elim

end

/-! ### Expressions -/

section

variable {o : Settings} {env : Scopes}

mutual

/-- An expression at a site. -/
theorem expr_numbered (site : Site) (e : Template.Expr) {p q : Progress} {value : Expr}
    (hat : At o env p) (h : (expr o site e).run p = .ok value q) :
    Numbered (exprNames o env.declared e) [] p q := by
  match e with
  | .literal literal span =>
    rw [expr] at h
    obtain ⟨-, rfl⟩ := run_pure_ok.mp h
    rw [exprNames]
    exact .refl p
  | .path path =>
    rw [expr] at h
    rw [exprNames]
    exact path_numbered hat h
  | .sub call span =>
    rw [expr] at h
    obtain ⟨k, r, hk, h⟩ := run_bind_ok.mp h
    obtain ⟨rfl, hkeyword⟩ := callKeyword?_ok hat hk
    rw [exprNames, ← keyword?_eq, hkeyword]
    cases k with
    | some k => exact keywordCall_numbered k _ span call hat h
    | none => exact callOf_numbered .sub span call hat h

theorem arguments_numbered (params : List Template.Expr) {p q : Progress} {values : List Expr}
    (hat : At o env p) (h : (arguments o params).run p = .ok values q) :
    Numbered (argumentNames o env.declared params) [] p q := by
  match params with
  | [] =>
    rw [arguments] at h
    obtain ⟨-, rfl⟩ := run_pure_ok.mp h
    rw [argumentNames]
    exact .refl p
  | param :: rest =>
    rw [arguments] at h
    simp only [run_bind_ok, run_pure_ok] at h
    obtain ⟨value, r, hvalue, values, _, hvalues, -, rfl⟩ := h
    have hat₁ := (expr_outcome .argument param hat hvalue).at hat
    rw [argumentNames]
    exact (expr_numbered .argument param hat hvalue).seq (arguments_numbered rest hat₁ hvalues)

theorem namedArguments_numbered (pairs : List (Pair Template.Expr)) {p q : Progress}
    {named : List (Named Expr)} (hat : At o env p)
    (h : (namedArguments o pairs).run p = .ok named q) :
    Numbered (pairNames o env.declared pairs) [] p q := by
  match pairs with
  | [] =>
    rw [namedArguments] at h
    obtain ⟨-, rfl⟩ := run_pure_ok.mp h
    rw [pairNames]
    exact .refl p
  | ⟨key, param, span⟩ :: rest =>
    rw [namedArguments] at h
    simp only [run_bind_ok, run_pure_ok] at h
    obtain ⟨value, r, hvalue, values, _, hvalues, -, rfl⟩ := h
    have hat₁ := (expr_outcome .argument param hat hvalue).at hat
    rw [pairNames]
    exact (expr_numbered .argument param hat hvalue).seq (namedArguments_numbered rest hat₁ hvalues)

theorem callOf_numbered (site : Site) (span : Span) (call : Call Template.Expr) {p q : Progress}
    {value : Expr} (hat : At o env p) (h : (callOf o site span call).run p = .ok value q) :
    Numbered (callNames o env.declared false call) [] p q := by
  match call with
  | ⟨callee, params, ⟨pairs, hashSpan⟩⟩ =>
    rw [callOf] at h
    simp only [run_bind_ok, run_pure_ok] at h
    obtain ⟨callee', _, hcallee, positional, _, hparams, named, _, hpairs, -, rfl⟩ := h
    have hat₁ := (expr_outcome site callee hat hcallee).at hat
    have hat₂ := (arguments_outcome params hat₁ hparams).at hat₁
    rw [callNames, if_neg Bool.false_ne_true]
    exact ((expr_numbered site callee hat hcallee).seq (arguments_numbered params hat₁ hparams)).seq
      (namedArguments_numbered pairs hat₂ hpairs)

theorem definitionOf_numbered (label : String) (span : Span) (params : List Template.Expr)
    {p q : Progress} {value : Expr × List Expr} (hat : At o env p)
    (h : (definitionOf o label span params).run p = .ok value q) :
    Numbered (argumentNames o env.declared params) [] p q := by
  match params with
  | [] =>
    rw [definitionOf] at h
    exact (run_throw_ok.mp h).elim
  | definition :: rest =>
    rw [definitionOf] at h
    simp only [run_bind_ok, run_ite_ok, run_throw_ok, run_pure_ok, false_and, exists_false,
      and_false, false_or] at h
    obtain ⟨-, value, _, hvalue, positional, _, hparams, -, rfl⟩ := h
    have hat₁ := (expr_outcome .argument definition hat hvalue).at hat
    rw [argumentNames]
    exact (expr_numbered .argument definition hat hvalue).seq (arguments_numbered rest hat₁ hparams)

theorem inlineBranch_numbered (negated : Bool) (label : String) (span : Span)
    (hash : Hash Template.Expr) (params : List Template.Expr) {p q : Progress} {value : Expr}
    (hat : At o env p) (h : (inlineBranch o negated label span hash params).run p = .ok value q) :
    hash.pairs = [] ∧ Numbered (argumentNames o env.declared params) [] p q := by
  match params with
  | [condition, truthy] =>
    unfold inlineBranch at h
    simp only [run_bind_ok, run_pure_ok] at h
    obtain ⟨_, _, hnamed, condition', _, hcondition, truthy', _, htruthy, -, rfl⟩ := h
    obtain ⟨rfl, htakes⟩ := checkNamed_ok hnamed
    -- The scopes are those of the condition when the value is read, too.
    have hat₁ := (expr_outcome .argument condition hat hcondition).at hat
    refine ⟨htakes.pairs_eq_nil, ?_⟩
    simp only [argumentNames, List.append_nil]
    exact (expr_numbered .argument condition hat hcondition).seq
      (expr_numbered .argument truthy hat₁ htruthy)
  | [condition, truthy, falsy] =>
    unfold inlineBranch at h
    simp only [run_bind_ok, run_pure_ok] at h
    obtain ⟨_, _, hnamed, condition', _, hcondition, truthy', _, htruthy, falsy', _, hfalsy,
      -, rfl⟩ := h
    obtain ⟨rfl, htakes⟩ := checkNamed_ok hnamed
    have hat₁ := (expr_outcome .argument condition hat hcondition).at hat
    have hat₂ := (expr_outcome .argument truthy hat₁ htruthy).at hat₁
    refine ⟨htakes.pairs_eq_nil, ?_⟩
    simp only [argumentNames, List.append_nil]
    exact (expr_numbered .argument condition hat hcondition).seq
      ((expr_numbered .argument truthy hat₁ htruthy).seq
        (expr_numbered .argument falsy hat₂ hfalsy))
  | [] | [_] | _ :: _ :: _ :: _ :: _ =>
    unfold inlineBranch at h
    exact (run_throw_ok.mp h).elim

theorem dynamicVar_numbered (label : String) (span : Span) (hash : Hash Template.Expr)
    (params : List Template.Expr) {p q : Progress} {value : Expr} (hat : At o env p)
    (h : (dynamicVar o label span hash params).run p = .ok value q) :
    hash.pairs = [] ∧ Numbered (argumentNames o env.declared params) [] p q := by
  match params with
  | [name] =>
    unfold dynamicVar at h
    simp only [run_bind_ok, run_pure_ok] at h
    obtain ⟨_, _, hnamed, name', _, hname, -, rfl⟩ := h
    obtain ⟨rfl, htakes⟩ := checkNamed_ok hnamed
    refine ⟨htakes.pairs_eq_nil, ?_⟩
    simp only [argumentNames, List.append_nil]
    exact expr_numbered .argument name hat hname
  | [] | _ :: _ :: _ =>
    unfold dynamicVar at h
    exact (run_throw_ok.mp h).elim

/-- The call of a keyword, which is no name itself. -/
theorem keywordCall_numbered (k : CallKeyword) (label : String) (span : Span)
    (call : Call Template.Expr) {p q : Progress} {value : Expr} (hat : At o env p)
    (h : (keywordCall o k label span call).run p = .ok value q) :
    Numbered (callNames o env.declared true call) [] p q := by
  match call with
  | ⟨callee, params, ⟨pairs, hashSpan⟩⟩ =>
    unfold keywordCall at h
    rw [callNames, if_pos rfl, List.nil_append]
    -- A keyword that takes no named arguments is given none.
    have hpositional : ∀ {q : Progress}, pairs = [] ∧
        Numbered (argumentNames o env.declared params) [] p q →
        Numbered (argumentNames o env.declared params ++ pairNames o env.declared pairs) []
          p q := by
      rintro q ⟨rfl, hparams⟩
      rwa [pairNames, List.append_nil]
    cases k with
    | branch negated => exact hpositional (inlineBranch_numbered negated label span _ params hat h)
    | hasBlock =>
      simp only [run_bind_ok, run_ite_ok, run_throw_ok, run_pure_ok, false_and, exists_false,
        and_false, false_or] at h
      obtain ⟨hcount, _, _, hnamed, slot, _, hslot, -, rfl⟩ := h
      obtain ⟨rfl, htakes⟩ := checkNamed_ok hnamed
      exact hpositional ⟨htakes.pairs_eq_nil, askedBlock_numbered (by omega) hslot⟩
    | hasBlockParams =>
      simp only [run_bind_ok, run_ite_ok, run_throw_ok, run_pure_ok, false_and, exists_false,
        and_false, false_or] at h
      obtain ⟨hcount, _, _, hnamed, slot, _, hslot, -, rfl⟩ := h
      obtain ⟨rfl, htakes⟩ := checkNamed_ok hnamed
      exact hpositional ⟨htakes.pairs_eq_nil, askedBlock_numbered (by omega) hslot⟩
    | curry kind =>
      simp only [run_bind_ok, run_pure_ok] at h
      obtain ⟨value, _, hvalue, named, _, hpairs, -, rfl⟩ := h
      obtain ⟨_, _, _, hout⟩ := definitionOf_outcome label span params hat hvalue
      exact (definitionOf_numbered label span params hat hvalue).seq
        (namedArguments_numbered pairs (hout.at hat) hpairs)
    | log =>
      simp only [run_bind_ok, run_pure_ok] at h
      obtain ⟨_, _, hnamed, positional, _, hparams, -, rfl⟩ := h
      obtain ⟨rfl, htakes⟩ := checkNamed_ok hnamed
      exact hpositional ⟨htakes.pairs_eq_nil, arguments_numbered params hat hparams⟩
    | getDynamicVar => exact hpositional (dynamicVar_numbered label span _ params hat h)

end

theorem dynamicCall_numbered {label : String} {span : Span} {call : Call Template.Expr}
    {p q : Progress} {value : Expr × Args Expr} (hat : At o env p)
    (h : (dynamicCall o label span call).run p = .ok value q) :
    Numbered (callNames o env.declared true call) [] p q := by
  obtain ⟨callee, params, ⟨pairs, hashSpan⟩⟩ := call
  simp only [dynamicCall, run_bind_ok, run_pure_ok] at h
  obtain ⟨value, _, hvalue, named, _, hpairs, -, rfl⟩ := h
  obtain ⟨_, _, _, hout⟩ := definitionOf_outcome label span params hat hvalue
  rw [callNames, if_pos rfl, List.nil_append]
  exact (definitionOf_numbered label span params hat hvalue).seq
    (namedArguments_numbered pairs (hout.at hat) hpairs)

/-- A callee without arguments. -/
theorem bareCall_numbered {call : Call Template.Expr} {p q : Progress}
    (hbare : (call.params.isEmpty && call.hash.pairs.isEmpty) = true)
    (h : Numbered (exprNames o env.declared call.callee) [] p q) :
    Numbered (callNames o env.declared false call) [] p q := by
  rw [Bool.and_eq_true, List.isEmpty_iff, List.isEmpty_iff] at hbare
  rw [callNames, hbare.1, hbare.2, if_neg Bool.false_ne_true]
  simpa only [argumentNames, pairNames, List.append_nil] using h

/-- A form that reads one named argument by its key, which is given once. -/
theorem optionalNamed_numbered {key : String} {hash : Hash Template.Expr} {p q : Progress}
    {value : Option Expr} (htakes : Takes [key] hash) (hdistinct : Distinct hash)
    (hat : At o env p) (h : (optionalNamed o key hash).run p = .ok value q) :
    Numbered (pairNames o env.declared hash.pairs) [] p q := by
  rw [htakes.pairs_eq hdistinct]
  rw [optionalNamed] at h
  split at h
  · next hget =>
    obtain ⟨-, rfl⟩ := run_pure_ok.mp h
    rw [hget, Option.toList_none, pairNames]
    exact .refl p
  · next pair hget =>
    simp only [run_bind_ok, run_pure_ok] at h
    obtain ⟨value, _, hvalue, -, rfl⟩ := h
    rw [hget, Option.toList_some]
    simp only [pairNames, List.append_nil]
    exact expr_numbered .argument pair.value hat hvalue

end

/-! ### Attributes and modifiers -/

section

variable {o : Settings} {env : Scopes}

/-- A step made for each member of a list. -/
theorem mapM_numbered {α β : Type} {f : α → Walk β} {namesOf : α → List String}
    (hat_next : ∀ {a : α} {b : β} {p q : Progress}, At o env p → (f a).run p = .ok b q → At o env q)
    (l : List α)
    (hf : ∀ a ∈ l, ∀ {b : β} {p q : Progress}, At o env p → (f a).run p = .ok b q →
      Numbered (namesOf a) [] p q) {p q : Progress} {bs : List β} (hat : At o env p)
    (h : (l.mapM f).run p = .ok bs q) : Numbered (l.flatMap namesOf) [] p q := by
  induction l generalizing p bs with
  | nil =>
    rw [List.mapM_nil] at h
    obtain ⟨-, rfl⟩ := run_pure_ok.mp h
    exact .refl p
  | cons a l ih =>
    simp only [List.mapM_cons, run_bind_ok, run_pure_ok] at h
    obtain ⟨b, r, hb, bs, _, hbs, -, rfl⟩ := h
    obtain ⟨hfirst, hrest⟩ := List.forall_mem_cons.mp hf
    rw [List.flatMap_cons]
    exact (hfirst hat hb).seq (ih hrest (hat_next hat hb) hbs)

theorem attrMustache_numbered {tag : MustacheTag} {p q : Progress} {value : Expr}
    (hat : At o env p) (h : (attrMustache o tag).run p = .ok value q) :
    Numbered (attrTagNames o env.declared tag) [] p q := by
  obtain ⟨k, r, hk, h⟩ := run_bind_ok.mp h
  obtain ⟨rfl, hkeyword⟩ := callKeyword?_ok hat hk
  rw [attrTagNames, ← keyword?_eq, hkeyword]
  cases k with
  | some k => exact keywordCall_numbered k _ tag.span tag.call hat h
  | none =>
    simp only [run_ite_ok] at h
    rcases h with ⟨hbare, h⟩ | ⟨-, h⟩
    · exact (bareCall_numbered hbare (expr_numbered _ tag.call.callee hat h))
    · exact callOf_numbered _ tag.span tag.call hat h

theorem concatPart_numbered {part : ConcatPart} {p q : Progress} {value : Expr}
    (hat : At o env p) (h : (concatPart o part).run p = .ok value q) :
    Numbered (partNames o env.declared part) [] p q := by
  cases part with
  | text node =>
    obtain ⟨-, rfl⟩ := run_pure_ok.mp h
    exact .refl p
  | mustache tag => exact attrMustache_numbered hat h

theorem attrValue_numbered {attr : AttrValue} {p q : Progress} {value : Expr}
    (hat : At o env p) (h : (attrValue o attr).run p = .ok value q) :
    Numbered (attrValueNames o env.declared attr) [] p q := by
  cases attr with
  | text node =>
    obtain ⟨-, rfl⟩ := run_pure_ok.mp h
    exact .refl p
  | mustache tag => exact attrMustache_numbered hat h
  | concat parts span =>
    simp only [attrValue, run_bind_ok, run_pure_ok] at h
    obtain ⟨es, _, hparts, -, rfl⟩ := h
    exact mapM_numbered (fun hat h => (concatPart_outcome hat h).at hat) parts
      (fun _ _ _ _ _ hat h => concatPart_numbered hat h) hat hparts

/-- Whether the value of an attribute is plain text. -/
def isPlainText : AttrValue → Bool
  | .text _ => true
  | _ => false

/-- The value of `...attributes` is plain text. -/
def PlainSplat (attr : Template.Attr) : Prop :=
  isSplatName attr.name = true → isPlainText attr.value = true

theorem elementAttr_numbered {attr : Template.Attr} {p q : Progress} {a : Attr}
    (hsplat : PlainSplat attr) (hat : At o env p) (h : (elementAttr o attr).run p = .ok a q) :
    Numbered (attrValueNames o env.declared attr.value) [] p q := by
  simp only [elementAttr, run_ite_ok, run_bind_ok, run_pure_ok] at h
  rcases h with ⟨hname, slot, _, hslot, -, rfl⟩ | ⟨-, value, _, hvalue, -, rfl⟩
  · have hnames : attrValueNames o env.declared attr.value = [] := by
      have hplain := hsplat hname
      cases hvalue : attr.value with
      | text node => rfl
      | mustache _ | concat _ _ => simp [hvalue, isPlainText] at hplain
    rw [hnames]
    exact programSlot_numbered hslot
  · exact attrValue_numbered hat hvalue

theorem componentAttrs_numbered {attributes : List Template.Attr} {p q : Progress}
    {value : List Attr × List (Named Expr)} (hsplat : ∀ attr ∈ attributes, PlainSplat attr)
    (hat : At o env p) (h : (componentAttrs o attributes).run p = .ok value q) :
    Numbered (attributeNames o env.declared attributes) [] p q := by
  induction attributes generalizing p value with
  | nil =>
    obtain ⟨-, rfl⟩ := run_pure_ok.mp h
    exact .refl p
  | cons attr rest ih =>
    obtain ⟨hfirst, hrest⟩ := List.forall_mem_cons.mp hsplat
    simp only [componentAttrs, run_ite_ok, run_bind_ok, run_pure_ok] at h
    rw [attributeNames, List.flatMap_cons]
    rcases h with ⟨-, e, _, he, more, _, hmore, -, rfl⟩ | ⟨-, a, _, ha, more, _, hmore, -, rfl⟩
    · exact (attrValue_numbered hat he).seq (ih hrest ((attrValue_outcome hat he).at hat) hmore)
    · exact (elementAttr_numbered hfirst hat ha).seq
        (ih hrest ((elementAttr_outcome hat ha).at hat) hmore)

theorem modifierOf_numbered {m : Template.Modifier} {p q : Progress} {m' : Modifier}
    (hat : At o env p) (h : (modifierOf o m).run p = .ok m' q) :
    Numbered (callNames o env.declared false m.call) [] p q := by
  simp only [modifierOf, run_bind_ok, run_pure_ok] at h
  obtain ⟨callee, _, hcallee, positional, _, hparams, named, _, hpairs, -, rfl⟩ := h
  have hat₁ := (expr_outcome .modifier m.call.callee hat hcallee).at hat
  have hat₂ := (arguments_outcome m.call.params hat₁ hparams).at hat₁
  rw [callNames, if_neg Bool.false_ne_true]
  exact ((expr_numbered .modifier m.call.callee hat hcallee).seq
    (arguments_numbered m.call.params hat₁ hparams)).seq
      (namedArguments_numbered m.call.hash.pairs hat₂ hpairs)

theorem modifiers_numbered {modifiers : List Template.Modifier} {p q : Progress}
    {ms : List Modifier} (hat : At o env p)
    (h : (modifiers.mapM (modifierOf o)).run p = .ok ms q) :
    Numbered (modifierNames o env.declared modifiers) [] p q :=
  mapM_numbered (fun hat h => (modifierOf_outcome hat h).at hat) modifiers
    (fun _ _ _ _ _ hat h => modifierOf_numbered hat h) hat h

end

end TemplateCompiler.Resolved
