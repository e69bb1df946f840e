/-
Statements with the names around them.

Whether a bare name is bound, whether a callee is a keyword and whether a tag
invokes a component depends on the names that the blocks around a place declare,
and not on the slots that these have.

* `Scopes.declared` — the names that scopes declare;
* `keywordIn?`, `invokesIn` — keywords and components, by the names around them;
* `placedWithin` — the statements of a template in the order of the walk, each
  with the names around it;
* `ReadsOnce` — a form that reads a named argument by its key is given
  the key once.
-/
import TemplateCompiler.Proofs.Resolved.Lexical
import TemplateCompiler.Proofs.Template.Within

namespace TemplateCompiler.Resolved

open Template (Hash Pair StartTag Statement)

/-! ### Names around a place -/

/-- The names that scopes declare, those of the innermost block first. -/
def Scopes.declared (env : Scopes) : List String := env.flatten.map Prod.fst

theorem Scopes.declared_cons {params : List String} {slots : List Nat} (env : Scopes)
    (h : slots.length = params.length) :
    Scopes.declared (params.zip slots :: env) = params ++ env.declared := by
  rw [Scopes.declared, List.flatten_cons, List.map_append, List.map_fst_zip (Nat.le_of_eq h.symm)]
  rfl

theorem Scopes.find?_isSome (env : Scopes) (name : String) :
    (env.find? name).isSome = env.declared.contains name := by
  rw [Bool.eq_iff_iff, Scopes.find?_isSome_iff]
  simp only [Scopes.declared, List.map_flatten, List.contains_iff_mem, List.mem_flatten,
    List.mem_map, exists_exists_and_eq_and]

section

variable (o : Settings) (around : List String)

/-- Whether a bare name is bound: by a block around the place or, in a strict
template, by surrounding code. -/
def Settings.bindsIn (name : String) : Bool :=
  around.contains name || (o.strict && o.locals.contains name)

/-- The keyword that a callee is. -/
def keywordIn? {κ : Type} (table : String → Option κ) : Template.Expr → Option κ
  | .path p => (p.simpleName?.filter fun name => !o.bindsIn around name).bind table
  | _ => none

/-- Whether a tag invokes a component. -/
def invokesIn (tag : StartTag) : Bool :=
  let head := (tagPath tag.name).1
  isArgumentName head || head == "this" || o.bindsIn around head ||
    head.toList.head?.any Text.isUpper

end

section

variable (o : Settings) (env : Scopes)

theorem Settings.binds_eq (name : String) : o.binds env name = o.bindsIn env.declared name := by
  rw [Settings.binds, Settings.bindsIn, Scopes.find?_isSome]

theorem keyword?_eq {κ : Type} (table : String → Option κ) (callee : Template.Expr) :
    keyword? o env table callee = keywordIn? o env.declared table callee := by
  cases callee with
  | path p => simp only [keyword?, keywordIn?, Settings.binds_eq]
  | sub call span => rfl
  | literal value span => rfl

theorem invokes_eq (tag : StartTag) : invokes o env tag = invokesIn o env.declared tag := by
  simp only [invokes, invokesIn, Settings.binds_eq]

end

/-! ### Statements in their places -/

/-- The names around the children of an element.  Only the tag of a component and
that of a named block declare names. -/
def childrenNames (o : Settings) (around : List String) (tag : StartTag) : List String :=
  if isBlockName tag.name || invokesIn o around tag then tag.blockParams ++ around else around

mutual

/-- A statement and all statements in it, each with the names around it. -/
def placed (o : Settings) (around : List String) : Statement → List (List String × Statement)
  | .block tag program other =>
    (around, .block tag program other) ::
      (blockPlaced o around program ++ otherPlaced o around other)
  | .element tag children span =>
    (around, .element tag children span) ::
      placedWithin o (childrenNames o around tag) children
  | .mustache tag => [(around, .mustache tag)]
  | .partialCall tag => [(around, .partialCall tag)]
  | .comment c => [(around, .comment c)]
  | .mustacheComment c => [(around, .mustacheComment c)]
  | .text node => [(around, .text node)]

/-- Statements and all statements in them, each with the names around it. -/
def placedWithin (o : Settings) (around : List String) :
    List Statement → List (List String × Statement)
  | [] => []
  | s :: rest => placed o around s ++ placedWithin o around rest

/-- All statements in a block, whose names are around them. -/
def blockPlaced (o : Settings) (around : List String) :
    Template.Block Statement → List (List String × Statement)
  | ⟨body, params, _, _⟩ => placedWithin o (params ++ around) body

/-- All statements in a block that may be missing. -/
def otherPlaced (o : Settings) (around : List String) :
    Option (Template.Block Statement) → List (List String × Statement)
  | none => []
  | some block => blockPlaced o around block

end

mutual

theorem placed_snd (o : Settings) (around : List String) (s : Statement) :
    (placed o around s).map Prod.snd = s.within := by
  match s with
  | .block tag program other =>
    simp only [placed, Statement.within, List.map_cons, List.map_append,
      blockPlaced_snd o around program, otherPlaced_snd o around other]
  | .element tag children span =>
    simp only [placed, Statement.within, List.map_cons, placedWithin_snd o _ children]
  | .mustache _ | .partialCall _ | .comment _ | .mustacheComment _ | .text _ =>
    simp only [placed, Statement.within, List.map_cons, List.map_nil]

/-- The statements in their places are those of the template. -/
theorem placedWithin_snd (o : Settings) (around : List String) (ss : List Statement) :
    (placedWithin o around ss).map Prod.snd = Template.statementsWithin ss := by
  match ss with
  | [] => simp only [placedWithin, Template.statementsWithin, List.map_nil]
  | s :: rest =>
    simp only [placedWithin, Template.statementsWithin, List.map_append, placed_snd o around s,
      placedWithin_snd o around rest]

theorem blockPlaced_snd (o : Settings) (around : List String) (b : Template.Block Statement) :
    (blockPlaced o around b).map Prod.snd = Template.blockWithin b := by
  match b with
  | ⟨body, params, chained, span⟩ =>
    simp only [blockPlaced, Template.blockWithin, placedWithin_snd o _ body]

theorem otherPlaced_snd (o : Settings) (around : List String)
    (b : Option (Template.Block Statement)) :
    (otherPlaced o around b).map Prod.snd = Template.otherWithin b := by
  match b with
  | none => simp only [otherPlaced, Template.otherWithin, List.map_nil]
  | some b => simp only [otherPlaced, Template.otherWithin, blockPlaced_snd o around b]

end

/-! ### Forms that read named arguments by key -/

/-- No named argument is given twice. -/
def Distinct (hash : Hash Template.Expr) : Prop := (hash.pairs.map Pair.key).Nodup

/-- The forms that read a named argument by its key are given the key once:
`yield`, `each` and `in-element` take no other named arguments. -/
def ReadsOnce (o : Settings) (around : List String) : Statement → Prop
  | .mustache tag =>
    keywordIn? o around AppendKeyword.ofName? tag.call.callee = some .yield →
      Distinct tag.call.hash
  | .block tag _ _ =>
    keywordIn? o around BlockKeyword.ofName? tag.call.callee = some .each ∨
        keywordIn? o around BlockKeyword.ofName? tag.call.callee = some .inElement →
      Distinct tag.call.hash
  | _ => True

instance (hash : Hash Template.Expr) : Decidable (Distinct hash) :=
  inferInstanceAs (Decidable (List.Nodup _))

instance (o : Settings) (around : List String) : (s : Statement) → Decidable (ReadsOnce o around s)
  | .mustache _ => inferInstanceAs (Decidable (_ → _))
  | .block _ _ _ => inferInstanceAs (Decidable (_ ∨ _ → _))
  | .element _ _ _ | .partialCall _ | .comment _ | .mustacheComment _ | .text _ =>
    inferInstanceAs (Decidable True)

/-- A tag that closes itself has no children. -/
def ClosesAlone : Statement → Prop
  | .element tag children _ => tag.selfClosing = true → children = []
  | _ => True

theorem Takes.pairs_eq_nil {hash : Hash Template.Expr} (h : Takes [] hash) : hash.pairs = [] :=
  List.eq_nil_iff_forall_not_mem.mpr fun pair hpair => absurd (h pair hpair) List.not_mem_nil

/-- A form that takes one key, once, is given what the key reads and nothing else. -/
theorem Takes.pairs_eq {hash : Hash Template.Expr} {key : String} (h : Takes [key] hash)
    (hdistinct : Distinct hash) : hash.pairs = (hash.get? key).toList := by
  rw [Hash.get?]
  match hpairs : hash.pairs with
  | [] => rfl
  | [pair] =>
    have hkey : pair.key = key := List.mem_singleton.mp (h pair (by rw [hpairs]; simp))
    simp [hkey]
  | first :: second :: rest =>
    -- Two arguments under one key are not distinct.
    exfalso
    rw [Distinct, hpairs] at hdistinct
    have hfirst := List.mem_singleton.mp (h first (by rw [hpairs]; simp))
    have hsecond := List.mem_singleton.mp (h second (by rw [hpairs]; simp))
    simp [hfirst, hsecond] at hdistinct

end TemplateCompiler.Resolved
