/-
Block parameters under another name.

A block parameter can be given another name: in the list of its block, at the
head of the paths and at the head of the component tags that it binds.

* `Statement.rename` — a statement in the scope of a parameter that is renamed;
* `Renames` — a template with one parameter of one block renamed;
* `statementsNames` — the heads of paths, the heads of tags and the block
  parameters in statements;
* `tagPath_renameTag` — a tag with another head keeps the properties taken of it.

A block that declares the name again hides the parameter.  Inside of it nothing
is renamed, so renaming takes a flag that such a block turns off; with the flag
off it is the identity (`renameStatements_false`).
-/
import Mathlib.Data.List.TakeWhile
import TemplateCompiler.Resolved.Content

namespace TemplateCompiler.Template

open Resolved (tagPath isArgumentName isBlockName)

/-! ### Names in templates -/

/-- The bare name at the head of a path. -/
def Path.heads (p : Path) : List String :=
  match p.head with
  | .var name => [name]
  | _ => []

mutual

/-- The bare names at the heads of the paths in an expression. -/
def Expr.heads : Expr → List String
  | .path p => p.heads
  | .sub ⟨callee, params, ⟨pairs, _⟩⟩ _ => callee.heads ++ exprsHeads params ++ pairsHeads pairs
  | .literal _ _ => []

/-- Those in expressions. -/
def exprsHeads : List Expr → List String
  | [] => []
  | e :: rest => e.heads ++ exprsHeads rest

/-- Those in named arguments. -/
def pairsHeads : List (Pair Expr) → List String
  | [] => []
  | pair :: rest => pair.value.heads ++ pairsHeads rest

end

/-- The bare names at the heads of the paths in a call. -/
def Call.heads (call : Call Expr) : List String :=
  call.callee.heads ++ exprsHeads call.params ++ pairsHeads call.hash.pairs

theorem Expr.heads_sub (call : Call Expr) (span : Span) :
    (Expr.sub call span).heads = call.heads := by
  rw [Expr.heads, Call.heads]

/-- Those in a part of an attribute value. -/
def ConcatPart.heads : ConcatPart → List String
  | .text _ => []
  | .mustache tag => tag.call.heads

/-- Those in an attribute value. -/
def AttrValue.heads : AttrValue → List String
  | .text _ => []
  | .mustache tag => tag.call.heads
  | .concat parts _ => parts.flatMap ConcatPart.heads

/-- The head of a tag, its block parameters, and the heads of the paths in it. -/
def StartTag.names (tag : StartTag) : List String :=
  (tagPath tag.name).1 :: (tag.blockParams ++ tag.attributes.flatMap (·.value.heads)
    ++ tag.modifiers.flatMap (·.call.heads))

theorem StartTag.notMem_names {y : String} {tag : StartTag} (htag : y ∉ tag.names) :
    (tagPath tag.name).1 ≠ y ∧ y ∉ tag.blockParams ∧
      (∀ attr ∈ tag.attributes, y ∉ attr.value.heads) ∧
      ∀ m ∈ tag.modifiers, y ∉ m.call.heads := by
  simp only [StartTag.names, List.mem_cons, List.mem_append, not_or, List.mem_flatMap,
    not_exists, not_and] at htag
  exact ⟨Ne.symm htag.1, htag.2.1.1, htag.2.1.2, htag.2.2⟩

mutual

/-- The heads of paths, the heads of tags and the block parameters in a statement. -/
def Statement.names : Statement → List String
  | .mustache tag => tag.call.heads
  | .partialCall tag => tag.call.heads
  | .block tag program inverse => tag.call.heads ++ blockNames program ++ otherNames inverse
  | .element tag children _ => tag.names ++ statementsNames children
  | .comment _ | .mustacheComment _ | .text _ => []

/-- Those in statements. -/
def statementsNames : List Statement → List String
  | [] => []
  | s :: rest => s.names ++ statementsNames rest

/-- Those in a block. -/
def blockNames : Block Statement → List String
  | ⟨body, params, _, _⟩ => params ++ statementsNames body

/-- Those in a block that may be missing. -/
def otherNames : Option (Block Statement) → List String
  | none => []
  | some block => blockNames block

end

/-! ### Renaming the heads of paths -/

/-- A name, with `x` renamed to `y` if the flag is set. -/
def renamed (x y : String) (active : Bool) (name : String) : String :=
  if active && name == x then y else name

/-- A path with its head renamed. -/
def Path.rename (r : String → String) (p : Path) : Path :=
  { p with
    head := match p.head with
      | .var name => .var (r name)
      | head => head }

mutual

/-- An expression with the heads of its paths renamed. -/
def Expr.rename (r : String → String) : Expr → Expr
  | .path p => .path (p.rename r)
  | .sub ⟨callee, params, ⟨pairs, hashSpan⟩⟩ span =>
    .sub ⟨callee.rename r, renameExprs r params, ⟨renamePairs r pairs, hashSpan⟩⟩ span
  | .literal value span => .literal value span

/-- Expressions with the heads of their paths renamed. -/
def renameExprs (r : String → String) : List Expr → List Expr
  | [] => []
  | e :: rest => e.rename r :: renameExprs r rest

/-- Named arguments with the heads of their paths renamed. -/
def renamePairs (r : String → String) : List (Pair Expr) → List (Pair Expr)
  | [] => []
  | pair :: rest => ⟨pair.key, pair.value.rename r, pair.span⟩ :: renamePairs r rest

end

/-- A call with the heads of its paths renamed. -/
def Call.rename (r : String → String) (call : Call Expr) : Call Expr :=
  ⟨call.callee.rename r, renameExprs r call.params,
    ⟨renamePairs r call.hash.pairs, call.hash.span⟩⟩

theorem Expr.rename_sub (r : String → String) (call : Call Expr) (span : Span) :
    (Expr.sub call span).rename r = .sub (call.rename r) span := by
  rw [Expr.rename, Call.rename]

/-- A tag with the heads of its paths renamed. -/
def MustacheTag.rename (r : String → String) (tag : MustacheTag) : MustacheTag :=
  { tag with call := tag.call.rename r }

/-- A part of an attribute value with the heads of its paths renamed. -/
def ConcatPart.rename (r : String → String) : ConcatPart → ConcatPart
  | .text node => .text node
  | .mustache tag => .mustache (tag.rename r)

/-- An attribute value with the heads of its paths renamed. -/
def AttrValue.rename (r : String → String) : AttrValue → AttrValue
  | .text node => .text node
  | .mustache tag => .mustache (tag.rename r)
  | .concat parts span => .concat (parts.map (·.rename r)) span

/-- An attribute with the heads of its paths renamed. -/
def Attr.rename (r : String → String) (attr : Attr) : Attr :=
  { attr with value := attr.value.rename r }

/-- A modifier with the heads of its paths renamed. -/
def Modifier.rename (r : String → String) (m : Modifier) : Modifier :=
  { m with call := m.call.rename r }

/-! ### Calls under other names -/

theorem Expr.isLiteral_rename (r : String → String) (e : Expr) :
    (e.rename r).isLiteral = e.isLiteral := by
  cases e <;> rw [Expr.rename] <;> rfl

theorem renameExprs_eq (r : String → String) (es : List Expr) :
    renameExprs r es = es.map (·.rename r) := by
  induction es with
  | nil => rw [renameExprs, List.map_nil]
  | cons e rest ih => rw [renameExprs, ih, List.map_cons]

theorem renamePairs_eq (r : String → String) (pairs : List (Pair Expr)) :
    renamePairs r pairs = pairs.map fun pair => ⟨pair.key, pair.value.rename r, pair.span⟩ := by
  induction pairs with
  | nil => rw [renamePairs, List.map_nil]
  | cons pair rest ih => rw [renamePairs, ih, List.map_cons]

theorem Call.isEmpty_params_rename (r : String → String) (call : Call Expr) :
    (call.rename r).params.isEmpty = call.params.isEmpty := by
  rw [Call.rename, renameExprs_eq, List.isEmpty_map]

theorem Call.isEmpty_pairs_rename (r : String → String) (call : Call Expr) :
    (call.rename r).hash.pairs.isEmpty = call.hash.pairs.isEmpty := by
  rw [Call.rename, renamePairs_eq, List.isEmpty_map]

theorem Call.get?_rename (r : String → String) (key : String) (call : Call Expr) :
    (call.rename r).hash.get? key
      = (call.hash.get? key).map fun pair => ⟨pair.key, pair.value.rename r, pair.span⟩ := by
  rw [Call.rename, Hash.get?, Hash.get?, renamePairs_eq, List.find?_map]
  rfl

theorem Call.callee_heads {y : String} {call : Call Expr} (hcall : y ∉ call.heads) :
    y ∉ call.callee.heads := by
  simp only [Call.heads, List.mem_append, not_or] at hcall
  exact hcall.1.1

theorem Call.get?_heads {y key : String} {call : Call Expr} {pair : Pair Expr}
    (h : call.hash.get? key = some pair) (hcall : y ∉ call.heads) : y ∉ pair.value.heads := by
  simp only [Call.heads, List.mem_append, not_or] at hcall
  have hmem := List.mem_of_find?_eq_some h
  have hpairs : ∀ pairs : List (Pair Expr), pair ∈ pairs → y ∉ pairsHeads pairs →
      y ∉ pair.value.heads := by
    intro pairs
    induction pairs with
    | nil => simp
    | cons first rest ih =>
      intro hmem hy
      simp only [pairsHeads, List.mem_append, not_or] at hy
      rcases List.mem_cons.mp hmem with rfl | hmem
      · exact hy.1
      · exact ih hmem hy.2
  exact hpairs _ hmem hcall.2

/-! ### Renaming the heads of tags -/

/-- Whether a tag has a head that names may bind: named blocks, arguments and
`this` are what they are. -/
def hasBareHead (name : String) : Bool :=
  !(isBlockName name || isArgumentName (tagPath name).1 || (tagPath name).1 == "this")

/-- A tag name with its head renamed. -/
def renameTag (r : String → String) (name : String) : String :=
  if hasBareHead name then
    String.ofList ((r (tagPath name).1).toList ++ name.toList.dropWhile (· ≠ '.'))
  else name

/-- A start tag with its head and the heads of its paths renamed. -/
def StartTag.rename (r : String → String) (tag : StartTag) : StartTag :=
  { tag with
    name := renameTag r tag.name
    attributes := tag.attributes.map (·.rename r)
    modifiers := tag.modifiers.map (·.rename r) }

theorem StartTag.name_rename (r : String → String) (tag : StartTag) :
    (tag.rename r).name = renameTag r tag.name := rfl

/-- A cut at points begins with what stands in front of the first one. -/
theorem splitOn_append (head rest : List Char) (h : '.' ∉ head) :
    (head ++ rest).splitOn '.' = (rest.splitOn '.').modifyHead (head ++ ·) := by
  induction head with
  | nil => exact (congrFun List.modifyHead_id _).symm
  | cons c head ih =>
    obtain ⟨hc, hhead⟩ : '.' ≠ c ∧ '.' ∉ head := by simpa using h
    have hsplit := ih hhead
    simp only [List.splitOn] at hsplit ⊢
    rw [List.cons_append, List.splitOnP_cons_eq_if_modifyHead, if_neg (by simpa using Ne.symm hc),
      hsplit, List.modifyHead_modifyHead]
    rfl

/-- A tag whose name is a head and, after a point, properties. -/
theorem tagPath_append {head rest : List Char} (hhead : '.' ∉ head)
    (hrest : rest = [] ∨ ∃ tail, rest = '.' :: tail) :
    tagPath (String.ofList (head ++ rest))
      = (String.ofList head, ((rest.splitOn '.').tail).map String.ofList) := by
  have hfirst : ∃ tail, rest.splitOn '.' = [] :: tail := by
    obtain rfl | ⟨tail, rfl⟩ := hrest
    · exact ⟨[], by simp [List.splitOn]⟩
    · exact ⟨tail.splitOn '.', by simp [List.splitOn, List.splitOnP_cons_eq_if_modifyHead]⟩
  obtain ⟨tail, htail⟩ := hfirst
  rw [tagPath, String.toList_ofList, splitOn_append head rest hhead, htail]
  simp

/-- The part of a tag name from its first point on. -/
theorem dropWhile_point (name : List Char) :
    name.dropWhile (· ≠ '.') = [] ∨ ∃ tail, name.dropWhile (· ≠ '.') = '.' :: tail := by
  cases h : name.dropWhile (· ≠ '.') with
  | nil => exact .inl rfl
  | cons c tail =>
    have hc := List.head?_dropWhile_not (fun c : Char => decide (c ≠ '.')) name
    rw [h] at hc
    exact .inr ⟨tail, by simpa using hc⟩

/-- The head of a tag is what stands in front of its first point. -/
theorem tagPath_eq (name : String) :
    tagPath name = (String.ofList (name.toList.takeWhile (· ≠ '.')),
      ((name.toList.dropWhile (· ≠ '.')).splitOn '.').tail.map String.ofList) := by
  have hhead : '.' ∉ name.toList.takeWhile (· ≠ '.') := by
    intro hmem
    simpa using List.mem_takeWhile_imp hmem
  have hname := tagPath_append hhead (dropWhile_point name.toList)
  rwa [List.takeWhile_append_dropWhile, String.ofList_toList] at hname

/-- A name that can stand for a block parameter at the head of a tag. -/
structure PlainName (name : String) : Prop where
  noPoint : '.' ∉ name.toList
  noArgument : isArgumentName name = false
  noBlock : isBlockName name = false
  notThis : name ≠ "this"

/-- A renamed tag has the renamed head, and the same properties are taken of it. -/
theorem tagPath_renameTag {r : String → String} {name : String} (h : hasBareHead name = true)
    (hpoint : '.' ∉ (r (tagPath name).1).toList) :
    tagPath (renameTag r name) = (r (tagPath name).1, (tagPath name).2) := by
  have htail := congrArg Prod.snd (tagPath_eq name)
  rw [renameTag, if_pos h, tagPath_append hpoint (dropWhile_point _), String.ofList_toList, htail]

/-- A tag whose head keeps its name is the same. -/
theorem renameTag_eq_self {r : String → String} {name : String}
    (h : hasBareHead name = true → r (tagPath name).1 = (tagPath name).1) :
    renameTag r name = name := by
  rw [renameTag]
  split
  · next hbare =>
    rw [h hbare, tagPath_eq, String.toList_ofList, List.takeWhile_append_dropWhile,
      String.ofList_toList]
  · rfl

theorem renameTag_id (name : String) : renameTag id name = name := renameTag_eq_self fun _ => rfl

/-- A tag in the scope of a parameter: either the parameter is its head, and becomes
`y`, or the tag stays as it is. -/
theorem renameTag_cases {x y : String} (hy : PlainName y) (active : Bool) (name : String) :
    (active = true ∧ hasBareHead name = true ∧ (tagPath name).1 = x ∧
        tagPath (renameTag (renamed x y active) name) = (y, (tagPath name).2)) ∨
      renameTag (renamed x y active) name = name ∧
        (hasBareHead name = true → renamed x y active (tagPath name).1 = (tagPath name).1) := by
  by_cases h : active = true ∧ hasBareHead name = true ∧ (tagPath name).1 = x
  · obtain ⟨rfl, hbare, hx⟩ := h
    have hhead : renamed x y true (tagPath name).1 = y := by simp [renamed, hx]
    refine .inl ⟨rfl, hbare, hx, ?_⟩
    rw [tagPath_renameTag hbare (by rw [hhead]; exact hy.noPoint), hhead]
  · have hhead : hasBareHead name = true →
        renamed x y active (tagPath name).1 = (tagPath name).1 := by
      intro hbare
      have hx : ¬(active = true ∧ (tagPath name).1 = x) := fun hx => h ⟨hx.1, hbare, hx.2⟩
      simp [renamed, hx]
    exact .inr ⟨renameTag_eq_self hhead, hhead⟩

/-- A tag is that of a named block under either name. -/
theorem isBlockName_renameTag {x y : String} (hy : PlainName y) (active : Bool) (name : String) :
    isBlockName (renameTag (renamed x y active) name) = isBlockName name := by
  obtain ⟨-, hbare, hx, hpath⟩ | ⟨hname, -⟩ := renameTag_cases (x := x) hy active name
  · have hblock : isBlockName name = false := by
      simp only [hasBareHead, Bool.not_eq_true', Bool.or_eq_false_iff] at hbare
      exact hbare.1.1
    have hhead := congrArg Prod.fst (tagPath_eq (renameTag (renamed x y active) name))
    rw [hpath] at hhead
    rw [hblock]
    -- A colon at the start of the tag would be one at the start of its head.
    have hblock' := hy.noBlock
    rw [show y = _ from hhead] at hblock'
    simp only [isBlockName, String.toList_ofList, beq_eq_false_iff_ne, ne_eq] at hblock' ⊢
    intro hcolon
    obtain ⟨rest, hrest⟩ := List.head?_eq_some_iff.mp hcolon
    exact hblock' (by simp [hrest])
  · rw [hname]

/-! ### Renaming in a scope -/

section

variable (x y : String)

mutual

/-- A statement in the scope of a parameter `x` that is renamed to `y`. -/
def Statement.rename (active : Bool) : Statement → Statement
  | .mustache tag => .mustache (tag.rename (renamed x y active))
  | .partialCall tag => .partialCall { tag with call := tag.call.rename (renamed x y active) }
  | .block tag program inverse =>
    .block { tag with call := tag.call.rename (renamed x y active) } (renameBlock active program)
      (renameOther active inverse)
  | .element tag children span =>
    .element (tag.rename (renamed x y active))
      (renameStatements (active && !tag.blockParams.contains x) children) span
  | .comment c => .comment c
  | .mustacheComment c => .mustacheComment c
  | .text node => .text node

/-- Statements in the scope of a parameter that is renamed. -/
def renameStatements (active : Bool) : List Statement → List Statement
  | [] => []
  | s :: rest => s.rename active :: renameStatements active rest

/-- A block in the scope of a parameter that is renamed; it may hide it. -/
def renameBlock (active : Bool) : Block Statement → Block Statement
  | ⟨body, params, chained, span⟩ =>
    ⟨renameStatements (active && !params.contains x) body, params, chained, span⟩

/-- A block that may be missing, in the scope of a parameter that is renamed. -/
def renameOther (active : Bool) : Option (Block Statement) → Option (Block Statement)
  | none => none
  | some block => some (renameBlock active block)

end

/-- A block with its own parameter renamed. -/
def Block.renameParam (block : Block Statement) : Block Statement :=
  { block with
    body := renameStatements x y true block.body
    params := block.params.map (renamed x y true) }

/-- The tag of an element with its own parameter renamed. -/
def StartTag.renameParam (tag : StartTag) : StartTag :=
  { tag with blockParams := tag.blockParams.map (renamed x y true) }

/-- Statements in which one block, which declares the names `params`, has its
parameter `x` renamed to `y`. -/
inductive Renames (params : List String) : List Statement → List Statement → Prop
  | program {tag : BlockTag} {program : Block Statement} {inverse : Option (Block Statement)}
    {rest : List Statement} (hparams : program.params = params) (hx : x ∈ params) :
    Renames params (.block tag program inverse :: rest)
      (.block tag (program.renameParam x y) inverse :: rest)
  | inverse {tag : BlockTag} {program inverse : Block Statement} {rest : List Statement}
    (hparams : inverse.params = params) (hx : x ∈ params) :
    Renames params (.block tag program (some inverse) :: rest)
      (.block tag program (some (inverse.renameParam x y)) :: rest)
  /-- The block of a component, or one with a name. -/
  | element {tag : StartTag} {children : List Statement} {span : Span} {rest : List Statement}
    (hparams : tag.blockParams = params) (hx : x ∈ params) :
    Renames params (.element tag children span :: rest)
      (.element (tag.renameParam x y) (renameStatements x y true children) span :: rest)
  | inProgram {tag : BlockTag} {body body' : List Statement} {names : List String}
    {chained : Bool} {span : Span} {inverse : Option (Block Statement)} {rest : List Statement}
    (h : Renames params body body') :
    Renames params (.block tag ⟨body, names, chained, span⟩ inverse :: rest)
      (.block tag ⟨body', names, chained, span⟩ inverse :: rest)
  | inInverse {tag : BlockTag} {program : Block Statement} {body body' : List Statement}
    {names : List String} {chained : Bool} {span : Span} {rest : List Statement}
    (h : Renames params body body') :
    Renames params (.block tag program (some ⟨body, names, chained, span⟩) :: rest)
      (.block tag program (some ⟨body', names, chained, span⟩) :: rest)
  | inElement {tag : StartTag} {children children' : List Statement} {span : Span}
    {rest : List Statement} (h : Renames params children children') :
    Renames params (.element tag children span :: rest) (.element tag children' span :: rest)
  | later {s : Statement} {rest rest' : List Statement} (h : Renames params rest rest') :
    Renames params (s :: rest) (s :: rest')

end

/-! ### Renaming nothing -/

section

variable {x y : String}

theorem renamed_false : renamed x y false = id := by
  funext name
  simp [renamed]

theorem renamed_self : renamed x y true x = y := by
  simp [renamed]

theorem Path.rename_id (p : Path) : p.rename id = p := by
  obtain ⟨head, tail, written, span⟩ := p
  cases head <;> rfl

mutual

theorem Expr.rename_id (e : Expr) : e.rename id = e := by
  match e with
  | .path p => rw [Expr.rename, Path.rename_id]
  | .sub ⟨callee, params, ⟨pairs, hashSpan⟩⟩ span =>
    rw [Expr.rename, Expr.rename_id callee, renameExprs_id params, renamePairs_id pairs]
  | .literal value span => rw [Expr.rename]

theorem renameExprs_id (es : List Expr) : renameExprs id es = es := by
  match es with
  | [] => rw [renameExprs]
  | e :: rest => rw [renameExprs, Expr.rename_id e, renameExprs_id rest]

theorem renamePairs_id (pairs : List (Pair Expr)) : renamePairs id pairs = pairs := by
  match pairs with
  | [] => rw [renamePairs]
  | ⟨key, value, span⟩ :: rest => rw [renamePairs, Expr.rename_id value, renamePairs_id rest]

end

theorem Call.rename_id (call : Call Expr) : call.rename id = call := by
  rw [Call.rename, Expr.rename_id, renameExprs_id, renamePairs_id]

theorem MustacheTag.rename_id (tag : MustacheTag) : tag.rename id = tag := by
  rw [MustacheTag.rename, Call.rename_id]

theorem ConcatPart.rename_id (part : ConcatPart) : part.rename id = part := by
  cases part with
  | text node => rfl
  | mustache tag => rw [ConcatPart.rename, MustacheTag.rename_id]

theorem AttrValue.rename_id (value : AttrValue) : value.rename id = value := by
  cases value with
  | text node => rfl
  | mustache tag => rw [AttrValue.rename, MustacheTag.rename_id]
  | concat parts span => simp only [AttrValue.rename, ConcatPart.rename_id, List.map_id']

theorem StartTag.rename_id (tag : StartTag) : tag.rename id = tag := by
  simp only [StartTag.rename, renameTag_id, Attr.rename, AttrValue.rename_id, Modifier.rename,
    Call.rename_id, List.map_id']

mutual

theorem Statement.rename_false (s : Statement) : s.rename x y false = s := by
  match s with
  | .mustache tag => rw [Statement.rename, renamed_false, MustacheTag.rename_id]
  | .partialCall tag => rw [Statement.rename, renamed_false, Call.rename_id]
  | .block tag program inverse =>
    rw [Statement.rename, renamed_false, Call.rename_id, renameBlock_false program,
      renameOther_false inverse]
  | .element tag children span =>
    rw [Statement.rename, renamed_false, StartTag.rename_id, Bool.false_and,
      renameStatements_false children]
  | .comment c => rw [Statement.rename]
  | .mustacheComment c => rw [Statement.rename]
  | .text node => rw [Statement.rename]

/-- Out of the scope of the parameter nothing is renamed. -/
theorem renameStatements_false (ss : List Statement) : renameStatements x y false ss = ss := by
  match ss with
  | [] => rw [renameStatements]
  | s :: rest => rw [renameStatements, Statement.rename_false s, renameStatements_false rest]

theorem renameBlock_false (block : Block Statement) : renameBlock x y false block = block := by
  match block with
  | ⟨body, params, chained, span⟩ =>
    rw [renameBlock, Bool.false_and, renameStatements_false body]

theorem renameOther_false (other : Option (Block Statement)) :
    renameOther x y false other = other := by
  match other with
  | none => rw [renameOther]
  | some block => rw [renameOther, renameBlock_false block]

end

end

end TemplateCompiler.Template
