/-
Derivations of the grammar of tags.

A derivation says how tokens are put together by the rules of the grammar: a
tree with one constructor for each rule, whose leaves are the tokens.

* `ExprTree`, `StatementTree`, `RootTree` — derivations of an expression, of a
  statement and of a whole template;
* `RootTree.tokens` — the tokens that a derivation spells, from left to right;
* `RootTree.Admissible` — what the grammar does not say: paths are accepted,
  literals are not called, and a block is closed under the name it was opened by;
* `RootTree.program` — the program that a derivation stands for.
-/
import TemplateCompiler.Mustache.Grammar

namespace TemplateCompiler.Mustache

open Template (Literal Path Pair Hash Call Expr MustacheTag PartialTag BlockTag)

/-! ### Expressions -/

/-- A token with the value that it carries. -/
structure Leaf (α : Type) where
  value : α
  span : Span

/-- `path := DATA? ID (SEP ID)*` -/
structure PathTree where
  data : Option Span
  first : Leaf String
  rest : List (Leaf Char × Leaf String)

/-- `pair := ID EQUALS expr` -/
structure PairTree (ε : Type) where
  key : Leaf String
  equals : Span
  value : ε

/-- `call := expr expr* pair*` -/
structure CallTree (ε : Type) where
  callee : ε
  params : List ε
  pairs : List (PairTree ε)

/-- `expr := path | LITERAL | OPEN_SEXPR call CLOSE_SEXPR` -/
inductive ExprTree where
  | path (tree : PathTree)
  | literal (value : Literal) (span : Span)
  | sub (opening : Span) (call : CallTree ExprTree) (closing : Span)

/-- Whether an expression is a literal. -/
def ExprTree.isLiteral : ExprTree → Bool
  | .literal _ _ => true
  | _ => false

/-! ### Statements -/

/-- `params := OPEN_BLOCK_PARAMS ID ID* CLOSE_BLOCK_PARAMS` -/
structure ParamsTree where
  opening : Span
  first : Leaf String
  rest : List (Leaf String)
  closing : Span

/-- `opening := call params? CLOSE` -/
structure OpeningTree where
  call : CallTree ExprTree
  params : Option ParamsTree
  close : Leaf Bool

/-- `closing := OPEN_ENDBLOCK expr CLOSE` -/
structure ClosingTree where
  mark : Leaf Bool
  name : ExprTree
  close : Leaf Bool

mutual

/-- `statement := CONTENT | COMMENT | OPEN call CLOSE
  | OPEN_UNESCAPED call CLOSE_UNESCAPED | OPEN_PARTIAL call CLOSE
  | OPEN_BLOCK opening statement* inverse? closing` -/
inductive StatementTree where
  | content (text : Leaf String)
  | comment (text : Leaf (String × Strip))
  | mustache (mark : Leaf (Bool × Bool)) (call : CallTree ExprTree) (close : Leaf Bool)
  | unescaped (mark : Leaf Bool) (call : CallTree ExprTree) (close : Leaf Bool)
  | partialCall (mark : Leaf Bool) (call : CallTree ExprTree) (close : Leaf Bool)
  | block (mark : Leaf Bool) (opening : OpeningTree) (body : List StatementTree)
      (inverse : Option InverseTree) (closing : ClosingTree)

/-- `inverse := INVERSE statement* | OPEN_INVERSE_CHAIN opening statement* inverse?` -/
inductive InverseTree where
  | plain (mark : Leaf Strip) (body : List StatementTree)
  | chain (mark : Leaf Bool) (opening : OpeningTree) (body : List StatementTree)
      (inverse : Option InverseTree)

end

/-- `root := statement* EOF` -/
structure RootTree where
  body : List StatementTree
  eof : Span

/-! ### The tokens of a derivation -/

/-- The kind of the token for a literal. -/
def literalToken : Literal → TokenKind
  | .string value => .string value
  | .number value => .number value
  | .boolean value => .boolean value
  | .null => .null
  | .undefined => .undefined

/-- Names of a path after the first. -/
def tailTokens : List (Leaf Char × Leaf String) → List Token
  | [] => []
  | (mark, name) :: rest =>
    ⟨.sep mark.value, mark.span⟩ :: ⟨.id name.value, name.span⟩ :: tailTokens rest

/-- The tokens of a path. -/
def PathTree.tokens (p : PathTree) : List Token :=
  p.data.toList.map (⟨.data, ·⟩) ++ ⟨.id p.first.value, p.first.span⟩ :: tailTokens p.rest

mutual

/-- The tokens of an expression. -/
def ExprTree.tokens : ExprTree → List Token
  | .path p => p.tokens
  | .literal value span => [⟨literalToken value, span⟩]
  | .sub opening call closing =>
    ⟨.openSexpr, opening⟩ :: (callTokens call ++ [⟨.closeSexpr, closing⟩])

/-- The tokens of a call. -/
def callTokens : CallTree ExprTree → List Token
  | ⟨callee, params, pairs⟩ => callee.tokens ++ (exprsTokens params ++ pairsTokens pairs)

/-- The tokens of positional arguments. -/
def exprsTokens : List ExprTree → List Token
  | [] => []
  | e :: rest => e.tokens ++ exprsTokens rest

/-- The tokens of named arguments. -/
def pairsTokens : List (PairTree ExprTree) → List Token
  | [] => []
  | ⟨key, equals, value⟩ :: rest =>
    ⟨.id key.value, key.span⟩ :: ⟨.equals, equals⟩ :: (value.tokens ++ pairsTokens rest)

end

/-- The tokens of names in a row. -/
def namesTokens (names : List (Leaf String)) : List Token :=
  names.map fun name => ⟨.id name.value, name.span⟩

/-- The tokens of block parameters. -/
def ParamsTree.tokens (p : ParamsTree) : List Token :=
  ⟨.openBlockParams, p.opening⟩ :: (namesTokens (p.first :: p.rest) ++
    [⟨.closeBlockParams, p.closing⟩])

/-- The token that ends a tag. -/
def closeToken (close : Leaf Bool) : Token := ⟨.close close.value, close.span⟩

/-- The tokens of block parameters that may be missing. -/
def paramsTokens : Option ParamsTree → List Token
  | none => []
  | some p => p.tokens

/-- The tokens of what opens a block, after its mark. -/
def OpeningTree.tokens (o : OpeningTree) : List Token :=
  callTokens o.call ++ (paramsTokens o.params ++ [closeToken o.close])

/-- The tokens of what closes a block. -/
def ClosingTree.tokens (c : ClosingTree) : List Token :=
  ⟨.openEndBlock c.mark.value, c.mark.span⟩ :: (c.name.tokens ++ [closeToken c.close])

mutual

/-- The tokens of a statement. -/
def StatementTree.tokens : StatementTree → List Token
  | .content text => [⟨.content text.value, text.span⟩]
  | .comment text => [⟨.comment text.value.1 text.value.2, text.span⟩]
  | .mustache mark call close =>
    ⟨.open mark.value.1 mark.value.2, mark.span⟩ :: (callTokens call ++ [closeToken close])
  | .unescaped mark call close =>
    ⟨.openUnescaped mark.value, mark.span⟩
      :: (callTokens call ++ [⟨.closeUnescaped close.value, close.span⟩])
  | .partialCall mark call close =>
    ⟨.openPartial mark.value, mark.span⟩ :: (callTokens call ++ [closeToken close])
  | .block mark opening body inverse closing =>
    ⟨.openBlock mark.value, mark.span⟩
      :: (opening.tokens ++ (statementsTokens body ++ (otherTokens inverse ++ closing.tokens)))

/-- The tokens of statements. -/
def statementsTokens : List StatementTree → List Token
  | [] => []
  | s :: rest => s.tokens ++ statementsTokens rest

/-- The tokens of the other branch of a block. -/
def InverseTree.tokens : InverseTree → List Token
  | .plain mark body => ⟨.inverse mark.value, mark.span⟩ :: statementsTokens body
  | .chain mark opening body inverse =>
    ⟨.openInverseChain mark.value, mark.span⟩
      :: (opening.tokens ++ (statementsTokens body ++ otherTokens inverse))

/-- The tokens of another branch that may be missing. -/
def otherTokens : Option InverseTree → List Token
  | none => []
  | some inverse => inverse.tokens

end

/-- The tokens of a whole template. -/
def RootTree.tokens (t : RootTree) : List Token := statementsTokens t.body ++ [⟨.eof, t.eof⟩]

/-! ### What a derivation stands for -/

namespace PathTree

/-- The names of a path with their separators. -/
def segments (p : PathTree) : List Segment :=
  ⟨none, p.first.value⟩ :: p.rest.map fun (mark, name) => ⟨some mark.value, name.value⟩

/-- From the at sign or the first name to the last name. -/
def span (p : PathTree) : Span :=
  ⟨(p.data.getD p.first.span).start, ((p.rest.getLast?.map Prod.snd).getD p.first).span.stop⟩

/-- The path, if its names make one. -/
def path? (p : PathTree) : Except Fault Path := Segment.toPath p.data.isSome p.segments p.span

/-- The names make a path. -/
def Accepted (p : PathTree) : Prop := ∃ path, p.path? = .ok path

/-- The path that a derivation stands for. -/
def path (p : PathTree) : Path := p.path?.toOption.getD default

end PathTree

/-- Where the last of some tokens ends. -/
def lastStop (tokens : List Token) : Nat := (tokens.getLast?.map fun t => t.span.stop).getD 0

/-- The span of named arguments, or the place after the other arguments. -/
def namedSpan (stop : Nat) : List (Pair Expr) → Span
  | [] => .point stop
  | first :: rest => first.span.merge (rest.getLast?.getD first).span

mutual

/-- The expression that a derivation stands for. -/
def ExprTree.expr : ExprTree → Expr
  | .path p => .path p.path
  | .literal value span => .literal value span
  | .sub opening call closing => .sub (callOf call) ⟨opening.start, closing.stop⟩

/-- The call that a derivation stands for. -/
def callOf : CallTree ExprTree → Call Expr
  | ⟨callee, params, pairs⟩ =>
    { callee := callee.expr
      params := exprsOf params
      hash := ⟨pairsOf pairs,
        namedSpan (lastStop (callee.tokens ++ exprsTokens params)) (pairsOf pairs)⟩ }

/-- The positional arguments that derivations stand for. -/
def exprsOf : List ExprTree → List Expr
  | [] => []
  | e :: rest => e.expr :: exprsOf rest

/-- The named arguments that derivations stand for. -/
def pairsOf : List (PairTree ExprTree) → List (Pair Expr)
  | [] => []
  | ⟨key, _, value⟩ :: rest =>
    ⟨idName key.value, value.expr, ⟨key.span.start, value.expr.span.stop⟩⟩ :: pairsOf rest

end

/-- The names of block parameters that may be missing. -/
def paramsNames : Option ParamsTree → List String
  | none => []
  | some p => (p.first :: p.rest).map fun name => idName name.value

/-- The stripping of a closing tag. -/
def ClosingTree.strip (c : ClosingTree) : Strip := ⟨c.mark.value, c.close.value⟩

/-- The stripping of an `else`; without one nothing is stripped. -/
def otherStrip : Option InverseTree → Strip
  | none => {}
  | some (.plain mark _) => mark.value
  | some (.chain mark opening _ _) => ⟨mark.value, opening.close.value⟩

/-- Where the first of some tokens starts, or what follows them if there are
none. -/
def startOf (tokens : List Token) (next : Nat) : Nat :=
  (tokens.head?.map fun t => t.span.start).getD next

/-- The span of a program with the given tokens, up to what follows them. -/
def programSpan (tokens : List Token) (next : Nat) : Span :=
  ⟨startOf tokens next, max next (startOf tokens next)⟩

mutual

/-- The statement that a derivation stands for. -/
def StatementTree.node : StatementTree → Node
  | .content text => .content (.ofText text.value text.span)
  | .comment text => .comment text.value.1 text.value.2 text.span
  | .mustache mark call close =>
    .mustache ⟨callOf call, mark.value.2, ⟨mark.value.1, close.value⟩,
      ⟨mark.span.start, close.span.stop⟩⟩
  | .unescaped mark call close =>
    .mustache ⟨callOf call, true, ⟨mark.value, close.value⟩, ⟨mark.span.start, close.span.stop⟩⟩
  | .partialCall mark call close =>
    .partialCall ⟨callOf call, ⟨mark.value, close.value⟩, ⟨mark.span.start, close.span.stop⟩⟩
  | .block mark opening body inverse closing =>
    let stop := closing.mark.span.start
    .block
      { call := callOf opening.call
        openStrip := ⟨mark.value, opening.close.value⟩
        inverseStrip := otherStrip inverse
        closeStrip := closing.strip
        span := ⟨mark.span.start, closing.close.span.stop⟩ }
      { body := nodesOf body
        params := paramsNames opening.params
        span := programSpan (statementsTokens body) (startOf (otherTokens inverse) stop) }
      (otherOf stop closing.strip inverse)

/-- The statements that derivations stand for. -/
def nodesOf : List StatementTree → List Node
  | [] => []
  | s :: rest => s.node :: nodesOf rest

/-- The other branch that a derivation stands for.  The tag that closes the block
starts at `stop`.  A link of a chain is a block in a program of its own; it strips
at its end as `close` says. -/
def InverseTree.program (stop : Nat) (close : Strip) : InverseTree → Program
  | .plain _ body => { body := nodesOf body, span := programSpan (statementsTokens body) stop }
  | .chain mark opening body inverse =>
    let link := Node.block
      { call := callOf opening.call
        openStrip := ⟨mark.value, opening.close.value⟩
        inverseStrip := otherStrip inverse
        closeStrip := close
        span := ⟨mark.span.start, stop⟩ }
      { body := nodesOf body
        params := paramsNames opening.params
        span := programSpan (statementsTokens body) (startOf (otherTokens inverse) stop) }
      (otherOf stop (otherStrip inverse) inverse)
    { body := [link], chained := true, span := ⟨mark.span.start, stop⟩ }

/-- The other branch, if there is one. -/
def otherOf (stop : Nat) (close : Strip) : Option InverseTree → Option Program
  | none => none
  | some inverse => some (inverse.program stop close)

end

/-- The program that a derivation stands for. -/
def RootTree.program (t : RootTree) : Program := { body := nodesOf t.body, span := ⟨0, t.eof.stop⟩ }

/-! ### Side conditions -/

mutual

/-- Paths are accepted, and no literal is called in parentheses. -/
def ExprTree.Admissible : ExprTree → Prop
  | .path p => p.Accepted
  | .literal _ _ => True
  | .sub _ call _ => CallAdmissible call ∧ call.callee.isLiteral = false

/-- The callee and the arguments of a call are admissible. -/
def CallAdmissible : CallTree ExprTree → Prop
  | ⟨callee, params, pairs⟩ => callee.Admissible ∧ ExprsAdmissible params ∧ PairsAdmissible pairs

/-- Positional arguments are admissible. -/
def ExprsAdmissible : List ExprTree → Prop
  | [] => True
  | e :: rest => e.Admissible ∧ ExprsAdmissible rest

/-- Named arguments are admissible. -/
def PairsAdmissible : List (PairTree ExprTree) → Prop
  | [] => True
  | ⟨_, _, value⟩ :: rest => value.Admissible ∧ PairsAdmissible rest

end

/-- The call of a tag that writes a value: a literal takes no arguments. -/
def WrittenAdmissible (call : CallTree ExprTree) : Prop :=
  CallAdmissible call ∧
    (call.callee.isLiteral = true → call.params = [] ∧ call.pairs = [])

/-- What opens a block calls no literal. -/
def OpeningTree.Admissible (o : OpeningTree) : Prop :=
  CallAdmissible o.call ∧ o.call.callee.isLiteral = false

mutual

/-- A statement is admissible; a block is closed under the name it was opened
by. -/
def StatementTree.Admissible : StatementTree → Prop
  | .content _ | .comment _ => True
  | .mustache _ call _ | .unescaped _ call _ => WrittenAdmissible call
  | .partialCall _ call _ => CallAdmissible call
  | .block _ opening body inverse closing =>
    opening.Admissible ∧ StatementsAdmissible body ∧ OtherAdmissible inverse ∧
      closing.name.Admissible ∧ spelling opening.call.callee.expr = spelling closing.name.expr

/-- Statements are admissible. -/
def StatementsAdmissible : List StatementTree → Prop
  | [] => True
  | s :: rest => s.Admissible ∧ StatementsAdmissible rest

/-- The other branch of a block is admissible. -/
def InverseTree.Admissible : InverseTree → Prop
  | .plain _ body => StatementsAdmissible body
  | .chain _ opening body inverse =>
    opening.Admissible ∧ StatementsAdmissible body ∧ OtherAdmissible inverse

/-- Another branch that may be missing is admissible. -/
def OtherAdmissible : Option InverseTree → Prop
  | none => True
  | some inverse => inverse.Admissible

end

/-- The side conditions of a whole template. -/
def RootTree.Admissible (t : RootTree) : Prop := StatementsAdmissible t.body

end TemplateCompiler.Mustache
