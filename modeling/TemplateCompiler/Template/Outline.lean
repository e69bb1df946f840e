/-
The outline of a template.

`Template.outline` shows every node of a template with all its fields, which is
what one looks at to see how a template was read.
-/
import TemplateCompiler.Number.Layout
import TemplateCompiler.Template.Syntax
import TemplateCompiler.Text.Outline

namespace TemplateCompiler

/-- The outline of a span. -/
def Span.outline (s : Span) : Outline := .leaf s!"{s.start}..{s.stop}"

/-- The outline of the marks that strip blanks around a tag. -/
def Strip.outline (s : Strip) : Outline :=
  .record "StripFlags" [("open", .bool s.before), ("close", .bool s.after)]

end TemplateCompiler

namespace TemplateCompiler.Template

/-! ### Expressions -/

/-- The outline of the head of a path. -/
def Head.outline : Head → Outline
  | .this => .leaf "This"
  | .at name => .tagged "At" (.string name)
  | .var name => .tagged "Var" (.string name)

/-- The outline of a path. -/
def Path.outline (p : Path) : Outline :=
  .record "PathExpression" [("head", p.head.outline), ("tail", .strings p.tail),
    ("original", .string p.written), ("span", p.span.outline)]

/-- The outline of a literal value. -/
def Literal.outline : Literal → Outline
  | .string value => .tagged "String" (.string value)
  | .number value => .tagged "Number" (.leaf (Number.render .outline value))
  | .boolean value => .tagged "Boolean" (.bool value)
  | .null => .leaf "Null"
  | .undefined => .leaf "Undefined"

mutual

/-- The outline of an expression. -/
def Expr.outline : Expr → Outline
  | .path p => .tagged "Path" p.outline
  | .sub call span =>
    .tagged "SubExpression"
      (.record "SubExpression" (callFields call "path" ++ [("span", span.outline)]))
  | .literal value span =>
    .tagged "Literal" (.record "Literal" [("value", value.outline), ("span", span.outline)])

/-- The fields of a call, the callee under a given name. -/
def callFields : Call Expr → String → List (String × Outline)
  | ⟨callee, params, hash⟩, calleeName =>
    [(calleeName, callee.outline), ("params", .list (exprOutlines params)),
      ("hash", .record "Hash"
        [("pairs", .list (pairOutlines hash.pairs)), ("span", hash.span.outline)])]

/-- The outlines of expressions. -/
def exprOutlines : List Expr → List Outline
  | [] => []
  | e :: rest => e.outline :: exprOutlines rest

/-- The outlines of named arguments. -/
def pairOutlines : List (Pair Expr) → List Outline
  | [] => []
  | ⟨key, value, span⟩ :: rest =>
    .record "HashPair" [("key", .string key), ("value", value.outline), ("span", span.outline)]
      :: pairOutlines rest

end

/-! ### Tags and elements -/

/-- The outline of a tag that writes a value. -/
def MustacheTag.outline (tag : MustacheTag) : Outline :=
  .record "MustacheStatement" (callFields tag.call "path" ++
    [("trusting", .bool tag.trusting), ("strip", tag.strip.outline), ("span", tag.span.outline)])

/-- The outline of a tag that asks for another template. -/
def PartialTag.outline (tag : PartialTag) : Outline :=
  .record "PartialStatement" (callFields tag.call "name" ++
    [("strip", tag.strip.outline), ("span", tag.span.outline)])

/-- The outline of a comment under the name of its kind. -/
def Comment.outline (name : String) (c : Comment) : Outline :=
  .record name [("value", .string c.value), ("span", c.span.outline)]

/-- The outline of a run of text. -/
def TextNode.outline (node : TextNode) : Outline :=
  .record "TextNode" [("chars", .string node.chars), ("span", node.span.outline)]

/-- The outline of a part of an attribute value. -/
def ConcatPart.outline : ConcatPart → Outline
  | .text node => .tagged "Text" node.outline
  | .mustache tag => .tagged "Mustache" tag.outline

/-- The outline of an attribute value. -/
def AttrValue.outline : AttrValue → Outline
  | .text node => .tagged "Text" node.outline
  | .mustache tag => .tagged "Mustache" tag.outline
  | .concat parts span =>
    .tagged "Concat" (.record "ConcatStatement"
      [("parts", .list (parts.map ConcatPart.outline)), ("span", span.outline)])

/-- The outline of an attribute. -/
def Attr.outline (attr : Attr) : Outline :=
  .record "AttrNode"
    [("name", .string attr.name), ("value", attr.value.outline), ("span", attr.span.outline)]

/-- The outline of a modifier. -/
def Modifier.outline (m : Modifier) : Outline :=
  .record "ElementModifierStatement" (callFields m.call "path" ++ [("span", m.span.outline)])

/-- The fields of a start tag. -/
def StartTag.fields (tag : StartTag) : List (String × Outline) :=
  [("tag", .string tag.name), ("self_closing", .bool tag.selfClosing),
    ("attributes", .list (tag.attributes.map Attr.outline)),
    ("block_params", .strings tag.blockParams),
    ("modifiers", .list (tag.modifiers.map Modifier.outline)),
    ("comments", .list (tag.comments.map (Comment.outline "MustacheCommentStatement")))]

/-! ### Statements -/

mutual

/-- The outline of a statement. -/
def Statement.outline : Statement → Outline
  | .mustache tag => .tagged "Mustache" tag.outline
  | .block tag program inverse =>
    .tagged "Block" (.record "BlockStatement" (callFields tag.call "path" ++
      [("program", blockOutline program), ("inverse", .option (inverseOutline inverse)),
        ("open_strip", tag.openStrip.outline), ("inverse_strip", tag.inverseStrip.outline),
        ("close_strip", tag.closeStrip.outline), ("span", tag.span.outline)]))
  | .partialCall tag => .tagged "Partial" tag.outline
  | .comment c => .tagged "Comment" (c.outline "CommentStatement")
  | .mustacheComment c => .tagged "MustacheComment" (c.outline "MustacheCommentStatement")
  | .text node => .tagged "Text" node.outline
  | .element tag children span =>
    .tagged "Element" (.record "ElementNode" (tag.fields ++
      [("children", .list (statementOutlines children)), ("span", span.outline)]))

/-- The outlines of statements. -/
def statementOutlines : List Statement → List Outline
  | [] => []
  | s :: rest => s.outline :: statementOutlines rest

/-- The outline of a block. -/
def blockOutline : Block Statement → Outline
  | ⟨body, params, chained, span⟩ =>
    .record "Block" [("body", .list (statementOutlines body)), ("block_params", .strings params),
      ("chained", .bool chained), ("span", span.outline)]

/-- The outline of the other branch of a block. -/
def inverseOutline : Option (Block Statement) → Option Outline
  | none => none
  | some block => some (blockOutline block)

end

/-- The outline of a template. -/
def outline (t : Template) : Outline :=
  .record "Template" [("body", .list (statementOutlines t.body)), ("span", t.span.outline)]

end TemplateCompiler.Template
