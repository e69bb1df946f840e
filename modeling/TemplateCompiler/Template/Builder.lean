/-
Building the tree of a template.

The text of a program is read as markup, run by run, and what the reader
reports grows a tree.  Between two runs the state of the reader says where a
tag in braces belongs: in a start tag it modifies the element, in an attribute
value it is a part of the value, in a comment of the markup it is plain text,
and between tags it is a statement of its own.

* `Builder` — the reader and the tree so far, with what is still open;
* `Builder.observe` — what one event adds to the tree;
* `Builder.program` — the statements of a program;
* `Template.build` — the tree of a whole program, and the warnings.

Open elements and blocks form a stack of frames, the innermost first.  A program
puts a frame of its own on the stack and takes it off at its end, so an element
must be closed in the program that opens it.
-/
import TemplateCompiler.Markup.Machine
import TemplateCompiler.Mustache.Grammar
import TemplateCompiler.Mustache.Lexer

namespace TemplateCompiler.Template

open Markup (Machine Event Mode)
open Mustache (Node Content Program)

/-- The elements without children and end tag. -/
def voidElements : List String :=
  ["area", "base", "br", "col", "command", "embed", "hr", "img", "input", "keygen", "link",
    "meta", "param", "source", "track", "wbr"]

/-- Whether elements of this name have neither children nor end tag. -/
def isVoid (name : String) : Bool := voidElements.contains name

/-- Something open that statements are added to. -/
inductive Frame where
  /-- A template or a branch of a block. -/
  | block (body : List Statement)
  | element (tag : StartTag) (children : List Statement) (span : Span)
deriving Inhabited

/-- Adds a statement to an open frame. -/
def Frame.push (s : Statement) : Frame → Frame
  | block body => block (body ++ [s])
  | element tag children span => element tag (children ++ [s]) span

/-- A tag that is still being read, and where it starts. -/
inductive PendingTag where
  | opening (tag : StartTag) (start : Nat)
  | closing (name : String) (start : Nat)
deriving Inhabited

/-- The name of a tag, as far as it is read. -/
def PendingTag.name : PendingTag → String
  | opening tag _ => tag.name
  | closing name _ => name

/-- Adds a character to the name of a tag. -/
def PendingTag.pushName (c : Char) : PendingTag → PendingTag
  | opening tag start => opening { tag with name := tag.name.push c } start
  | closing name start => closing (name.push c) start

/-- Changes a start tag. -/
def PendingTag.onStartTag (f : StartTag → StartTag) : PendingTag → PendingTag
  | opening tag start => opening (f tag) start
  | closing name start => closing name start

/-- An attribute that is still being read. -/
structure PendingAttr where
  name : String := ""
  parts : List ConcatPart := []
  /-- The text that is being read. -/
  text : Option TextNode := none
  quoted : Bool := false
  dynamic : Bool := false
  start : Nat
  valueStart : Nat
deriving Inhabited

namespace PendingAttr

/-- Makes the text that is being read a part that ends at a position. -/
def finishText (a : PendingAttr) (stop : Nat) : PendingAttr :=
  match a.text with
  | some node =>
    { a with
      text := none
      parts :=
        a.parts ++ [.text { node with span := ⟨node.span.start, max stop node.span.start⟩ }] }
  | none => a

/-- Adds a character of the value. -/
def pushValue (a : PendingAttr) (c : Char) (pos : Nat) : PendingAttr :=
  match a.text with
  | some node => { a with text := some { node with chars := node.chars.push c } }
  | none => { a with text := some { chars := String.singleton c, span := .point pos } }

end PendingAttr

/-! ### Attributes and start tags -/

/-- An attribute value from its parts.  In quotes texts and mustaches may be
mixed; without quotes a mustache stands alone. -/
def attrValue (a : PendingAttr) (span : Span) : Except Fault AttrValue :=
  if a.dynamic then
    if a.quoted then .ok (.concat a.parts span)
    else
      let refused : Fault := Fault.ofStructure .E2009
        "An unquoted attribute value must be a string or a mustache, preceded by whitespace or a '=' character, and followed by whitespace, a '>' character, or '/>'"
        span
      match a.parts with
      | [.mustache tag] => .ok (.mustache tag)
      -- The slash of a tag that closes itself was read as part of the value.
      | .mustache tag :: .text node :: _ =>
        if node.chars = "/" then .ok (.mustache tag) else .error refused
      | _ => .error refused
  else
    match a.parts with
    | .text node :: _ => .ok (.text { node with span })
    | .mustache tag :: _ => .ok (.mustache tag)
    | [] => .ok (.text { chars := "", span })

/-- Whether a name begins with a bar. -/
def startsWithBar (name : String) : Bool := name.toList.head? == some '|'

/-- The names of block parameters, without their bars. -/
def blockParamNames : List String → Except String (List String)
  | [] => .ok []
  | name :: rest => do
    let param := name.toList.filter (· ≠ '|')
    if param.isEmpty then blockParamNames rest
    else if param.any Mustache.isReserved then
      .error s!"Invalid identifier for block parameters, '{String.ofList param}'"
    else
      let more ← blockParamNames rest
      return String.ofList param :: more

/-- Takes the pseudo-attributes that spell block parameters out of a start
tag. -/
def extractBlockParams (tag : StartTag) : Except String StartTag :=
  let names := tag.attributes.map (·.name)
  let plain := names.takeWhile (· ≠ "as")
  match names.dropWhile (· ≠ "as") with
  | [] =>
    -- Without `as`, bars at the end of the tag are taken for a mistake.
    if (names.getLast?.map startsWithBar).getD false then
      .error
        "Block parameters must be preceded by the `as` keyword, detected block parameters without `as`"
    else .ok tag
  | keyword :: rest =>
    -- An `as` without a bar behind it is an attribute like any other.
    if (rest.head?.map startsWithBar).getD false then
      let written := String.intercalate " " (keyword :: rest)
      if written.toList.getLast? = some '|' ∧ written.toList.count '|' = 2 then do
        let params ← blockParamNames rest
        if params.isEmpty then .error "Cannot use zero block parameters"
        else
          return { tag with attributes := tag.attributes.take plain.length, blockParams := params }
      else .error s!"Invalid block parameters syntax, '{written}'"
    else .ok tag

/-! ### The builder -/

/-- The tree of a template while it is built. -/
structure Builder where
  machine : Machine
  /-- What is open, the innermost first. -/
  frames : List Frame := []
  text : Option TextNode := none
  comment : Option Comment := none
  tag : Option PendingTag := none
  attr : Option PendingAttr := none
  warnings : List Diagnostic := []

namespace Builder

/-- Adds a statement to the innermost frame. -/
def append (b : Builder) (s : Statement) : Builder :=
  match b.frames with
  | frame :: rest => { b with frames := frame.push s :: rest }
  | [] => b

/-- Opens a frame. -/
def push (b : Builder) (frame : Frame) : Builder := { b with frames := frame :: b.frames }

/-- Ends a start tag: the element is opened, or complete if it is void or
closes itself. -/
def finishStartTag (b : Builder) (tag : StartTag) (span : Span) : Except Fault Builder :=
  if tag.name = ":" then
    .error (Fault.ofStructure .E2010
      "Invalid named block named detected, you may have created a named block without a name, or you may have began your name with a number. Named blocks must have names that are at least one character long, and begin with a lower case letter"
      span)
  else
    match extractBlockParams tag with
    | .error message => .error (Fault.ofStructure .E2007 message span)
    | .ok tag =>
      if isVoid tag.name || tag.selfClosing then .ok (b.append (.element tag [] span))
      else .ok (b.push (.element tag [] span))

/-- Ends an end tag: the innermost open element must have its name. -/
def finishEndTag (b : Builder) (source : Source) (name : String) (span : Span) :
    Except Fault Builder :=
  if isVoid name then
    .error (Fault.ofStructure .E2003
      s!"<{name}> elements do not need end tags. You should remove it" span)
  else
    match b.frames with
    | .element tag children elementSpan :: rest =>
      if tag.name = name then
        .ok (Builder.append { b with frames := rest }
          (.element tag children { elementSpan with stop := span.stop }))
      else
        let line := (source.position elementSpan.start).line
        .error ((Fault.ofStructure .E2005
          s!"Closing tag </{name}> did not match last open tag <{tag.name}> (on line {line})"
          span).withRelated elementSpan s!"<{tag.name}> opened here")
    | _ =>
      .error (Fault.ofStructure .E2004 s!"Closing tag </{name}> without an open tag" span)

/-- Ends an attribute, which joins the start tag that is being read. -/
def finishAttr (b : Builder) (stop : Nat) : Except Fault Builder :=
  match b.attr with
  | none => .ok b
  | some pending =>
    -- A quoted value ends after its quote, its text before it.
    let a := pending.finishText (if pending.quoted then stop - 1 else stop)
    let b := { b with attr := none }
    match b.tag with
    | none => .ok b
    | some (.closing _ start) =>
      .error (Fault.ofStructure .E2012
        "Invalid end tag: closing tag must not have attributes" ⟨start, stop⟩)
    | some (.opening tag start) =>
      -- Block parameters look like attributes without a value until the tag ends.
      let bare := a.parts.isEmpty && !a.quoted && !a.dynamic
      if bare && startsWithBar a.name && !tag.attributes.any (·.name == "as") then
        .error (Fault.ofStructure .E2007
          "Invalid block parameters syntax: block parameters must be preceded by the `as` keyword"
          ⟨a.start, a.start + Text.byteLength a.name.toList⟩)
      else do
        let value ← attrValue a ⟨a.valueStart, stop⟩
        let attr : Attr := { name := a.name, value, span := ⟨a.start, stop⟩ }
        let attributes := tag.attributes ++ [attr]
        return { b with tag := some (.opening { tag with attributes } start) }

/-- Ends the tag that is being read. -/
def finishTag (b : Builder) (source : Source) (stop : Nat) : Except Fault Builder :=
  let done := { b with tag := none }
  match b.tag with
  | some (.opening tag start) => done.finishStartTag tag ⟨start, stop⟩
  | some (.closing name start) => done.finishEndTag source name ⟨start, stop⟩
  | none => .ok b

/-- The warning for a problem of the markup. -/
def warning (p : Markup.Problem) (pos : Nat) : Diagnostic :=
  { code := match p with
      | .leadingEquals => .E0001
      | .strayInName _ => .E0002
    severity := .warning
    message := p.message
    labels := [⟨.point pos, "here", true⟩] }

/-- What an event adds to the tree. -/
def observe (source : Source) (b : Builder) : Event → Except Fault Builder
  | .reset => .ok { b with text := none, comment := none, tag := none, attr := none }
  | .tagOpen _ => .ok b
  | .beginData pos => .ok { b with text := some ⟨"", .point pos⟩ }
  | .data c => .ok { b with text := b.text.map fun t => { t with chars := t.chars.push c } }
  | .finishData pos =>
    match b.text with
    | some t =>
      .ok (Builder.append { b with text := none } (.text { t with span := ⟨t.span.start, pos⟩ }))
    | none => .ok b
  | .beginComment pos => .ok { b with comment := some ⟨"", .point pos⟩ }
  | .commentData c =>
    .ok { b with comment := b.comment.map fun t => { t with value := t.value.push c } }
  | .finishComment pos =>
    match b.comment with
    | some t =>
      .ok (Builder.append { b with comment := none }
        (.comment { t with span := ⟨t.span.start, pos⟩ }))
    | none => .ok b
  | .beginStartTag pos => .ok { b with tag := some (.opening { name := "" } pos) }
  | .beginEndTag pos => .ok { b with tag := some (.closing "" pos) }
  | .tagName c => .ok { b with tag := b.tag.map (·.pushName c) }
  | .selfClosing =>
    .ok { b with tag := b.tag.map (·.onStartTag fun t => { t with selfClosing := true }) }
  | .finishTag pos => b.finishTag source pos
  | .beginAttribute pos => .ok { b with attr := some { start := pos, valueStart := pos } }
  | .attributeName c => .ok { b with attr := b.attr.map fun a => { a with name := a.name.push c } }
  | .beginAttributeValue quoted pos =>
    .ok { b with attr := b.attr.map fun a => { a with quoted, text := none, valueStart := pos } }
  | .attributeValue c pos => .ok { b with attr := b.attr.map (·.pushValue c pos) }
  | .finishAttributeValue pos => b.finishAttr pos
  | .problem p pos => .ok { b with warnings := b.warnings ++ [warning p pos] }

/-- What events add to the tree, one after the other. -/
def observeAll (source : Source) (b : Builder) (events : List Event) : Except Fault Builder :=
  events.foldlM (observe source) b

/-- Goes on with another state of the reader. -/
def goTo (b : Builder) (state : Markup.State) : Builder :=
  { b with machine := { b.machine with state } }

/-- Reads a run of text. -/
def content (source : Source) (b : Builder) (c : Content) : Except Fault Builder :=
  let (machine, read) := (b.machine.moveTo c.valueStart).read c.value
  let (machine, flushed) := machine.flush
  observeAll source { b with machine } (read ++ flushed)

/-- Keeps the source of a tag as text of the open comment, after the dashes
that the reader holds back. -/
def appendToComment (source : Source) (b : Builder) (span : Span) : Builder :=
  let held := match b.machine.state with
    | .commentStartDash | .commentEndDash => "-"
    | .commentEnd => "--"
    | _ => ""
  let text := held ++ source.slice span
  let comment := b.comment.map fun t => { t with value := t.value ++ text }
  Builder.goTo { b with comment } .comment

/-- Makes a mustache a modifier of the start tag that is being read. -/
def addModifier (b : Builder) (m : MustacheTag) : Except Fault Builder :=
  match b.tag with
  | some (.opening tag start) =>
    match m.call.callee with
    | .literal value _ =>
      let shown := "\x7b\x7b" ++ Mustache.literalText value ++ "\x7d\x7d"
      .error (Fault.ofStructure .E2008
        s!"In <{tag.name} ... {shown} ..., {shown} is not a valid modifier" m.span)
    | _ =>
      let tag := { tag with modifiers := tag.modifiers ++ [{ call := m.call, span := m.span }] }
      .ok { b with tag := some (.opening tag start) }
  | _ => .ok b

/-- Makes a mustache a part of the attribute value that is being read. -/
def addPart (b : Builder) (m : MustacheTag) : Builder :=
  { b with
    attr := b.attr.map fun a =>
      let a := a.finishText m.span.start
      { a with dynamic := true, parts := a.parts ++ [.mustache m] } }

/-- Whether an expression is spelled like the place for outer attributes. -/
def isSplat : Expr → Bool
  | .path p => p.written == "...attributes"
  | _ => false

/-- Places a mustache where the reader is. -/
def mustache (source : Source) (b : Builder) (m : MustacheTag) : Except Fault Builder :=
  if b.machine.state.isComment then .ok (b.appendToComment source m.span)
  else if isSplat m.call.callee then
    .error (Fault.ofStructure .E2012 "Illegal use of ...attributes" m.span)
  else
    let start := m.span.start
    match b.machine.state with
    | .tagOpen | .tagName | .endTagOpen | .endTagName =>
      .error (Fault.ofStructure .E2001 "Cannot use mustaches in an elements tagname" m.span)
    | .beforeAttributeName => b.addModifier m
    -- The attribute before the mustache has no value; it is complete here.
    | .attributeName | .afterAttributeName => do
      let b ← b.observeAll source [.beginAttributeValue false start, .finishAttributeValue start]
      let b ← b.addModifier m
      return b.goTo .beforeAttributeName
    | .afterAttributeValueQuoted => do
      let b ← b.addModifier m
      return b.goTo .beforeAttributeName
    | .beforeAttributeValue => do
      let b ← b.observe source (.beginAttributeValue false start)
      return (b.addPart m).goTo .attributeValueUnquoted
    | .attributeValueDoubleQuoted | .attributeValueSingleQuoted | .attributeValueUnquoted =>
      .ok (b.addPart m)
    | _ => .ok (b.append (.mustache m))

/-- Places a comment in braces where the reader is. -/
def mustacheComment (source : Source) (b : Builder) (c : Comment) : Except Fault Builder :=
  let state := b.machine.state
  if state.isComment then .ok (b.appendToComment source c.span)
  else if state.isData then .ok (b.append (.mustacheComment c))
  else
    match state with
    | .beforeAttributeName | .afterAttributeName =>
      let note : StartTag → StartTag := fun t => { t with comments := t.comments ++ [c] }
      .ok { b with tag := b.tag.map (·.onStartTag note) }
    | _ =>
      .error (Fault.ofStructure .E2002
        s!"Using a Handlebars comment when in the `{state.name}` state is not supported" c.span)

/-- Places a partial where the reader is. -/
def partialCall (source : Source) (b : Builder) (p : PartialTag) : Except Fault Builder :=
  if b.machine.state.isComment then .ok (b.appendToComment source p.span)
  else if b.machine.state.isData then .ok (b.append (.partialCall p))
  else
    .error (Fault.ofStructure .E2002
      "A partial may only be used inside an HTML element or another block." p.span)

/-- Refuses a program that ends inside a tag or comment. -/
def checkClosed (b : Builder) (stop : Nat) : Except Fault Unit :=
  if b.machine.state.isData then .ok ()
  else
    let message := match b.tag, b.comment with
      | some tag, _ => s!"Unclosed element `{tag.name}`"
      | none, some _ => "Unclosed comment"
      | none, none => s!"Unexpected end of template in the `{b.machine.state.name}` state"
    .error (Fault.ofStructure .E2006 message (.point stop))

/-- Takes the frame of a program off the stack. -/
def popBlock (b : Builder) (span : Span) : Except Fault (List Statement × Builder) :=
  match b.frames with
  | .block body :: rest => .ok (body, { b with frames := rest })
  | .element tag _ elementSpan :: _ =>
    .error (Fault.ofStructure .E2006 s!"Unclosed element `{tag.name}`" elementSpan)
  | [] => .error (Fault.ofStructure .E2006 "Unbalanced element stack" span)

/-- Ends a program: nothing may be left open in it. -/
def endProgram (b : Builder) (names : List String) (chained : Bool) (span : Span) :
    Except Fault (Block Statement × Builder) := do
  b.checkClosed span.stop
  let (body, b) ← b.popBlock span
  return ({ body, params := names, chained, span }, b)

/-- Refuses a block that does not stand between tags. -/
def checkBlockPlace (b : Builder) (span : Span) : Except Fault Unit :=
  if b.machine.state.isData then .ok ()
  else
    .error (Fault.ofStructure .E2002
      "A block may only be used inside an HTML element or another block." span)

mutual

/-- Adds a statement of a program to the tree. -/
def node (source : Source) (b : Builder) : Node → Except Fault Builder
  | .content c => b.content source c
  | .comment value _ span => b.mustacheComment source { value, span }
  | .mustache tag => b.mustache source tag
  | .partialCall tag => b.partialCall source tag
  | .block tag ⟨body, names, chained, span⟩ other =>
    if b.machine.state.isComment then .ok (b.appendToComment source tag.span)
    else do
      b.checkBlockPlace tag.span
      let b ← nodes source (b.push (.block [])) body
      let (program, b) ← b.endProgram names chained span
      match other with
      | none => return b.append (.block tag program none)
      | some ⟨otherBody, otherNames, otherChained, otherSpan⟩ =>
        let b ← nodes source (b.push (.block [])) otherBody
        let (inverse, b) ← b.endProgram otherNames otherChained otherSpan
        return b.append (.block tag program (some inverse))
  termination_by structural n => n

/-- Adds the statements of a program to the tree. -/
def nodes (source : Source) (b : Builder) : List Node → Except Fault Builder
  | [] => .ok b
  | n :: rest => do
    let b ← node source b n
    nodes source b rest
  termination_by structural ns => ns

end

/-- The statements of a program, read in a frame of their own. -/
def program (source : Source) (b : Builder) (p : Program) :
    Except Fault (Block Statement × Builder) := do
  let b ← nodes source (b.push (.block [])) p.body
  b.endProgram p.params p.chained p.span

end Builder

/-- The tree of a program, and the warnings of its markup. -/
def build (source : Source) (mode : Mode) (p : Program) :
    Except Fault (Template × List Diagnostic) := do
  let (block, b) ← Builder.program source { machine := { mode } } p
  return ({ body := block.body, span := p.span }, b.warnings)

end TemplateCompiler.Template
