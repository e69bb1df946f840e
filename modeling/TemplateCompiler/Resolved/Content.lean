/-
Content with its names resolved.

* `Resolved.appendTag` — a tag among content;
* `Resolved.blockForm` — a block with a keyword;
* `Resolved.element` — an element of the markup or the invocation of a
  component, by the head of its tag name;
* `Template.resolve` — a whole template.

A tag invokes a component when its head is in scope — an argument, `this`, a
block parameter, a name that surrounding code provides — or when it starts with
an upper-case letter.  A tag that starts with a colon is a block given to the
component around it.

Design notes: only what holds statements is recursive.  The other steps take
the steps for what they hold as arguments (`Branch`), so that the order of
steps can be read off each of them alone.
-/
import TemplateCompiler.Resolved.Expr
import TemplateCompiler.Text.Blank
import TemplateCompiler.Text.Bytes
import TemplateCompiler.Text.Letter

namespace TemplateCompiler.Resolved

open Template (Pair Hash Call MustacheTag BlockTag StartTag Statement)

/-! ### Tags among content -/

/-- The name of the block that `yield` yields to. -/
def yieldTarget (hash : Hash Template.Expr) : Walk String :=
  match hash.get? "to" with
  | none => pure "default"
  | some ⟨_, .literal (.string name) _, _⟩ => pure name
  | some pair =>
    throw (.ofStructure .E2011 "you can only yield to a literal string value" pair.span)

/-- Resolves a tag with a keyword among content. -/
def appendForm (o : Settings) (keyword : AppendKeyword) (tag : MustacheTag) : Walk Content := do
  let params := tag.call.params
  let hash := tag.call.hash
  let span := tag.span
  match keyword with
  | .yield =>
    checkNamed (braced "yield") ["to"] hash
    let name ← yieldTarget hash
    -- The slot of the block is taken before those of the arguments.
    let target ← onSymbols (·.namedBlock name)
    return .yield target (← arguments o params) span
  | .partialCall =>
    let label := braced "partial"
    if o.strict then
      throw (.ofResolution .E3004 s!"`{label}` is not allowed in strict mode templates" span)
    match params with
    | [target] =>
      checkNamed label [] hash
      let target ← expr o .argument target
      onSymbols fun s => ((), s.markEval)
      -- The slots that the target itself has taken are visible too.
      return .partialCall target (← getSymbols).visible span
    | _ => throw (wrongCount label 1 (some 1) params.length span)
  | .debugger =>
    let label := braced "debugger"
    if !params.isEmpty then throw (wrongCount label 0 (some 0) params.length span)
    checkNamed label [] hash
    onSymbols fun s => ((), s.markEval)
    return .debugger (← getSymbols).visible span
  | .component =>
    let (callee, args) ← dynamicCall o (braced "component") span tag.call
    return .invokeDynamic callee args [] span
  | .value keyword =>
    let value ← keywordCall o keyword (braced keyword.name) span tag.call
    return .append value tag.trusting span

/-- Resolves a tag among content. -/
def appendTag (o : Settings) (tag : MustacheTag) : Walk Content := do
  match (← keywordName? o tag.call.callee).bind AppendKeyword.ofName? with
  | some keyword => appendForm o keyword tag
  | none =>
    if tag.call.params.isEmpty && tag.call.hash.pairs.isEmpty then
      let value ← expr o (.append tag.trusting false) tag.call.callee
      return .append value tag.trusting tag.span
    else
      let value ← callOf o (.append tag.trusting true) tag.span tag.call
      return .append value tag.trusting tag.span

/-! ### Blocks -/

/-- A block that is still to be resolved: where it stands, and the step that
resolves it. -/
structure Branch where
  span : Span
  resolve : Walk (Block Content)

/-- Resolves the other branch of a block, if there is one. -/
def otherBlock : Option Branch → Walk (Option (Block Content))
  | none => pure none
  | some inverse => return some (← inverse.resolve)

/-- Resolves the two branches of a block as blocks with names. -/
def namedBranches (program : Branch) (inverse : Option Branch) :
    Walk (List (NamedBlock Content)) := do
  let block ← program.resolve
  match inverse with
  | none => return [⟨"default", block, program.span⟩]
  | some inverse =>
    let other ← inverse.resolve
    return [⟨"default", block, program.span⟩, ⟨"else", other, inverse.span⟩]

/-- Refuses another branch where a keyword takes none. -/
def checkNoInverse (label : String) : Option Branch → Walk Unit
  | none => pure ()
  | some inverse =>
    let word := braced "else"
    throw (.ofStructure .E2011 s!"`{label}` cannot receive an {word} block" inverse.span)

/-- Resolves the value of a named argument, if it is given. -/
def optionalNamed (o : Settings) (key : String) (hash : Hash Template.Expr) : Walk (Option Expr) :=
  match hash.get? key with
  | none => pure none
  | some pair => return some (← expr o .argument pair.value)

/-- Resolves a block with a keyword. -/
def blockForm (o : Settings) (keyword : BlockKeyword) (tag : BlockTag) (program : Branch)
    (inverse : Option Branch) : Walk Content := do
  let label := braced ("#" ++ keyword.name)
  let params := tag.call.params
  let hash := tag.call.hash
  let span := tag.span
  match keyword with
  | .branch negated =>
    match params with
    | [condition] =>
      checkNamed label [] hash
      let condition ← expr o .argument condition
      let block ← program.resolve
      let other ← otherBlock inverse
      return .branch (conditionOf negated condition) block other span
    | _ => throw (wrongCount label 1 (some 1) params.length span)
  | .each =>
    match params with
    | [value] =>
      checkNamed label ["key"] hash
      let value ← expr o .argument value
      let key ← optionalNamed o "key" hash
      let block ← program.resolve
      let other ← otherBlock inverse
      return .each value key block other span
    | _ => throw (wrongCount label 1 (some 1) params.length span)
  | .withValue =>
    match params with
    | [value] =>
      checkNamed label [] hash
      let value ← expr o .argument value
      let block ← program.resolve
      let other ← otherBlock inverse
      return .withValue value block other span
    | _ => throw (wrongCount label 1 (some 1) params.length span)
  | .letValues =>
    if params.isEmpty then throw (wrongCount label 1 none 0 span)
    checkNamed label [] hash
    checkNoInverse label inverse
    let positional ← arguments o params
    let block ← program.resolve
    return .letValues positional block span
  | .inElement =>
    if let some pair := hash.get? "guid" then
      throw (.ofStructure .E2011 s!"Cannot pass `guid` to `{label}`" pair.span)
    match params with
    | [destination] =>
      checkNamed label ["insertBefore"] hash
      checkNoInverse label inverse
      -- Cursors are numbered outside in.
      let guid ← nextCursor
      let destination ← expr o .argument destination
      let insertBefore ← optionalNamed o "insertBefore" hash
      let block ← program.resolve
      return .inElement guid destination insertBefore block span
    | _ => throw (wrongCount label 1 (some 1) params.length span)
  | .component =>
    let (callee, args) ← dynamicCall o label span tag.call
    return .invokeDynamic callee args (← namedBranches program inverse) span
  | .withDynamicVars =>
    if !params.isEmpty then throw (wrongCount label 0 (some 0) params.length span)
    if hash.pairs.isEmpty then
      throw (.ofStructure .E2011 s!"`{label}` requires at least one named argument" span)
    checkNoInverse label inverse
    let named ← namedArguments o hash.pairs
    let block ← program.resolve
    return .withDynamicVars named block span

/-- Resolves a block. -/
def blockTag (o : Settings) (tag : BlockTag) (program : Branch) (inverse : Option Branch) :
    Walk Content := do
  match (← keywordName? o tag.call.callee).bind BlockKeyword.ofName? with
  | some keyword => blockForm o keyword tag program inverse
  | none =>
    let callee ← expr o .block tag.call.callee
    let positional ← arguments o tag.call.params
    let named ← namedArguments o tag.call.hash.pairs
    let args := ⟨positional, named, argsSpan tag.call.params tag.call.hash tag.span⟩
    return .invokeBlock callee args (← namedBranches program inverse) tag.span

/-! ### Elements -/

/-- Whether a name is that of an argument. -/
def isArgumentName (name : String) : Bool := name.toList.head? == some '@'

/-- Whether a tag is that of a named block. -/
def isBlockName (name : String) : Bool := name.toList.head? == some ':'

/-- The span of the opening bracket and name of a start tag. -/
def tagSpan (tag : StartTag) (span : Span) : Span :=
  ⟨span.start, min (span.start + Text.byteLength tag.name.toList + 1) maxOffset⟩

/-- The head of a tag name and the properties taken of it. -/
def tagPath (name : String) : String × List String :=
  match name.toList.splitOn '.' with
  | [] => ("", [])
  | head :: tail => (String.ofList head, tail.map String.ofList)

/-- Whether the head of a tag name is in scope. -/
def tagInScope (o : Settings) (s : Symbols) (head : String) : Bool :=
  isArgumentName head || head == "this" || isBound o s head

/-- Whether a tag invokes a component. -/
def isComponent (o : Settings) (tag : StartTag) (span : Span) : Walk Bool := do
  let (head, tail) := tagPath tag.name
  if tagInScope o (← getSymbols) head then return true
  if !tail.isEmpty then
    throw (.ofResolution .E3003
      s!"You used {tag.name} as a tag name, but {head} is not in scope" (tagSpan tag span))
  let upper := head.toList.head?.any Text.isUpper
  if upper && o.strict then
    let lower := Text.toLower tag.name
    throw (.ofResolution .E3001
      s!"Attempted to invoke a component that was not in scope in a strict mode template, `<{tag.name}>`. If you wanted to create an element with that name, convert it to lowercase - `<{lower}>`"
      (tagSpan tag span))
  return upper

/-- Resolves the name of a tag that invokes a component. -/
def componentCallee (o : Settings) (tag : StartTag) (span : Span) : Walk Expr := do
  let (head, tail) := tagPath tag.name
  let span := tagSpan tag span
  let callee ←
    if isArgumentName head then do
      let slot ← onSymbols (·.argument head)
      pure ⟨head, .argument slot, span⟩
    else if head == "this" then
      pure ⟨head, .this, span⟩
    else if o.strict || ((← getSymbols).lookup? head).isSome then
      resolveName o .component tail.isEmpty tag.name head span
    else do
      -- A free name: it is registered under its customized spelling.
      let name ← componentName o head
      let upvar ← onSymbols (·.free name)
      pure ⟨name, .free upvar (.loose { component := true } false), span⟩
  return .path callee tail span

/-- Whether an attribute stands for those of the caller. -/
def isSplatName (name : String) : Bool := name == "...attributes"

/-- Resolves an attribute of an element. -/
def elementAttr (o : Settings) (attr : Template.Attr) : Walk Attr := do
  if isSplatName attr.name then
    return .splat (← onSymbols (·.namedBlock "attrs")) attr.span
  let trusting := match attr.value with
    | .mustache tag => tag.trusting
    | _ => false
  return .attr attr.name (← attrValue o attr.value) trusting attr.span

/-- Resolves a modifier of an element. -/
def modifierOf (o : Settings) (m : Template.Modifier) : Walk Modifier := do
  let callee ← expr o .modifier m.call.callee
  let positional ← arguments o m.call.params
  let named ← namedArguments o m.call.hash.pairs
  return ⟨callee, ⟨positional, named, argsSpan m.call.params m.call.hash m.span⟩, m.span⟩

/-- Resolves the attributes of the tag of a component in order, and tells the
arguments from the attributes. -/
def componentAttrs (o : Settings) :
    List Template.Attr → Walk (List Attr × List (Named Expr))
  | [] => pure ([], [])
  | attr :: rest => do
    if isArgumentName attr.name then
      let value ← attrValue o attr.value
      let (attrs, args) ← componentAttrs o rest
      return (attrs, ⟨attr.name, value, attr.span⟩ :: args)
    else
      let resolved ← elementAttr o attr
      let (attrs, args) ← componentAttrs o rest
      return (resolved :: attrs, args)

/-- Resolves a tag that invokes a component. -/
def component (o : Settings) (tag : StartTag) (span : Span)
    (blocks : Walk (List (NamedBlock Content))) : Walk Content := do
  let callee ← componentCallee o tag span
  let (attrs, args) ← componentAttrs o tag.attributes
  let modifiers ← tag.modifiers.mapM (modifierOf o)
  return .invokeComponent callee ⟨attrs, modifiers⟩ args (← blocks) span

/-- Resolves an element of the markup. -/
def plainElement (o : Settings) (tag : StartTag) (span : Span) (body : Walk (List Content)) :
    Walk Content := do
  if let some attr := tag.attributes.find? fun attr => isArgumentName attr.name then
    throw (.ofStructure .E2012
      s!"{attr.name} is not a valid attribute name. @arguments are only allowed on components, but the tag for this element (`{tag.name}`) is a regular, non-component HTML element."
      attr.span)
  if !tag.blockParams.isEmpty then
    throw (.ofStructure .E2007
      s!"Unexpected block params in <{tag.name}>: simple elements cannot have block params"
      (tagSpan tag span))
  let attrs ← tag.attributes.mapM (elementAttr o)
  let modifiers ← tag.modifiers.mapM (modifierOf o)
  return .element tag.name ⟨attrs, modifiers⟩ (← body) span

/-- Whether a statement is a block with a name. -/
def isNamedBlock : Statement → Bool
  | .element tag _ _ => isBlockName tag.name
  | _ => false

/-- Whether a statement may stand between named blocks. -/
def isBetweenBlocks : Statement → Bool
  | .text node => node.chars.toList.all Text.isBlank
  | .comment _ | .mustacheComment _ => true
  | _ => false

/-- The name that a named block is given under, unless its tag is not that of
one or the name is taken. -/
def namedBlockName (seen : List String) (tag : StartTag) (span : Span) : Walk String := do
  let raw := String.ofList tag.name.toList.tail
  if !raw.toList.head?.any Char.isLower then
    throw (.ofStructure .E2010
      s!"<:{raw}> is not a valid named block, and named blocks must begin with a lowercase letter"
      (tagSpan tag span))
  if !tag.attributes.isEmpty || !tag.modifiers.isEmpty then
    throw (.ofStructure .E2010
      s!"named block <:{raw}> cannot have attributes, arguments, or modifiers" (tagSpan tag span))
  let name := Symbols.blockName raw
  if seen.contains name then
    throw (.ofStructure .E2010
      s!"Component had two named blocks with the same name, `<:{raw}>`. Only one block with a given name may be passed"
      (tagSpan tag span))
  return name

/-! ### Statements -/

mutual

/-- Resolves a statement. -/
def statement (o : Settings) : Statement → Walk Content
  | .text node => pure (.text node.chars node.span)
  | .comment c => pure (.comment c.value c.span)
  | .mustacheComment c => pure (.hiddenComment c.value c.span)
  | .partialCall tag =>
    throw (.ofStructure .E2013 "Handlebars partials are not supported" tag.span)
  | .mustache tag => appendTag o tag
  | .block tag program inverse =>
    blockTag o tag ⟨program.span, block o program⟩ (match inverse with
      | none => none
      | some inverse => some ⟨inverse.span, block o inverse⟩)
  | .element tag children span => do
    if isBlockName tag.name then
      throw (.ofStructure .E2010
        s!"Unexpected named block <{tag.name}>: named blocks can only be passed directly to a component invocation"
        (tagSpan tag span))
    if ← isComponent o tag span then
      -- Named blocks, no block at all, or all children as the default block.
      component o tag span
        (if children.any isNamedBlock then
          if tag.blockParams.isEmpty then namedBlocks o tag.name [] children
          else throw (.ofStructure .E2010
            s!"Unexpected block params list on <{tag.name}> component invocation: when passing named blocks, the invocation tag cannot take block params"
            (tagSpan tag span))
        else if tag.selfClosing then pure []
        else do
          let block ← inBlock tag.blockParams fun slots =>
            return ⟨slots, ← statements o children, span⟩
          return [⟨"default", block, span⟩])
    else
      plainElement o tag span (statements o children)

/-- Resolves statements in order. -/
def statements (o : Settings) : List Statement → Walk (List Content)
  | [] => pure []
  | s :: rest => do
    let content ← statement o s
    let contents ← statements o rest
    return content :: contents

/-- Resolves a block in a scope of its own. -/
def block (o : Settings) : Template.Block Statement → Walk (Block Content)
  | ⟨body, params, _, span⟩ =>
    inBlock params fun slots => return ⟨slots, ← statements o body, span⟩

/-- Resolves the children of a component that is given named blocks.  `seen`
are the names of the blocks before these. -/
def namedBlocks (o : Settings) (component : String) (seen : List String) :
    List Statement → Walk (List (NamedBlock Content))
  | [] => pure []
  | .element tag children span :: rest => do
    if isBlockName tag.name then
      let name ← namedBlockName seen tag span
      let block ← inBlock tag.blockParams fun slots =>
        return ⟨slots, ← statements o children, span⟩
      let blocks ← namedBlocks o component (name :: seen) rest
      return ⟨name, block, span⟩ :: blocks
    else
      throw (otherContent component span)
  | s :: rest =>
    if isBetweenBlocks s then namedBlocks o component seen rest
    else throw (otherContent component s.span)
where
  /-- The fault of content beside named blocks. -/
  otherContent (component : String) (span : Span) : Fault :=
    .ofStructure .E2010
      s!"Unexpected content inside <{component}> component invocation: when using named blocks, the tag cannot contain other content"
      span

end

end TemplateCompiler.Resolved

namespace TemplateCompiler

/-- The progress at the start of a walk.  Only a strict template is given the
names that surrounding code provides. -/
def Resolved.start (o : Resolved.Settings) : Resolved.Progress :=
  { symbols := { templateLocals := if o.strict then o.locals else [] } }

/-- Resolves the names of a template; the progress is kept when it fails. -/
def Template.resolve (t : Template) (o : Resolved.Settings) :
    Except Fault Resolved.Body × Resolved.Progress :=
  match (Resolved.statements o t.body).run (Resolved.start o) with
  | .ok body p => (.ok ⟨body, t.span⟩, p)
  | .error fault p => (.error fault, p)

end TemplateCompiler
