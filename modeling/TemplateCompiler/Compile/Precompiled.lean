/-
Programs as they are embedded in modules.

A build tool embeds a program as one JSON object: the text of the program, its
fingerprint, the name of its module and the names it needs around it.
-/
import TemplateCompiler.Compile.Basic
import TemplateCompiler.Compile.Fingerprint

namespace TemplateCompiler

/-- A program as it is embedded in a module. -/
structure Precompiled where
  id : String
  /-- The text of the program. -/
  block : String
  moduleName : String
  /-- The provided names that a strict template used. -/
  scope : Option (List String)
  isStrictMode : Bool
deriving DecidableEq, Repr, Inhabited

namespace Precompiled

/-- A compiled template as it is embedded. -/
def ofCompiled (o : CompileOptions) (c : Compiled) : Precompiled :=
  let block := c.program.text
  { id := Fingerprint.ofText block
    block
    moduleName := o.moduleName
    scope := if o.strict then some c.usedLocals else none
    isStrictMode := o.strict }

/-- The JSON form. -/
def toJson (p : Precompiled) : Json :=
  .obj [("id", .str p.id), ("block", .str p.block), ("moduleName", .str p.moduleName),
    ("scope", (p.scope.map Json.strings).getD .null), ("isStrictMode", .bool p.isStrictMode)]

end Precompiled

end TemplateCompiler
