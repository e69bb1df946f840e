/-
The opcodes of programs.

Every statement and every computed value of a program is an array that starts
with one of these numbers.  The numbers are fixed; the gaps between them are
reserved.  `Opcode.ofResolution` is the opcode that reads a free name.
-/
import TemplateCompiler.Scope.Resolution

namespace TemplateCompiler

/-- What an array of a program does. -/
inductive Opcode where
  | append
  | trustingAppend
  | comment
  | modifier
  | block
  | component
  | openElement
  | openElementWithSplat
  | flushElement
  | closeElement
  | staticAttr
  | dynamicAttr
  | componentAttr
  | attrSplat
  | yield
  | partialCall
  | trustingDynamicAttr
  | trustingComponentAttr
  | staticComponentAttr
  | debugger
  | undefined
  | call
  | concat
  | getSymbol
  | getStrictFree
  | getFreeAsComponentOrHelperOrThis
  | getFreeAsComponentOrHelper
  | getFreeAsHelperOrThis
  | getFreeAsHelper
  | getFreeAsModifier
  | getFreeAsComponent
  | inElement
  | branch
  | each
  | withValue
  | letValues
  | withDynamicVars
  | invokeComponent
  | hasBlock
  | hasBlockParams
  | curry
  | not
  | ifInline
  | getDynamicVar
  | log
deriving DecidableEq, Repr, Inhabited

namespace Opcode

/-- The number of an opcode. -/
def code : Opcode → Nat
  | append => 1
  | trustingAppend => 2
  | comment => 3
  | modifier => 4
  | block => 6
  | component => 8
  | openElement => 10
  | openElementWithSplat => 11
  | flushElement => 12
  | closeElement => 13
  | staticAttr => 14
  | dynamicAttr => 15
  | componentAttr => 16
  | attrSplat => 17
  | yield => 18
  | partialCall => 19
  | trustingDynamicAttr => 22
  | trustingComponentAttr => 23
  | staticComponentAttr => 24
  | debugger => 26
  | undefined => 27
  | call => 28
  | concat => 29
  | getSymbol => 30
  | getStrictFree => 31
  | getFreeAsComponentOrHelperOrThis => 34
  | getFreeAsComponentOrHelper => 35
  | getFreeAsHelperOrThis => 36
  | getFreeAsHelper => 37
  | getFreeAsModifier => 38
  | getFreeAsComponent => 39
  | inElement => 40
  | branch => 41
  | each => 42
  | withValue => 43
  | letValues => 44
  | withDynamicVars => 45
  | invokeComponent => 46
  | hasBlock => 48
  | hasBlockParams => 49
  | curry => 50
  | not => 51
  | ifInline => 52
  | getDynamicVar => 53
  | log => 54

/-- The opcode that reads a free name.  Of several registries at once only
components with helpers are told apart, by the fallback. -/
def ofResolution : Resolution → Opcode
  | .strict => getStrictFree
  | .loose registries fallback =>
    if registries = { helper := true } then
      if fallback then getFreeAsHelperOrThis else getFreeAsHelper
    else if registries = { modifier := true } then getFreeAsModifier
    else if registries = { component := true } then getFreeAsComponent
    else if fallback || registries = {} then getFreeAsComponentOrHelperOrThis
    else getFreeAsComponentOrHelper

end Opcode

end TemplateCompiler
