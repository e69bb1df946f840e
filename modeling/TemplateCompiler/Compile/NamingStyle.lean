/-
Names of components.

A tag such as `FooBar` can be registered under another name.  A `NamingStyle`
says which.
-/
namespace TemplateCompiler

/-- How the tag of a component becomes the name it is registered under. -/
inductive NamingStyle where
  /-- Lower-case words joined by dashes. -/
  | kebab
  /-- One name for all. -/
  | constant (name : String)
  /-- The tag after a fixed text. -/
  | after (text : String)
deriving DecidableEq, Repr, Inhabited

namespace NamingStyle

/-- Lower-case letters, with a dash before each upper-case letter. -/
def dashed : List Char → List Char
  | [] => []
  | c :: rest => if c.isUpper then '-' :: c.toLower :: dashed rest else c :: dashed rest

/-- Dashed words; no dash stands in front of the first letter. -/
def kebabCase : List Char → List Char
  | [] => []
  | c :: rest => c.toLower :: dashed rest

/-- The name for a tag. -/
def apply (tag : String) : NamingStyle → String
  | kebab => String.ofList (kebabCase tag.toList)
  | constant name => name
  | after text => text ++ tag

end NamingStyle

end TemplateCompiler
