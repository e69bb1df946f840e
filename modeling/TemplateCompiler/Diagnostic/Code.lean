/-
The codes of all problems that a compile can report.

A code is an `E` and four digits; the first digit names the phase: `0` for the
markup reader, whose problems never stop a compile, `1` for tags, `2` for the
structure of the template, `3` for the resolution of names and `4` for plugins.
-/
namespace TemplateCompiler

/-- A problem code. -/
inductive Code where
  /-- An attribute name starts with an equals sign. -/
  | E0001
  /-- A character does not belong in an attribute name. -/
  | E0002
  /-- A token of a tag was not expected. -/
  | E1001
  /-- The template ended inside a tag. -/
  | E1002
  /-- A path is malformed. -/
  | E1003
  /-- A block is closed by another name. -/
  | E1004
  /-- A form of tag is not supported. -/
  | E1005
  /-- A mustache stands in an element's name. -/
  | E2001
  /-- A mustache or block stands where nothing can hold it. -/
  | E2002
  /-- A void element has an end tag. -/
  | E2003
  /-- An end tag has no open element. -/
  | E2004
  /-- An end tag does not match the open element. -/
  | E2005
  /-- An element is left open. -/
  | E2006
  /-- Block parameters are malformed. -/
  | E2007
  /-- An element modifier is invalid. -/
  | E2008
  /-- An attribute value is invalid. -/
  | E2009
  /-- A named block is used where it may not be. -/
  | E2010
  /-- A keyword has the wrong arguments. -/
  | E2011
  /-- An element's attribute or parameter is invalid. -/
  | E2012
  /-- A partial is not supported. -/
  | E2013
  /-- A name of a strict template is not in scope. -/
  | E3001
  /-- The head of an invoked path is not in scope. -/
  | E3002
  /-- The head of a dotted tag name is not in scope. -/
  | E3003
  /-- A feature of loose templates is used in a strict one. -/
  | E3004
  /-- A plugin failed. -/
  | E4001
  /-- A plugin gave a replacement that does not fit. -/
  | E4002
deriving DecidableEq, Repr, Inhabited

namespace Code

/-- All codes in ascending order. -/
def all : List Code :=
  [E0001, E0002, E1001, E1002, E1003, E1004, E1005, E2001, E2002, E2003, E2004, E2005, E2006,
    E2007, E2008, E2009, E2010, E2011, E2012, E2013, E3001, E3002, E3003, E3004, E4001, E4002]

/-- The text of a code. -/
def text : Code → String
  | E0001 => "E0001"
  | E0002 => "E0002"
  | E1001 => "E1001"
  | E1002 => "E1002"
  | E1003 => "E1003"
  | E1004 => "E1004"
  | E1005 => "E1005"
  | E2001 => "E2001"
  | E2002 => "E2002"
  | E2003 => "E2003"
  | E2004 => "E2004"
  | E2005 => "E2005"
  | E2006 => "E2006"
  | E2007 => "E2007"
  | E2008 => "E2008"
  | E2009 => "E2009"
  | E2010 => "E2010"
  | E2011 => "E2011"
  | E2012 => "E2012"
  | E2013 => "E2013"
  | E3001 => "E3001"
  | E3002 => "E3002"
  | E3003 => "E3003"
  | E3004 => "E3004"
  | E4001 => "E4001"
  | E4002 => "E4002"

/-- The phase of the compile that reports a code. -/
inductive Phase where
  | markup
  | parse
  | structural
  | resolution
  | plugin
deriving DecidableEq, Repr

/-- The phase that reports a code. -/
def phase : Code → Phase
  | E0001 | E0002 => .markup
  | E1001 | E1002 | E1003 | E1004 | E1005 => .parse
  | E2001 | E2002 | E2003 | E2004 | E2005 | E2006 | E2007 | E2008 | E2009 | E2010 | E2011
  | E2012 | E2013 => .structural
  | E3001 | E3002 | E3003 | E3004 => .resolution
  | E4001 | E4002 => .plugin

/-- The code with the given text; the letter may be of either case. -/
def ofText? (text : String) : Option Code :=
  match text.toList with
  | letter :: digits =>
    if letter == 'E' || letter == 'e' then
      all.find? fun code => code.text.toList == 'E' :: digits
    else none
  | [] => none

end Code

end TemplateCompiler
