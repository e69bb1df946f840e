/-
How a free name is looked up when the program runs.

A free name in a strict template is provided by surrounding code.  In a loose
template it is looked up in registries of helpers, components and modifiers,
and may fall back to a property of `this`; which of them depends on where the
name stands.

* `Resolution` — the ways of looking up;
* `Site` — the places where a name can stand;
* `Site.resolution?` — the way that a place calls for.
-/
namespace TemplateCompiler

/-- The registries that a name is looked up in. -/
structure Registries where
  helper : Bool := false
  component : Bool := false
  modifier : Bool := false
deriving DecidableEq, Repr, Inhabited

namespace Registries

/-- The registries as a word: one bit for each. -/
def bits (r : Registries) : Nat :=
  r.helper.toNat + 2 * r.component.toNat + 4 * r.modifier.toNat

/-- The registries whose bits are set in a word. -/
def ofBits (word : Nat) : Registries :=
  { helper := word.testBit 0, component := word.testBit 1, modifier := word.testBit 2 }

/-- Nothing is lost in the word. -/
theorem ofBits_bits (r : Registries) : ofBits r.bits = r := by
  rcases r with ⟨_ | _, _ | _, _ | _⟩ <;> rfl

end Registries

/-- How a free name is looked up. -/
inductive Resolution where
  /-- The surrounding code provides the value. -/
  | strict
  /-- The name is looked up in registries, and then perhaps in `this`. -/
  | loose (registries : Registries) (fallback : Bool)
deriving DecidableEq, Repr, Inhabited

namespace Resolution

/-- The name is a property of `this`. -/
def ofThis : Resolution := .loose {} true

/-- Whether the surrounding code provides the value. -/
def isStrict : Resolution → Bool
  | strict => true
  | loose _ _ => false

end Resolution

/-- Where a name stands in a template. -/
inductive Site where
  /-- A tag among content, escaped or not, with arguments or without. -/
  | append (trusting invoke : Bool)
  /-- The callee of a block. -/
  | block
  /-- A tag in the value of an attribute. -/
  | attrValue (invoke : Bool)
  /-- The callee of a call in parentheses. -/
  | sub
  /-- The callee of a modifier. -/
  | modifier
  /-- The name of a tag. -/
  | component
  /-- An argument. -/
  | argument
deriving DecidableEq, Repr, Inhabited

/-- How a loose template looks up a free name at a site.  A name is simple
if no property is taken of it.  Where only the registries could help, a name
that is not simple cannot be used. -/
def Site.resolution? (simple : Bool) : Site → Option Resolution
  | .append trusting invoke =>
    some (if simple then .loose { helper := true, component := !trusting } !invoke else .ofThis)
  | .block => some (if simple then .loose { component := true } false else .ofThis)
  | .attrValue invoke =>
    if simple then some (.loose { helper := true } !invoke)
    else if invoke then none
    else some .ofThis
  | .sub => if simple then some (.loose { helper := true } false) else none
  | .modifier => if simple then some (.loose { modifier := true } false) else none
  | .component => if simple then some (.loose { component := true } false) else none
  | .argument => some .ofThis

end TemplateCompiler
