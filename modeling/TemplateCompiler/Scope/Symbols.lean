/-
The symbols of a program.

A program names its values by number.  Slots number the block parameters, the
arguments and the named blocks; upvars number the free names.  Both are handed
out while the template is walked, and a number once given stays what it is.

* `Symbols.openBlock`, `Symbols.closeBlock` — enter and leave the scope of a
  block;
* `Symbols.declare`, `Symbols.lookup?` — bind a name in the innermost scope, and
  find the innermost binding of a name;
* `Symbols.argument`, `Symbols.namedBlock` — slots that belong to the program as
  a whole;
* `Symbols.free`, `Symbols.useLocal` — upvars;
* `Symbols.visible` — the slots in reach of the innermost scope.

Design notes: the open scopes are a stack, innermost first, above a root that
is never left.  Slot `n` holds the name `names[n - 1]`, because slot 0 is
`this`; an upvar is the place of its name in `upvars`, so the list is its own
index.
-/
namespace TemplateCompiler

/-- The names that one block declares, each with its slot. -/
structure Frame where
  /-- The place of the frame among all that were ever opened. -/
  id : Nat
  locals : List (String × Nat) := []
deriving DecidableEq, Repr, Inhabited

/-- Slots, upvars and scopes of a program. -/
structure Symbols where
  /-- The scope of the template itself. -/
  root : Frame := { id := 0 }
  /-- The scopes of the open blocks, innermost first. -/
  blocks : List Frame := []
  /-- The number of scopes that were ever opened, the root among them. -/
  frameCount : Nat := 1
  /-- The name in each slot from 1 on. -/
  names : List String := []
  /-- The slots of arguments and named blocks. -/
  programSlots : List (String × Nat) := []
  /-- The free names, in the order of their first use. -/
  upvars : List String := []
  /-- The names that surrounding code provides to a strict template. -/
  templateLocals : List String := []
  /-- Those of them that are used, in the order of their first use. -/
  usedLocals : List String := []
  /-- Whether some statement may read any visible slot by name. -/
  hasEval : Bool := false
deriving DecidableEq, Repr, Inhabited

namespace Symbols

/-! ### Scopes -/

/-- The scopes in reach, innermost first. -/
def frames (s : Symbols) : List Frame := s.blocks ++ [s.root]

/-- The innermost scope. -/
def current (s : Symbols) : Frame := s.blocks.headD s.root

/-- Changes the innermost scope. -/
def onCurrent (s : Symbols) (f : Frame → Frame) : Symbols :=
  match s.blocks with
  | [] => { s with root := f s.root }
  | frame :: rest => { s with blocks := f frame :: rest }

/-- Puts a name into the next slot. -/
def pushName (s : Symbols) (name : String) : Nat × Symbols :=
  (s.names.length + 1, { s with names := s.names ++ [name] })

/-- Binds a name in the innermost scope.  A name that the scope has already
declared keeps its slot. -/
def declare (s : Symbols) (name : String) : Nat × Symbols :=
  match s.current.locals.lookup name with
  | some slot => (slot, s)
  | none =>
    let (slot, s) := s.pushName name
    (slot, s.onCurrent fun frame => { frame with locals := frame.locals ++ [(name, slot)] })

/-- Binds names one after the other. -/
def declareAll (s : Symbols) : List String → List Nat × Symbols
  | [] => ([], s)
  | name :: rest =>
    let (slot, s) := s.declare name
    let (slots, s) := s.declareAll rest
    (slot :: slots, s)

/-- Enters the scope of a block that declares the given names; the answer is
their slots. -/
def openBlock (s : Symbols) (params : List String) : List Nat × Symbols :=
  declareAll { s with
    blocks := { id := s.frameCount } :: s.blocks
    frameCount := s.frameCount + 1 } params

/-- Leaves the innermost block; the root is never left. -/
def closeBlock (s : Symbols) : Symbols := { s with blocks := s.blocks.tail }

/-- The slot of the innermost binding of a name. -/
def lookup? (s : Symbols) (name : String) : Option Nat :=
  s.frames.findSome? fun frame => frame.locals.lookup name

/-- Whether surrounding code provides a name. -/
def isTemplateLocal (s : Symbols) (name : String) : Bool := s.templateLocals.contains name

/-! ### Slots of the program -/

/-- The slot of a name that belongs to the whole program. -/
def programSlot (s : Symbols) (name : String) : Nat × Symbols :=
  match s.programSlots.lookup name with
  | some slot => (slot, s)
  | none =>
    let (slot, s) := s.pushName name
    (slot, { s with programSlots := s.programSlots ++ [(name, slot)] })

/-- The slot of an argument; its name has the at sign. -/
def argument (s : Symbols) (name : String) : Nat × Symbols := s.programSlot name

/-- The name by which a block is known: `inverse` is another word for `else`. -/
def blockName (name : String) : String := if name == "inverse" then "else" else name

/-- The slot of a named block. -/
def namedBlock (s : Symbols) (name : String) : Nat × Symbols :=
  s.programSlot ("&" ++ blockName name)

/-! ### Free names -/

/-- The upvar of a free name. -/
def free (s : Symbols) (name : String) : Nat × Symbols :=
  match s.upvars.idxOf? name with
  | some upvar => (upvar, s)
  | none => (s.upvars.length, { s with upvars := s.upvars ++ [name] })

/-- The upvar of a name that surrounding code provides, which is used from now
on. -/
def useLocal (s : Symbols) (name : String) : Nat × Symbols :=
  free { s with usedLocals :=
    if s.usedLocals.contains name then s.usedLocals else s.usedLocals ++ [name] } name

/-! ### Statements that read by name -/

/-- Records that some statement may read any visible slot by name. -/
def markEval (s : Symbols) : Symbols := { s with hasEval := true }

/-- Whether a slot can be named from the innermost scope. -/
def sees (s : Symbols) (slot : Nat) : Bool :=
  s.programSlots.any (fun entry => entry.2 == slot) ||
    s.frames.any fun frame => frame.locals.any fun entry => entry.2 == slot

/-- The slots that can be named from the innermost scope, ascending. -/
def visible (s : Symbols) : List Nat := (List.range' 1 s.names.length).filter s.sees

end Symbols

end TemplateCompiler
