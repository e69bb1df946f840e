/-
How the attributes of an element are written.

Every attribute becomes one statement of its own, in the order of the source, and
the modifiers follow.  An attribute whose value is `false` is left off.  Unless
the attributes of the caller come among them, `type` attributes come after the
others — but then only the last of several is written.

* `Attr.Writes` — the statement that an attribute becomes;
* `ElementParams.ordered` — the attributes in the order in which they come;
* `ElementParams.overwritten` — the attributes that a later `type` replaces;
* `ElementParams.encode_writes` — all other attributes are written, in this order,
  and all are if there are not two `type`s.
-/
import Mathlib.Data.List.Forall2
import TemplateCompiler.Wire.Encode

namespace TemplateCompiler.Resolved

/-! ### One attribute -/

/-- Whether a value is known beforehand when it is the value of an attribute. -/
def Expr.isStatic : Expr → Bool
  | .literal (.string _) _ | .literal (.boolean _) _ => true
  | _ => false

/-- Whether an attribute is left off: its value is `false`. -/
def Attr.isOff : Attr → Bool
  | .attr _ (.literal (.boolean false) _) _ _ => true
  | _ => false

/-- The statement that an attribute becomes. -/
inductive Attr.Writes (onComponent : Bool) : Attr → Wire.Statement → Prop
  | text {name text : String} {trusting : Bool} {valueSpan span : Span} :
    Writes onComponent (.attr name (.literal (.string text) valueSpan) trusting span)
      (.staticAttr name text (attributeNamespace? name) onComponent)
  | yes {name : String} {trusting : Bool} {valueSpan span : Span} :
    Writes onComponent (.attr name (.literal (.boolean true) valueSpan) trusting span)
      (.staticAttr name "" (attributeNamespace? name) onComponent)
  | computed {name : String} {value : Expr} {trusting : Bool} {span : Span}
    (hvalue : value.isStatic = false) :
    Writes onComponent (.attr name value trusting span)
      (.dynamicAttr name value.encode (attributeNamespace? name) trusting onComponent)
  | splat {slot : Nat} {span : Span} :
    Writes onComponent (.splat slot span) (.attrSplat slot)

variable {onComponent : Bool}

theorem Attr.encode_eq_none {a : Attr} : a.encode onComponent = none ↔ a.isOff = true := by
  unfold Attr.encode Attr.isOff
  split
  · simp
  · split <;> simp_all

theorem Attr.writes_of_encode {a : Attr} {s : Wire.Statement}
    (h : a.encode onComponent = some s) : a.Writes onComponent s := by
  unfold Attr.encode at h
  split at h
  · cases h
    exact .splat
  · split at h <;> cases h
    · exact .yes
    · exact .text
    · next value hfalse htrue hstring =>
      refine .computed ?_
      unfold Expr.isStatic
      split
      · next text span => exact absurd rfl (hstring text span)
      · next b span =>
        cases b
        · exact absurd rfl (hfalse span)
        · exact absurd rfl (htrue span)
      · rfl

/-- Attributes that are not left off are written one by one. -/
theorem forall₂_encode (attrs : List Attr) :
    List.Forall₂ (Attr.Writes onComponent) (attrs.filter fun a => !a.isOff)
      (attrs.filterMap (Attr.encode onComponent)) := by
  induction attrs with
  | nil => exact .nil
  | cons a rest ih =>
    cases hencode : a.encode onComponent with
    | none =>
      have hoff : a.isOff = true := Attr.encode_eq_none.mp hencode
      simpa [hencode, hoff] using ih
    | some s =>
      have hon : a.isOff = false := by
        rw [← Bool.not_eq_true, ← @Attr.encode_eq_none onComponent, hencode]
        simp
      simpa [hencode, hon] using And.intro (Attr.writes_of_encode hencode) ih

/-! ### All attributes of an element -/

namespace ElementParams

/-- The attributes in the order in which they come: where those of the caller are
among them that of the source, and `type` after the others where they are not. -/
def ordered (p : ElementParams) : List Attr :=
  if p.hasSplat then p.attrs
  else (p.attrs.filter fun a => !a.isType) ++ p.attrs.filter Attr.isType

/-- The `type` attributes that a later `type` replaces. -/
def overwritten (p : ElementParams) : List Attr :=
  if p.hasSplat then []
  else ((p.attrs.filter Attr.isType).filter fun a => !a.isOff).dropLast

/-- No attribute is replaced if the attributes of the caller are among them, or if
there are not two `type`s. -/
theorem overwritten_eq_nil {p : ElementParams} : p.overwritten = [] ↔
    p.hasSplat = true ∨ ((p.attrs.filter Attr.isType).countP fun a => !a.isOff) ≤ 1 := by
  rw [overwritten, List.countP_eq_length_filter]
  split
  · next h => simp [h]
  · next h => simp [h, ← List.length_eq_zero_iff, Nat.sub_eq_zero_iff_le]

end ElementParams

/-- The last of some attributes is written as the last of their statements. -/
theorem forall₂_getLast {attrs : List Attr} {written : List Wire.Statement}
    (h : List.Forall₂ (Attr.Writes onComponent) attrs written) :
    List.Forall₂ (Attr.Writes onComponent) attrs.getLast?.toList written.getLast?.toList := by
  rw [← List.head?_reverse, ← List.head?_reverse]
  replace h := List.forall₂_reverse_iff.mpr h
  generalize attrs.reverse = attrs at h ⊢
  generalize written.reverse = written at h ⊢
  cases h with
  | nil => exact .nil
  | cons hlast _ => exact .cons hlast .nil

namespace ElementParams

/-- The attributes that come in order, less the overwritten ones, are written one
by one. -/
theorem encode_pieces (onComponent : Bool) (p : ElementParams) :
    ∃ (front last : List Attr) (written : List Wire.Statement),
      p.encode onComponent = written ++ p.modifiers.map Modifier.encode ∧
      (p.ordered.filter fun a => !a.isOff) = front ++ p.overwritten ++ last ∧
      List.Forall₂ (Attr.Writes onComponent) (front ++ last) written := by
  rw [encode, ordered, overwritten]
  by_cases hsplat : p.hasSplat = true
  · refine ⟨p.attrs.filter fun a => !a.isOff, [], _, rfl, ?_, ?_⟩
    · simp [hsplat]
    · simpa [hsplat] using forall₂_encode p.attrs
  · -- Of the `type`s only the last has a statement.
    set types := (p.attrs.filter Attr.isType).filter fun a => !a.isOff
    have hlast : types = types.dropLast ++ types.getLast?.toList := by
      cases hlast : types.getLast? with
      | none => simp [List.getLast?_eq_none_iff.mp hlast]
      | some a => exact (List.dropLast_append_getLast? a hlast).symm
    refine ⟨(p.attrs.filter fun a => !a.isType).filter fun a => !a.isOff, types.getLast?.toList, _,
      rfl, ?_, ?_⟩
    · rw [if_neg hsplat, if_neg hsplat, List.filter_append, List.append_assoc, ← hlast]
    · rw [if_neg hsplat, List.partition_eq_filter_filter]
      exact List.rel_append (forall₂_encode _) (forall₂_getLast (forall₂_encode _))

/-- The attributes that come in order, less the overwritten ones, are written one
by one, and then the modifiers.  Nothing is missing if the attributes of the caller
are among them or at most one `type` is to be written, and otherwise something is. -/
theorem encode_writes (onComponent : Bool) (p : ElementParams) :
    ∃ (front last : List Attr) (written : List Wire.Statement),
      p.encode onComponent = written ++ p.modifiers.map Modifier.encode ∧
      (p.ordered.filter fun a => !a.isOff) = front ++ p.overwritten ++ last ∧
      List.Forall₂ (Attr.Writes onComponent) (front ++ last) written ∧
      (List.Forall₂ (Attr.Writes onComponent) (p.ordered.filter fun a => !a.isOff) written ↔
        p.hasSplat = true ∨ ((p.attrs.filter Attr.isType).countP fun a => !a.isOff) ≤ 1) := by
  obtain ⟨front, last, written, hencode, hordered, hwritten⟩ := p.encode_pieces onComponent
  refine ⟨front, last, written, hencode, hordered, hwritten, ?_⟩
  rw [← overwritten_eq_nil, hordered]
  constructor
  · intro hall
    have hlength := hall.length_eq.trans hwritten.length_eq.symm
    simp only [List.length_append] at hlength
    exact List.length_eq_zero_iff.mp (by omega)
  · intro hnone
    rwa [hnone, List.append_nil]

/-- Two `type`s. -/
def twoTypes : ElementParams :=
  { attrs :=
      [.attr "type" (.literal (.string "a") .dummy) false .dummy,
        .attr "type" (.literal (.string "b") .dummy) false .dummy]
    modifiers := [] }

/-- Of two `type`s the first is not written, though its value is not `false`. -/
theorem encode_overwrites_type :
    twoTypes.encode false = [.staticAttr "type" "b" none false] ∧
      ¬ ∃ written, twoTypes.encode false = written ++ twoTypes.modifiers.map Modifier.encode ∧
        List.Forall₂ (Attr.Writes false) (twoTypes.ordered.filter fun a => !a.isOff) written := by
  have hencode : twoTypes.encode false = [.staticAttr "type" "b" none false] := rfl
  refine ⟨hencode, ?_⟩
  rintro ⟨written, hwritten, hall⟩
  have hlength := congrArg List.length (hencode.symm.trans hwritten)
  have hcount : (twoTypes.ordered.filter fun a => !a.isOff).length = 2 := by decide
  rw [List.length_append, ← hall.length_eq, hcount] at hlength
  exact absurd hlength (by decide)

end ElementParams

end TemplateCompiler.Resolved
