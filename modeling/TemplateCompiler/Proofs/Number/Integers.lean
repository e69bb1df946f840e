/-
Doubles that are integers.

A finite double is a significand scaled by a power of two.  The bits of its
magnitude say which one, so two doubles that stand for the same integer are the
same double.

* `Binary64.scaled` — the magnitude in units of the smallest positive double, which
  is a natural number for every finite double;
* `Binary64.magnitude_eq_of_scaled_eq` — it tells magnitudes apart;
* `Binary64.toInt?_injective` — doubles that stand for the same integer are equal.
-/
import Mathlib.Algebra.Group.Nat.Defs
import TemplateCompiler.Number.Binary

namespace TemplateCompiler.Binary64

/-- The magnitude of a finite double, in units of the smallest positive one. -/
def scaled (x : Binary64) : Nat := x.significand * 2 ^ (max x.exponentField 1 - 1)

theorem exponentUnit_eq : exponentUnit = 2 ^ 52 := rfl

theorem magnitude_eq (x : Binary64) :
    x.magnitude = x.exponentField * exponentUnit + x.fractionField :=
  (Nat.div_add_mod' x.magnitude exponentUnit).symm

theorem fractionField_lt (x : Binary64) : x.fractionField < exponentUnit :=
  Nat.mod_lt _ (by decide)

/-- The exponent bounds the magnitude from above. -/
theorem scaled_lt (x : Binary64) : x.scaled < 2 ^ (x.exponentField + 52) := by
  have hfraction := x.fractionField_lt
  rw [exponentUnit_eq] at hfraction
  rw [scaled, significand]
  split
  · next hzero => simpa [hzero] using hfraction
  · next hpos =>
    obtain ⟨k, hk⟩ := Nat.exists_eq_succ_of_ne_zero hpos
    have hsignificand : x.fractionField + exponentUnit < 2 ^ 53 := by
      rw [exponentUnit_eq]
      omega
    have hmax : max x.exponentField 1 - 1 = k := by omega
    calc (x.fractionField + exponentUnit) * 2 ^ (max x.exponentField 1 - 1)
        < 2 ^ 53 * 2 ^ (max x.exponentField 1 - 1) :=
          Nat.mul_lt_mul_of_pos_right hsignificand (Nat.two_pow_pos _)
      _ = 2 ^ (x.exponentField + 52) := by rw [← Nat.pow_add, hmax, hk]; congr 1; omega

/-- A positive exponent bounds the magnitude from below. -/
theorem le_scaled {x : Binary64} (h : x.exponentField ≠ 0) :
    2 ^ (x.exponentField + 51) ≤ x.scaled := by
  obtain ⟨k, hk⟩ := Nat.exists_eq_succ_of_ne_zero h
  have hmax : max x.exponentField 1 - 1 = k := by omega
  rw [scaled, significand, if_neg h, hmax, exponentUnit_eq]
  calc 2 ^ (x.exponentField + 51) = 2 ^ 52 * 2 ^ k := by rw [← Nat.pow_add, hk]; congr 1; omega
    _ ≤ (x.fractionField + 2 ^ 52) * 2 ^ k := Nat.mul_le_mul_right _ (Nat.le_add_left _ _)

theorem scaled_lt_scaled {x y : Binary64} (h : x.exponentField < y.exponentField) :
    x.scaled < y.scaled := by
  calc x.scaled < 2 ^ (x.exponentField + 52) := x.scaled_lt
    _ ≤ 2 ^ (y.exponentField + 51) := Nat.pow_le_pow_right (by decide) (by omega)
    _ ≤ y.scaled := le_scaled (by omega)

/-- Doubles of the same magnitude have the same magnitude bits. -/
theorem magnitude_eq_of_scaled_eq {x y : Binary64} (h : x.scaled = y.scaled) :
    x.magnitude = y.magnitude := by
  rcases Nat.lt_trichotomy x.exponentField y.exponentField with hlt | hexponent | hlt
  · exact absurd h (Nat.ne_of_lt (scaled_lt_scaled hlt))
  · have hsignificand : x.significand = y.significand := by
      rw [scaled, scaled, hexponent] at h
      exact Nat.eq_of_mul_eq_mul_right (Nat.two_pow_pos _) h
    have hfraction : x.fractionField = y.fractionField := by
      rw [significand, significand, hexponent] at hsignificand
      split at hsignificand
      · exact hsignificand
      · exact Nat.add_right_cancel hsignificand
    rw [magnitude_eq, magnitude_eq y, hexponent, hfraction]
  · exact absurd h.symm (Nat.ne_of_lt (scaled_lt_scaled hlt))

/-- A double that is an integer, in units of the smallest positive one. -/
theorem scaled_of_integralMagnitude? {x : Binary64} {m : Nat}
    (h : x.integralMagnitude? = some m) : x.scaled = m * 2 ^ 1074 := by
  have hscale : x.scale = (max x.exponentField 1 : Nat) - 1075 := by simp [scale]
  simp only [integralMagnitude?, Nat.one_shiftLeft] at h
  split at h
  · split at h
    · next hnonneg =>
      obtain rfl := Option.some.inj h
      have hexponent : max x.exponentField 1 - 1 = x.scale.toNat + 1074 := by omega
      rw [scaled, Nat.shiftLeft_eq, Nat.mul_assoc, ← Nat.pow_add, hexponent]
    · next hneg =>
      split at h
      · next hmod =>
        obtain rfl := Option.some.inj h
        have hdiv : x.significand / 2 ^ (-x.scale).toNat * 2 ^ (-x.scale).toNat = x.significand :=
          Nat.div_mul_cancel (Nat.dvd_of_mod_eq_zero hmod)
        have hexponent : 1074 = (-x.scale).toNat + (max x.exponentField 1 - 1) := by omega
        rw [scaled, hexponent, Nat.pow_add, ← Nat.mul_assoc, hdiv]
      · cases h
  · cases h

/-- The magnitude and the sign of a double that stands for an integer. -/
theorem of_toInt? {x : Binary64} {n : Int} (h : x.toInt? = some n) :
    x.integralMagnitude? = some n.natAbs ∧ (x.isNegative = true ↔ n < 0) := by
  rw [toInt?] at h
  split at h
  · cases h
  · next hm =>
    split at h
    · cases h
    · next hsign =>
      obtain rfl := Option.some.inj h
      exact ⟨hm, by simpa using hsign⟩
  · next m hm =>
    obtain rfl := Option.some.inj h
    cases hsign : x.isNegative with
    | false =>
      refine ⟨hm, ?_⟩
      simp only [Bool.false_eq_true, if_false, false_iff]
      omega
    | true =>
      refine ⟨by rw [hm, if_pos rfl, Int.natAbs_neg]; rfl, ?_⟩
      simp only [if_true, true_iff]
      omega

theorem bits_toNat (x : Binary64) :
    x.bits.toNat = x.magnitude + if x.isNegative then signBit else 0 := by
  have hlt : x.bits.toNat < 2 * signBit := x.bits.toNat_lt
  by_cases hneg : signBit ≤ x.bits.toNat
  · rw [isNegative, magnitude, decide_eq_true hneg, if_pos rfl, Nat.mod_eq_sub_mod hneg,
      Nat.mod_eq_of_lt (by omega)]
    omega
  · rw [isNegative, magnitude, decide_eq_false hneg, Nat.mod_eq_of_lt (by omega)]
    simp

/-- Doubles that stand for the same integer are equal. -/
theorem toInt?_injective {x y : Binary64} {n : Int} (hx : x.toInt? = some n)
    (hy : y.toInt? = some n) : x = y := by
  obtain ⟨hmagx, hsignx⟩ := of_toInt? hx
  obtain ⟨hmagy, hsigny⟩ := of_toInt? hy
  have hmagnitude : x.magnitude = y.magnitude := by
    apply magnitude_eq_of_scaled_eq
    rw [scaled_of_integralMagnitude? hmagx, scaled_of_integralMagnitude? hmagy]
  have hsign : x.isNegative = y.isNegative := Bool.eq_iff_iff.mpr (hsignx.trans hsigny.symm)
  have hbits : x.bits = y.bits := by
    apply UInt64.toNat_inj.mp
    rw [bits_toNat, bits_toNat, hmagnitude, hsign]
  exact congrArg Binary64.mk hbits

end TemplateCompiler.Binary64
