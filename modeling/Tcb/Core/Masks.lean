import Mathlib.Data.Nat.Bitwise
import Mathlib.Tactic.Ring

/-!
# Masks

The bits below a place and those from it on, as the remainder and the quotient
of the number.
-/

namespace Tcb.Masks

variable {width bits : ℕ}

theorem toNat_low (hbits : bits < width) :
    ((1 : BitVec width) <<< bits - 1).toNat = 2 ^ bits - 1 := by
  have hlt : 2 ^ bits < 2 ^ width := Nat.pow_lt_pow_right (by omega) hbits
  have hpos : 0 < 2 ^ bits := Nat.two_pow_pos bits
  have hone : (1 : BitVec width).toNat = 1 :=
    Nat.mod_eq_of_lt (Nat.one_lt_two_pow (by omega))
  have hshift : ((1 : BitVec width) <<< bits).toNat = 2 ^ bits := by
    rw [BitVec.toNat_shiftLeft, hone, Nat.one_shiftLeft]
    exact Nat.mod_eq_of_lt hlt
  rw [BitVec.toNat_sub, hshift, hone, show 2 ^ width - 1 + 2 ^ bits = 2 ^ width + (2 ^ bits - 1) by
    omega, Nat.add_mod_left]
  exact Nat.mod_eq_of_lt (by omega)

theorem toNat_and_low (value : BitVec width) (hbits : bits < width) :
    (value &&& ((1 : BitVec width) <<< bits - 1)).toNat = value.toNat % 2 ^ bits := by
  rw [BitVec.toNat_and, toNat_low hbits, Nat.and_two_pow_sub_one_eq_mod]

theorem getLsbD_high (hbits : bits < width) (bit : ℕ) :
    (~~~ ((1 : BitVec width) <<< bits - 1)).getLsbD bit =
      (decide (bit < width) && decide (bits ≤ bit)) := by
  rw [BitVec.getLsbD_not, BitVec.getLsbD, toNat_low hbits, Nat.testBit_two_pow_sub_one,
    ← decide_not]
  simp only [Nat.not_lt]

theorem and_high (value : BitVec width) (hbits : bits < width) :
    value &&& ~~~ ((1 : BitVec width) <<< bits - 1) = (value >>> bits) <<< bits := by
  apply BitVec.eq_of_getLsbD_eq
  intro bit hbit
  rw [BitVec.getLsbD_and, getLsbD_high hbits, BitVec.getLsbD_shiftLeft,
    BitVec.getLsbD_ushiftRight]
  by_cases hfrom : bits ≤ bit
  · simp [hbit, hfrom, Nat.not_lt.mpr hfrom]
  · simp [hbit, hfrom]

theorem toNat_and_high (value : BitVec width) (hbits : bits < width) :
    (value &&& ~~~ ((1 : BitVec width) <<< bits - 1)).toNat =
      value.toNat / 2 ^ bits * 2 ^ bits := by
  have hle : value.toNat / 2 ^ bits * 2 ^ bits ≤ value.toNat := Nat.div_mul_le_self _ _
  rw [and_high value hbits, BitVec.toNat_shiftLeft, BitVec.toNat_ushiftRight, Nat.shiftLeft_eq,
    Nat.shiftRight_eq_div_pow]
  exact Nat.mod_eq_of_lt (hle.trans_lt value.isLt)

end Tcb.Masks
