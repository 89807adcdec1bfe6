import Befunge.Arithmetic
import Mathlib.Tactic.SplitIfs

/-! The arithmetic of words as arithmetic of integers: bytes, and the quotient and the remainder of
a division that rounds down. -/

namespace Befunge

theorem toNat_lowByte (v : Int64) : ((lowByte v).toNat : Int) = v.toInt % 256 := by
  have h : (lowByte v).toNat = v.toBitVec.toNat % 256 := rfl
  have hv : v.toInt = v.toBitVec.toInt := rfl
  rw [h, hv, BitVec.toInt]
  split <;> omega

theorem toInt_ofByte (b : UInt8) : (ofByte b).toInt = b.toNat := by
  have h : (ofByte b).toInt = (ofByte b).toBitVec.toInt := rfl
  have hn : (ofByte b).toBitVec.toNat = b.toNat := by simp [ofByte]
  have hb := b.toNat_lt
  rw [h, BitVec.toInt, hn]
  split <;> omega

/-- Rounding down is one below rounding to zero if the signs differ and something is left over. -/
theorem fdiv_eq_ite {a b : Int} (hb : b ≠ 0) :
    a.fdiv b = if a.tmod b ≠ 0 ∧ (a < 0 ↔ ¬ b < 0) then a.tdiv b - 1 else a.tdiv b := by
  simp only [Int.fdiv_eq_tdiv, Int.dvd_iff_tmod_eq_zero]
  rcases Int.lt_or_gt_of_ne hb with h | h
  · have hs := Int.sign_eq_neg_one_of_neg h
    simp only [hs]
    split_ifs <;> omega
  · have hs := Int.sign_eq_one_of_pos h
    simp only [hs]
    split_ifs <;> omega

theorem tmod_lt_zero_iff {a b : Int} (h : a.tmod b ≠ 0) : a.tmod b < 0 ↔ a < 0 := by
  constructor
  · intro hr
    have hn : ¬ 0 ≤ a := fun ha => Int.not_lt.mpr (Int.tmod_nonneg b ha) hr
    omega
  · intro ha
    have hn : 0 ≤ (-a).tmod b := Int.tmod_nonneg b (by omega)
    rw [Int.neg_tmod] at hn
    omega

theorem fmod_eq_ite (a b : Int) :
    a.fmod b = if a.tmod b ≠ 0 ∧ (a.tmod b < 0 ↔ ¬ b < 0) then a.tmod b + b else a.tmod b := by
  simp only [Int.fmod_eq_tmod, Int.dvd_iff_tmod_eq_zero]
  by_cases h0 : a.tmod b = 0
  · simp [h0]
  · simp only [ne_eq, h0, not_false_eq_true, true_and, if_false, tmod_lt_zero_iff h0]
    split_ifs <;> omega

theorem eq_zero_iff (v : Int64) : v = 0 ↔ v.toInt = 0 := Int64.toInt_inj.symm

theorem lt_zero_iff (v : Int64) : v < 0 ↔ v.toInt < 0 := Int64.lt_iff_toInt_lt

theorem div_eq_ofInt (lhs rhs : Int64) : lhs / rhs = Int64.ofInt (lhs.toInt.tdiv rhs.toInt) := by
  apply Int64.toInt_inj.mp
  rw [Int64.toInt_div, Int64.toInt_ofInt]

theorem mod_eq_ofInt (lhs rhs : Int64) : lhs % rhs = Int64.ofInt (lhs.toInt.tmod rhs.toInt) := by
  rw [← Int64.toInt_mod, Int64.ofInt_toInt]

/-- The quotient is the exact one, wrapped if it does not fit. -/
theorem floorDiv_eq_ofInt (lhs rhs : Int64) :
    floorDiv lhs rhs = Int64.ofInt (lhs.toInt.fdiv rhs.toInt) := by
  by_cases h0 : rhs = 0
  · subst h0
    rw [floorDiv_zero, Int64.toInt_zero, Int.fdiv_zero]
    rfl
  · have hb : rhs.toInt ≠ 0 := fun h => h0 ((eq_zero_iff rhs).mpr h)
    simp only [floorDiv, h0, if_false, ne_eq, eq_zero_iff, lt_zero_iff, Int64.toInt_mod,
      fdiv_eq_ite hb]
    split
    · rw [Int64.ofInt_sub, div_eq_ofInt]
      rfl
    · exact div_eq_ofInt lhs rhs

theorem floorMod_eq_ofInt {lhs rhs : Int64} (h0 : rhs ≠ 0) :
    floorMod lhs rhs = Int64.ofInt (lhs.toInt.fmod rhs.toInt) := by
  simp only [floorMod, h0, if_false, ne_eq, eq_zero_iff, lt_zero_iff, Int64.toInt_mod,
    fmod_eq_ite]
  split
  · rw [Int64.ofInt_add, Int64.ofInt_toInt, mod_eq_ofInt]
  · exact mod_eq_ofInt lhs rhs

end Befunge
