import Mathlib.Data.Nat.Bitwise
import Mathlib.Data.Nat.Size

/-!
Masks and alignment of unsigned machine words, as arithmetic on numbers.
-/

namespace Mcsos.WordArithmetic

theorem testBit_highMask {low high i : Nat} (h : low ≤ high) :
    (2 ^ high - 2 ^ low).testBit i = (decide (low ≤ i) && decide (i < high)) := by
  have hfactor : 2 ^ high - 2 ^ low = (2 ^ (high - low) - 1) * 2 ^ low := by
    rw [Nat.sub_mul, ← pow_add, Nat.sub_add_cancel h, one_mul]
  rw [hfactor, Nat.testBit_mul_two_pow, Nat.testBit_two_pow_sub_one]
  by_cases hlow : low ≤ i
  · simp only [hlow, decide_true, Bool.true_and]
    congr 1
    apply propext
    omega
  · simp [hlow]

/-- Masking off the low `low` bits of a `high`-bit word rounds it down. -/
theorem and_highMask (low high : Nat) {value : Nat} (h : low ≤ high)
    (hvalue : value < 2 ^ high) :
    value &&& (2 ^ high - 2 ^ low) = value / 2 ^ low * 2 ^ low := by
  apply Nat.eq_of_testBit_eq
  intro i
  rw [Nat.testBit_and, testBit_highMask h, Nat.testBit_mul_two_pow, Nat.testBit_div_two_pow]
  by_cases hlow : low ≤ i
  · simp only [hlow, decide_true, Bool.true_and, Nat.sub_add_cancel hlow]
    by_cases hhigh : i < high
    · simp [hhigh]
    · have hzero : value.testBit i = false :=
        Nat.testBit_lt_two_pow (lt_of_lt_of_le hvalue
          (Nat.pow_le_pow_right (by omega) (by omega)))
      simp [hzero]
  · simp [hlow]

theorem or_and_distrib (a b c : UInt64) : (a ||| b) &&& c = (a &&& c) ||| (b &&& c) := by
  refine UInt64.toBitVec_inj.mp (BitVec.eq_of_getLsbD_eq fun i _ => ?_)
  simp [Bool.and_or_distrib_right]

end Mcsos.WordArithmetic
