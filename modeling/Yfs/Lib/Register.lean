import Mathlib.Algebra.Order.Ring.Int

/-!
# Register — 32-bit arithmetic whose result is in range

A C `int` is an `Int32`, and an operation on it is exact as long as the exact result is a value that
an `int` has.  `FitsInt` says so; the lemmas turn register arithmetic into arithmetic of integers.
-/

namespace Yfs
namespace Lib

/-- An `int` has this value. -/
def FitsInt (x : ℤ) : Prop :=
  -2147483648 ≤ x ∧ x < 2147483648

instance (x : ℤ) : Decidable (FitsInt x) :=
  inferInstanceAs (Decidable (_ ∧ _))

theorem FitsInt.bmod {x : ℤ} (h : FitsInt x) : x.bmod (2 ^ 32) = x := by
  rcases h with ⟨hlo, hhi⟩
  exact Int.bmod_eq_of_le_mul_two (by omega) (by omega)

theorem FitsInt.toInt_add {a b : Int32} (h : FitsInt (a.toInt + b.toInt)) :
    (a + b).toInt = a.toInt + b.toInt := by
  rw [Int32.toInt_add, h.bmod]

theorem FitsInt.toInt_mul {a b : Int32} (h : FitsInt (a.toInt * b.toInt)) :
    (a * b).toInt = a.toInt * b.toInt := by
  rw [Int32.toInt_mul, h.bmod]

/-- Only the least `int` divided by -1 is not an `int`. -/
theorem FitsInt.toInt_div {a b : Int32} (h : FitsInt (a.toInt.tdiv b.toInt)) :
    (a / b).toInt = a.toInt.tdiv b.toInt := by
  rw [Int32.toInt_div, h.bmod]

theorem FitsInt.toInt_ofInt {x : ℤ} (h : FitsInt x) : (Int32.ofInt x).toInt = x :=
  Int32.toInt_ofInt_of_le h.1 h.2

theorem shiftLeft_one (a : Int32) : a <<< 1 = a * 2 := by
  apply Int32.toBitVec_inj.1
  rw [Int32.toBitVec_shiftLeft, Int32.toBitVec_mul]
  have hone : (1 : Int32).toBitVec.smod 32 = 1#32 := by decide
  have htwo : (2 : Int32).toBitVec = BitVec.twoPow 32 1 := by decide
  rw [hone, htwo, ← BitVec.shiftLeft_eq_mul_twoPow]
  rfl

end Lib
end Yfs
