import Mathlib.Data.Nat.Bitwise
import Mathlib.Tactic.IntervalCases

/-!
# Setting, clearing and testing one bit of a byte

The three idioms of a bitmap over bytes, `b |= 1 << i`, `b &= !(1 << i)` and `b & (1 << i) != 0`,
read through `BitVec.getLsbD`.
-/

namespace NwinOs.Bits

open BitVec

/-- `b |= 1 << i`. -/
def setBit (b : BitVec 8) (i : ℕ) : BitVec 8 := b ||| (1#8 <<< i)

/-- `b &= !(1 << i)`. -/
def clearBit (b : BitVec 8) (i : ℕ) : BitVec 8 := b &&& ~~~(1#8 <<< i)

/-- `(b & (1 << i)) != 0`. -/
def testBit (b : BitVec 8) (i : ℕ) : Bool := (b &&& (1#8 <<< i)) != 0#8

theorem getLsbD_one_shiftLeft {i j : ℕ} (hj : j < 8) : (1#8 <<< i).getLsbD j = decide (i = j) := by
  rw [getLsbD_shiftLeft]
  by_cases h : i = j
  · subst h
    simp [hj]
  · by_cases hlt : j < i
    · simp [hlt, h]
    · have : j - i ≠ 0 := by omega
      simp [hj, h, this, getLsbD_one]

variable {b : BitVec 8}

theorem testBit_eq_getLsbD {i : ℕ} (hi : i < 8) : testBit b i = b.getLsbD i := by
  unfold testBit
  by_cases hb : b.getLsbD i = true
  · rw [hb, bne_iff_ne]
    intro h0
    have h1 : (b &&& (1#8 <<< i)).getLsbD i = false := by rw [h0]; simp
    rw [getLsbD_and, hb, getLsbD_one_shiftLeft hi] at h1
    simp at h1
  · rw [Bool.not_eq_true] at hb
    rw [hb, bne_eq_false_iff_eq]
    apply eq_of_getLsbD_eq
    intro j hj
    rw [getLsbD_and, getLsbD_one_shiftLeft hj, getLsbD_zero]
    by_cases h : i = j
    · subst h; simp [hb]
    · simp [h]

theorem testBit_setBit {i j : ℕ} (hj : j < 8) :
    testBit (setBit b i) j = (testBit b j || decide (i = j)) := by
  rw [testBit_eq_getLsbD hj, testBit_eq_getLsbD hj, setBit, getLsbD_or, getLsbD_one_shiftLeft hj]

theorem testBit_clearBit {i j : ℕ} (hj : j < 8) :
    testBit (clearBit b i) j = (testBit b j && !decide (i = j)) := by
  rw [testBit_eq_getLsbD hj, testBit_eq_getLsbD hj, clearBit, getLsbD_and,
    getLsbD_not, getLsbD_one_shiftLeft hj]
  simp [hj]

theorem testBit_allOnes {i : ℕ} (hi : i < 8) : testBit 0xFF#8 i = true := by
  interval_cases i <;> rfl

end NwinOs.Bits
