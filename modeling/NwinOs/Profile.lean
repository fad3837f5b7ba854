import Mathlib.Algebra.Group.Nat.Defs

/-!
# Integer arithmetic under the two build profiles

The development profile checks every addition, subtraction, multiplication and shift and panics on
overflow; the release profile of the manifest sets no overflow checks, so there the result wraps.
-/

namespace NwinOs

/-- The two profiles of the build manifest. -/
inductive Profile
  | dev
  | release
  deriving DecidableEq, Repr

section

variable (p : Profile)

/-- What an operation with the exact result `n` gives on `w`-bit unsigned integers; `none` is the
overflow panic of the development profile. -/
def Profile.checked (w n : ℕ) : Option ℕ :=
  if n < 2 ^ w then some n
  else match p with
    | .dev => none
    | .release => some (n % 2 ^ w)

/-- `a + b` on `w`-bit unsigned integers. -/
def Profile.add (w a b : ℕ) : Option ℕ := p.checked w (a + b)

/-- `a - b` on `w`-bit unsigned integers. -/
def Profile.sub (w a b : ℕ) : Option ℕ :=
  if b ≤ a then some (a - b)
  else match p with
    | .dev => none
    | .release => some ((a + 2 ^ w - b) % 2 ^ w)

/-- `a * b` on `w`-bit unsigned integers. -/
def Profile.mul (w a b : ℕ) : Option ℕ := p.checked w (a * b)

/-- `a << n` on `w`-bit unsigned integers.  Only the shift amount is checked, bits that leave the
word are dropped; the release profile masks the amount. -/
def Profile.shl (w a n : ℕ) : Option ℕ :=
  if n < w then some (a * 2 ^ n % 2 ^ w)
  else match p with
    | .dev => none
    | .release => some (a * 2 ^ (n % w) % 2 ^ w)

end

namespace Profile

variable {p : Profile} {w a b c n : ℕ}

theorem add_eq_some (h : a + b < 2 ^ w) : p.add w a b = some (a + b) := if_pos h

theorem sub_eq_some (h : b ≤ a) : p.sub w a b = some (a - b) := if_pos h

/-- A difference that underflows panics, or wraps around to a large number. -/
theorem sub_of_lt (h : a < b) (hb : b ≤ 2 ^ w) :
    p.sub w a b = none ∨ ∃ c, p.sub w a b = some c ∧ 2 ^ w - b ≤ c := by
  unfold sub
  rw [if_neg (Nat.not_le_of_lt h)]
  cases p with
  | dev => exact .inl rfl
  | release =>
    refine .inr ⟨_, rfl, ?_⟩
    rw [Nat.mod_eq_of_lt (by omega)]
    omega

theorem mul_eq_some (h : a * b < 2 ^ w) : p.mul w a b = some (a * b) := if_pos h

theorem shl_eq_some (h : n < w) : p.shl w a n = some (a * 2 ^ n % 2 ^ w) := if_pos h

/-- In both profiles a result that is computed is the exact one modulo the word. -/
theorem eq_of_checked (h : p.checked w n = some c) : c = n % 2 ^ w := by
  unfold checked at h
  by_cases hlt : n < 2 ^ w
  · rw [if_pos hlt] at h
    rw [Nat.mod_eq_of_lt hlt]
    exact (Option.some.inj h).symm
  · rw [if_neg hlt] at h
    cases p with
    | dev => cases h
    | release => exact (Option.some.inj h).symm

theorem lt_of_checked (h : p.checked w n = some c) : c < 2 ^ w :=
  eq_of_checked h ▸ Nat.mod_lt n (Nat.two_pow_pos w)

theorem checked_release : release.checked w n = some (n % 2 ^ w) := by
  unfold checked
  by_cases hlt : n < 2 ^ w
  · rw [if_pos hlt, Nat.mod_eq_of_lt hlt]
  · rw [if_neg hlt]

/-- In the development profile it is the exact one. -/
theorem eq_of_checked_dev (h : dev.checked w n = some c) : c = n ∧ n < 2 ^ w := by
  unfold checked at h
  by_cases hlt : n < 2 ^ w
  · rw [if_pos hlt] at h
    exact ⟨(Option.some.inj h).symm, hlt⟩
  · rw [if_neg hlt] at h
    cases h

/-- In both profiles a sum that is computed is the sum modulo the word. -/
theorem eq_of_add (h : p.add w a b = some c) : c = (a + b) % 2 ^ w := eq_of_checked h

theorem eq_of_mul (h : p.mul w a b = some c) : c = (a * b) % 2 ^ w := eq_of_checked h

theorem eq_add_of_dev (h : dev.add w a b = some c) : c = a + b := (eq_of_checked_dev h).1

theorem add_lt_of_dev (h : dev.add w a b = some c) : a + b < 2 ^ w := (eq_of_checked_dev h).2

theorem eq_mul_of_dev (h : dev.mul w a b = some c) : c = a * b ∧ a * b < 2 ^ w :=
  eq_of_checked_dev h

end Profile

end NwinOs
