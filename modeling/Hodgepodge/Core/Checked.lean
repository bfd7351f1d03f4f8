/-
Machine integers. A signed operation whose exact result does not fit its type, and a division by zero, have no defined
result: `none`. A conversion to a signed type keeps the residue.

- `signed_eq`, `intNat_eq`: an operation has its exact result if that fits, and no other.
- `quot_nat`: a division of natural numbers always has a result.
- `wrap_fits`: a conversion leaves a value that fits alone.
-/
import Mathlib.Algebra.Group.Int.Defs
import Mathlib.Tactic.Common

namespace Hodgepodge.Core.Checked

/-- `i` fits the signed type whose values go from `-half` to `half - 1` -/
def Fits (half i : ℤ) : Prop := -half ≤ i ∧ i < half

instance (half i : ℤ) : Decidable (Fits half i) := by unfold Fits; infer_instance

/-- the result of a signed operation -/
def signed (half i : ℤ) : Option ℤ := if Fits half i then some i else none

/-- a signed division, which truncates -/
def quot (half a b : ℤ) : Option ℤ := if b = 0 then none else signed half (a.tdiv b)

abbrev half32 : ℤ := 2147483648
abbrev half64 : ℤ := 9223372036854775808

abbrev int : ℤ → Option ℤ := signed half32
abbrev int64 : ℤ → Option ℤ := signed half64

/-- the result of an operation of `int`s that is not negative -/
def intNat (n : ℕ) : Option ℕ := if n < 2147483648 then some n else none

/-- the conversion to a signed type of 32 bits -/
def wrap (i : ℤ) : ℤ := (i + half32) % 4294967296 - half32

variable {half i j a b : ℤ}

theorem signed_eq : signed half i = some j ↔ i = j ∧ Fits half i := by
  unfold signed
  rw [Option.ite_none_right_eq_some, Option.some.injEq]
  exact and_comm

theorem signed_fits (h : Fits half i) : signed half i = some i := if_pos h

theorem intNat_eq {n m : ℕ} : intNat n = some m ↔ n < 2147483648 ∧ m = n := by
  unfold intNat
  rw [Option.ite_none_right_eq_some, Option.some.injEq]
  exact and_congr_right fun _ => eq_comm

theorem quot_eq : quot half a b = some j ↔ b ≠ 0 ∧ a.tdiv b = j ∧ Fits half (a.tdiv b) := by
  unfold quot
  rw [Option.ite_none_left_eq_some, signed_eq]

theorem quot_fits (hb : b ≠ 0) (h : Fits half (a.tdiv b)) : quot half a b = some (a.tdiv b) := by
  rw [quot, if_neg hb, signed_fits h]

/-- a quotient of natural numbers is no larger than what was divided -/
theorem quot_nat (ha : 0 ≤ a) (hb : 0 < b) (h : a < half) : quot half a b = some (a / b) := by
  have hle : a / b ≤ a := Int.ediv_le_self b ha
  have hpos : 0 ≤ a / b := Int.ediv_nonneg ha (Int.le_of_lt hb)
  have hq : a.tdiv b = a / b := Int.tdiv_eq_ediv_of_nonneg ha
  rw [quot_fits (Int.ne_of_gt hb) (by unfold Fits; omega), hq]

/-- dividing by a positive number does not overflow -/
theorem quot_pos (hb : 0 < b) (h : Fits half a) : quot half a b = some (a.tdiv b) := by
  refine quot_fits (Int.ne_of_gt hb) ?_
  have habs := Int.natAbs_tdiv_le_natAbs a b
  unfold Fits at h ⊢
  rcases Int.le_total 0 a with h0 | h0
  · have := Int.tdiv_nonneg h0 (Int.le_of_lt hb)
    omega
  · have := Int.tdiv_nonneg (Int.neg_nonneg_of_nonpos h0) (Int.le_of_lt hb)
    rw [Int.neg_tdiv] at this
    omega

theorem wrap_fits (h : Fits half32 i) : wrap i = i := by
  unfold Fits half32 at h
  unfold wrap half32
  omega

end Hodgepodge.Core.Checked
