import ClauseSharing.Scalar.Rational
import ClauseSharing.Settings
import Mathlib.Data.Rat.Cast.Order
import Mathlib.Tactic.FieldSimp
import Mathlib.Tactic.Ring

/-!
Exact fractions as scalars.

The operations of the scalar class at fractions are the ordinary ones. The decay of a weight, which
is computed by repeated squaring, is the plain power of the share that remains.
-/

namespace ClauseSharing

namespace Scalar

/-! ## The operations -/

@[simp] theorem zero_eq : (zero : Rat) = 0 := rfl

@[simp] theorem one_eq : (one : Rat) = 1 := rfl

@[simp] theorem ofInt_eq (n : Int) : (ofInt n : Rat) = n := rfl

@[simp] theorem ofNat_eq (n : Nat) : (ofNat n : Rat) = n := rfl

@[simp] theorem eq_eq (x y : Rat) : eq x y = decide (x = y) := rfl

@[simp] theorem lt_eq (x y : Rat) : lt x y = decide (x < y) := rfl

@[simp] theorem le_eq (x y : Rat) : le x y = decide (x ≤ y) := rfl

@[simp] theorem larger_eq (x y : Rat) : larger x y = max x y := by
  simp [larger, max_def_lt]

@[simp] theorem smaller_eq (x y : Rat) : smaller x y = min x y := by
  simp [smaller, min_comm x, min_def_lt]

theorem sum_eq (xs : List Rat) : sum xs = xs.sum := List.sum_eq_foldl.symm

theorem clampUnit_eq (x : Rat) : clampUnit x = min (max x 0) 1 := by
  simp [clampUnit]

/-- A share of one needs no clamping. -/
theorem clampUnit_of_mem {x : Rat} (hnonneg : 0 ≤ x) (hle : x ≤ 1) : clampUnit x = x := by
  rw [clampUnit_eq, max_eq_left hnonneg, min_eq_left hle]

/-! ## Shares -/

/-- Comparing a share of a count with another count gives what exact fractions give. -/
def ExactShares (K : Type) [Scalar K] : Prop :=
  ∀ share count spent : Nat,
    le (percent share * ofNat count : K) (ofNat spent) = true ↔
      (share : Rat) / 100 * count ≤ spent

theorem exactShares_rat : ExactShares Rat := by
  intro share count spent
  rw [percent, ofNat_eq, ofNat_eq, ofNat_eq, ofNat_eq, le_eq, decide_eq_true_eq]
  norm_num

/-! ## Decay -/

/-- Repeated squaring computes the power. -/
theorem mulPow_eq (result base : Rat) (n : Nat) : mulPow result base n = result * base ^ n := by
  induction n using Nat.strongRecOn generalizing result base with
  | ind n ih =>
    have hsplit : base ^ n = base ^ (n % 2) * (base * base) ^ (n / 2) := by
      rw [← pow_two, ← pow_mul, ← pow_add, Nat.mod_add_div]
    have hfirst : (if n % 2 = 1 then result * base else result) = result * base ^ (n % 2) := by
      rcases Nat.mod_two_eq_zero_or_one n with h | h <;> simp [h]
    rw [mulPow, hsplit, hfirst]
    split
    · next h => simp [h]
    · next h => rw [ih (n / 2) (by omega), mul_assoc]

/-- What remains of a weight after `n` steps is the `n`-th power of what remains after one. -/
theorem retained_eq (alpha : Rat) (n : Nat) : retained alpha n = (1 - alpha) ^ n := by
  unfold retained
  split
  · simp only [smallPow, mulPow_eq, one_eq, one_mul, Int.natAbs_natCast]
    exact if_neg (by omega)
  · rfl

end Scalar

/-- The options of a worker that was given none are in range. -/
theorem Settings.validate_standard : (standard : Settings Rat).validate = .ok () := by
  decide +kernel

end ClauseSharing
