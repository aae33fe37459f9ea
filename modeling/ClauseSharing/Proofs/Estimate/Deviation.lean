import ClauseSharing.Estimate.Moments
import ClauseSharing.Proofs.Scalar.Exact
import Mathlib.Algebra.Order.BigOperators.Group.List
import Mathlib.Data.List.Induction
import Mathlib.Tactic.Positivity

/-!
The moments of a list of observations.

On exact fractions, the sum of squares that is kept is the sum of the squared deviations from the
mean (`Moments.Describes.observe`): a new observation moves the mean, and the squares grow by the
product of its deviations from the old and from the new mean. So the variance is zero exactly if all
observations are equal (`Moments.Describes.variance_eq_zero_iff`), and the moments are those of the
textbook whatever the order of the observations (`Moments.moments_are_exact`).
-/

namespace ClauseSharing

namespace Moments

open Scalar

/-! ## Lists of observations -/

/-- The moments of the observations, taken one after the other; none without observations. -/
def ofObservations? {K : Type} [Scalar K] : List K → Option (Moments K)
  | [] => none
  | x :: xs => some (xs.foldl observe (single x))

theorem ofObservations?_append {K : Type} [Scalar K] (xs : List K) (x : K) :
    ofObservations? (xs ++ [x]) =
      some ((ofObservations? xs).elim (single x) (·.observe x)) := by
  cases xs with
  | nil => rfl
  | cons y ys => simp [ofObservations?, List.foldl_append]

theorem ofObservations?_eq_none_iff {K : Type} [Scalar K] {xs : List K} :
    ofObservations? xs = none ↔ xs = [] := by
  cases xs <;> simp [ofObservations?]

/-! ## Deviations -/

/-- Deviations from `b` instead of the mean `a` add the squared distance of the two, once for each
observation. -/
theorem sum_sq_sub {a b : Rat} {xs : List Rat} (h : a * xs.length = xs.sum) :
    (xs.map fun x => (x - b) ^ 2).sum =
      (xs.map fun x => (x - a) ^ 2).sum + xs.length * (a - b) ^ 2 := by
  have hgeneral (xs : List Rat) : (xs.map fun x => (x - b) ^ 2).sum =
      (xs.map fun x => (x - a) ^ 2).sum + 2 * (a - b) * (xs.sum - a * xs.length) +
        xs.length * (a - b) ^ 2 := by
    induction xs with
    | nil => simp
    | cons x xs ih =>
      simp only [List.map_cons, List.sum_cons, List.length_cons, ih]
      push_cast
      ring
  rw [hgeneral, h]
  ring

/-- The moments are those of the observations, by their definition. -/
structure Describes (m : Moments Rat) (xs : List Rat) : Prop where
  count_eq : m.count = xs.length
  mean_eq : m.mean * xs.length = xs.sum
  squares_eq : m.squares = (xs.map fun x => (x - m.mean) ^ 2).sum

theorem Describes.single (x : Rat) : (single x).Describes [x] where
  count_eq := rfl
  mean_eq := by simp [Moments.single]
  squares_eq := by simp [Moments.single]

theorem Describes.observe {m : Moments Rat} {xs : List Rat} (h : m.Describes xs) (x : Rat) :
    (m.observe x).Describes (xs ++ [x]) := by
  have hpos : (xs.length : Rat) + 1 ≠ 0 := by positivity
  have hmean : (m.observe x).mean = m.mean + (x - m.mean) / (xs.length + 1) := by
    simp [Moments.observe, h.count_eq]
  constructor
  case count_eq => simp [Moments.observe, h.count_eq]
  case mean_eq =>
    rw [hmean, List.sum_append, ← h.mean_eq, List.sum_singleton, List.length_append]
    push_cast [List.length_singleton]
    field_simp
    ring
  case squares_eq =>
    have hsquares : (m.observe x).squares =
        m.squares + (x - m.mean) * (x - (m.observe x).mean) := rfl
    rw [hsquares, List.map_append, List.sum_append, sum_sq_sub h.mean_eq, ← h.squares_eq, hmean,
      List.map_singleton, List.sum_singleton]
    field_simp
    ring

theorem describes_of_ofObservations? {xs : List Rat} {m : Moments Rat}
    (h : ofObservations? xs = some m) : m.Describes xs := by
  induction xs using List.reverseRecOn generalizing m with
  | nil => cases h
  | append_singleton xs x ih =>
    rw [ofObservations?_append] at h
    cases h
    cases hbefore : ofObservations? xs with
    | none =>
      rw [ofObservations?_eq_none_iff.mp hbefore]
      exact .single x
    | some m => exact (ih hbefore).observe x

theorem Describes.squares_eq_zero_iff {m : Moments Rat} {xs : List Rat} (h : m.Describes xs) :
    m.squares = 0 ↔ ∀ x ∈ xs, x = m.mean := by
  rw [h.squares_eq]
  constructor
  · intro hzero x hx
    have hnonneg : ∀ d ∈ xs.map fun x => (x - m.mean) ^ 2, 0 ≤ d :=
      List.forall_mem_map.mpr fun x _ => sq_nonneg _
    have hdeviation :=
      List.all_zero_of_le_zero_le_of_sum_eq_zero hnonneg hzero (List.mem_map_of_mem hx)
    exact sub_eq_zero.mp (pow_eq_zero_iff two_ne_zero |>.mp hdeviation)
  · intro hmean
    refine List.sum_eq_zero (List.forall_mem_map.mpr fun x hx => ?_)
    rw [hmean x hx, sub_self, zero_pow two_ne_zero]

/-- The mean of equal observations is each of them. -/
theorem Describes.mean_eq_of_forall {m : Moments Rat} {xs : List Rat} (h : m.Describes xs) {x : Rat}
    (hx : x ∈ xs) (hsame : ∀ y ∈ xs, y = x) : m.mean = x := by
  have hlength : (xs.length : Rat) ≠ 0 :=
    Nat.cast_ne_zero.mpr (Nat.ne_of_gt (List.length_pos_of_mem hx))
  have hsum := h.mean_eq
  rw [List.eq_replicate_of_mem hsame, List.length_replicate, List.sum_replicate, nsmul_eq_mul,
    mul_comm] at hsum
  exact mul_left_cancel₀ hlength hsum

/-- The variance is zero exactly if no two observations differ. -/
theorem Describes.variance_eq_zero_iff {m : Moments Rat} {xs : List Rat} (h : m.Describes xs) :
    m.variance = 0 ↔ ∀ x ∈ xs, ∀ y ∈ xs, x = y := by
  unfold variance
  split
  · next hle =>
    rw [h.count_eq] at hle
    refine iff_of_true rfl fun x hx y hy => ?_
    obtain ⟨i, hi, rfl⟩ := List.getElem_of_mem hx
    obtain ⟨j, hj, rfl⟩ := List.getElem_of_mem hy
    have hij : i = j := by omega
    subst hij
    rfl
  · next hmany =>
    have hcount : (ofNat (m.count - 1) : Rat) ≠ 0 :=
      Nat.cast_ne_zero.mpr (Nat.sub_ne_zero_of_lt (Nat.lt_of_not_le hmany))
    rw [div_eq_zero_iff, or_iff_left hcount, h.squares_eq_zero_iff]
    constructor
    · intro hmean x hx y hy
      rw [hmean x hx, hmean y hy]
    · intro hsame x hx
      exact (h.mean_eq_of_forall hx fun y hy => hsame y hy x hx).symm

/-! ## All observations together -/

/-- Observations in another order have the same moments. -/
theorem Describes.perm {m : Moments Rat} {xs ys : List Rat} (h : m.Describes xs)
    (hperm : xs.Perm ys) : m.Describes ys where
  count_eq := h.count_eq.trans hperm.length_eq
  mean_eq := by
    rw [← hperm.length_eq, ← hperm.sum_eq]
    exact h.mean_eq
  squares_eq := h.squares_eq.trans (hperm.map _).sum_eq

theorem Describes.mean_eq_div {m : Moments Rat} {xs : List Rat} (h : m.Describes xs)
    (hne : xs ≠ []) : m.mean = xs.sum / xs.length := by
  have hlength : (xs.length : Rat) ≠ 0 :=
    Nat.cast_ne_zero.mpr (Nat.ne_of_gt (List.length_pos_iff.mpr hne))
  exact eq_div_of_mul_eq hlength h.mean_eq

/-- No two moments are those of the same observations. -/
theorem Describes.unique {m m' : Moments Rat} {xs : List Rat} (h : m.Describes xs)
    (h' : m'.Describes xs) (hne : xs ≠ []) : m = m' := by
  have hcount : m.count = m'.count := h.count_eq.trans h'.count_eq.symm
  have hmean : m.mean = m'.mean := (h.mean_eq_div hne).trans (h'.mean_eq_div hne).symm
  have hsquares : m.squares = m'.squares := by
    rw [h.squares_eq, h'.squares_eq, hmean]
  cases m
  cases m'
  simp only at hcount hmean hsquares
  rw [hcount, hmean, hsquares]

/-- A further observation pulls the mean less than all the way, so its two deviations have the same
sign. -/
theorem squares_le_observe (m : Moments Rat) (x : Rat) : m.squares ≤ (m.observe x).squares := by
  have hpos : (0 : Rat) < m.count + 1 := by positivity
  have hdeviation : x - (m.mean + (x - m.mean) / (m.count + 1)) =
      (x - m.mean) * (m.count / (m.count + 1)) := by
    field_simp
    ring
  have hsquares : (m.observe x).squares =
      m.squares + (x - m.mean) ^ 2 * (m.count / (m.count + 1)) := by
    simp only [Moments.observe, ofNat_eq, Nat.cast_add, Nat.cast_one, hdeviation]
    ring
  rw [hsquares]
  exact le_add_of_nonneg_right (by positivity)

theorem squares_le_foldl (m : Moments Rat) (xs : List Rat) :
    m.squares ≤ (xs.foldl Moments.observe m).squares := by
  induction xs generalizing m with
  | nil => exact le_refl _
  | cons x xs ih => exact (m.squares_le_observe x).trans (ih (m.observe x))

theorem Describes.variance_eq {m : Moments Rat} {xs : List Rat} (h : m.Describes xs)
    (hne : xs ≠ []) : m.variance =
      if xs.length = 1 then 0
      else (xs.map fun x => (x - m.mean) ^ 2).sum / ((xs.length : Rat) - 1) := by
  have hpos : 1 ≤ xs.length := List.length_pos_iff.mpr hne
  have hsingle : xs.length ≤ 1 ↔ xs.length = 1 := by omega
  have hpred : ((xs.length - 1 : Nat) : Rat) = (xs.length : Rat) - 1 := by
    rw [Nat.cast_sub hpos, Nat.cast_one]
  rw [variance, h.count_eq, h.squares_eq, zero_eq, ofNat_eq, hpred]
  simp only [hsingle]

/-- Take any observations, at least one. Their moments, from the first one on and then one after the
other, are exact: they have counted the observations, the mean is their sum over their number, and
the variance is the sum of their squared deviations from the mean over one less than their number,
or zero for a single one. The same observations in another order have the same moments, whatever
further ones follow never makes the sum of squares less, and the variance is zero exactly if all
observations are equal. -/
theorem moments_are_exact (x : Rat) (xs : List Rat) :
    let all := x :: xs
    let m := xs.foldl observe (single x)
    m.count = all.length ∧
    m.mean = all.sum / all.length ∧
    (m.variance =
      if all.length = 1 then 0
      else (all.map fun y => (y - m.mean) ^ 2).sum / ((all.length : Rat) - 1)) ∧
    (∀ y ys, (y :: ys).Perm all → ys.foldl observe (single y) = m) ∧
    (∀ later : List Rat, m.squares ≤ (later.foldl observe m).squares) ∧
    (m.variance = 0 ↔ ∀ y ∈ all, ∀ z ∈ all, y = z) := by
  intro all m
  have hne : all ≠ [] := List.cons_ne_nil x xs
  have hdescribes : m.Describes all := describes_of_ofObservations? rfl
  refine ⟨hdescribes.count_eq, hdescribes.mean_eq_div hne, hdescribes.variance_eq hne, ?_,
    m.squares_le_foldl, hdescribes.variance_eq_zero_iff⟩
  intro y ys hperm
  have hother : (ys.foldl observe (single y)).Describes (y :: ys) :=
    describes_of_ofObservations? rfl
  exact (hother.perm hperm).unique hdescribes hne

example : ([4, 4, 4, 5, 5, 7, 9].foldl observe (single (2 : Rat))).variance = 32 / 7 := by
  decide +kernel

end Moments

end ClauseSharing
