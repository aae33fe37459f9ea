import ClauseSharing.Proofs.Estimate.Repetition
import Mathlib.Algebra.BigOperators.Fin
import Mathlib.Algebra.BigOperators.Field
import Mathlib.Algebra.Order.BigOperators.Ring.Finset
import Mathlib.Algebra.Ring.GeomSum
import Mathlib.Data.Fin.Rev

/-!
A decaying average is a weighted mean of its observations.

An average is fed single observations and runs of equal ones (`Feed`). On exact fractions, whatever
it is fed leaves it where the single observations do (`MovingAverage.foldl_feed`). The exponential
part weighs an observation by the number of those that came after it, and the cumulative part is
what is left for the start times the plain mean. Together the weights are not negative and sum to
one (`MovingAverage.weight_nonneg`, `MovingAverage.sum_weight`), so the average is within any bounds
of its observations (`MovingAverage.value_is_weightedMean`).
-/

namespace ClauseSharing

open Finset

/-! ## Feeding an average -/

/-- A call that gives observations to an average. -/
inductive Feed (K : Type) where
  | one (x : K)
  /-- `n` equal observations, or none if `n` is not positive. -/
  | many (x : K) (n : Int)

namespace Feed

/-- The observations of the call, one after the other. -/
def observations {K : Type} : Feed K → List K
  | one x => [x]
  | many x n => List.replicate n.toNat x

/-- The call over other numbers. -/
def map {K L : Type} (f : K → L) : Feed K → Feed L
  | one x => one (f x)
  | many x n => many (f x) n

end Feed

namespace MovingAverage

def feed {K : Type} [Scalar K] (m : MovingAverage K) : Feed K → MovingAverage K
  | .one x => m.observe x
  | .many x n => m.observeMany x n

theorem elapsed_ofObservations (rate : Rat) (xs : List Rat) :
    (ofObservations rate xs).elapsed = xs.length := by
  rw [ofObservations, elapsed_foldl]
  exact zero_add _

/-- A call appends its observations. -/
theorem feed_ofObservations (rate : Rat) (xs : List Rat) (call : Feed Rat) :
    (ofObservations rate xs).feed call = ofObservations rate (xs ++ call.observations) := by
  cases call with
  | one x =>
    rw [ofObservations, ofObservations, Feed.observations, List.foldl_append]
    rfl
  | many x n =>
    have hrate : (ofObservations rate xs).rate = rate := rate_foldl xs (fresh rate)
    rw [feed, observeMany_eq_advance, decay, hrate]
    exact advance_ofObservations_toNat rate x xs n

/-- However the observations are cut into calls, the average is that of all of them. -/
theorem foldl_feed (rate : Rat) (calls : List (Feed Rat)) (xs : List Rat) :
    calls.foldl feed (ofObservations rate xs) =
      ofObservations rate (xs ++ calls.flatMap Feed.observations) := by
  induction calls generalizing xs with
  | nil => rw [List.flatMap_nil, List.append_nil, List.foldl_nil]
  | cons call calls ih =>
    rw [List.foldl_cons, feed_ofObservations, ih, List.flatMap_cons, List.append_assoc]

theorem checked_feed (m : MovingAverage Rat) (call : Feed Rat) (he : 0 ≤ m.elapsed) :
    m.checked.feed (call.map .number) = (m.feed call).checked := by
  cases call with
  | one x => exact checked_advance m x (1 - m.rate) 1 he
  | many x n =>
    rw [Feed.map, feed, feed, observeMany_eq_advance, observeMany_eq_advance]
    by_cases hn : n ≤ 0
    · rw [advance, advance, if_pos hn, if_pos hn]
    · obtain ⟨k, rfl⟩ := Int.eq_ofNat_of_zero_le (Int.le_of_lt (Int.not_le.mp hn))
      rw [checked_decay, checked_advance m x _ _ he]

/-- No call divides by zero. -/
theorem checked_foldl_feed (rate : Rat) (calls : List (Feed Rat)) (xs : List Rat) :
    (calls.map (Feed.map .number)).foldl feed (ofObservations rate xs).checked =
      (calls.foldl feed (ofObservations rate xs)).checked := by
  induction calls generalizing xs with
  | nil => rfl
  | cons call calls ih =>
    have he : 0 ≤ (ofObservations rate xs).elapsed := by
      rw [elapsed_ofObservations]
      exact Nat.cast_nonneg _
    rw [List.map_cons, List.foldl_cons, List.foldl_cons, checked_feed _ call he,
      feed_ofObservations, ih]

/-! ## The parts of an average -/

/-- What one more observation makes of an average of observations. -/
theorem ofObservations_concat (rate x : Rat) (xs : List Rat) :
    ofObservations rate (xs ++ [x]) =
      { rate := rate
        exponential := x + ((ofObservations rate xs).exponential - x) * (1 - rate)
        cumulative := (1 - rate) * ((ofObservations rate xs).cumulative +
          ((ofObservations rate xs).startWeight * x - (ofObservations rate xs).cumulative) /
            (xs.length + 1))
        elapsed := xs.length + 1
        startWeight := (ofObservations rate xs).startWeight * (1 - rate) } := by
  have hrate : (ofObservations rate xs).rate = rate := rate_foldl xs (fresh rate)
  calc ofObservations rate (xs ++ [x])
      = (ofObservations rate xs).observe x := List.foldl_append
    _ = _ := by rw [observe_eq, hrate, elapsed_ofObservations]

theorem startWeight_ofObservations (rate : Rat) (xs : List Rat) :
    (ofObservations rate xs).startWeight = (1 - rate) ^ xs.length := by
  induction xs using List.reverseRecOn with
  | nil => exact (pow_zero _).symm
  | append_singleton xs x ih =>
    rw [ofObservations_concat, List.length_append, List.length_singleton, pow_succ, ih]

/-- The exponential part weighs each observation by the number of later ones. -/
theorem exponential_ofFn (rate : Rat) {n : Nat} (x : Fin n → Rat) :
    (ofObservations rate (List.ofFn x)).exponential =
      ∑ i, rate * (1 - rate) ^ (i.rev : Nat) * x i := by
  induction n with
  | zero => rfl
  | succ n ih =>
    have hlater (i : Fin n) : rate * (1 - rate) ^ (i.castSucc.rev : Nat) * x i.castSucc =
        (1 - rate) * (rate * (1 - rate) ^ (i.rev : Nat) * x i.castSucc) := by
      rw [Fin.rev_castSucc, Fin.val_succ, pow_succ]
      ring
    rw [List.ofFn_succ', List.concat_eq_append, ofObservations_concat, Fin.sum_univ_castSucc,
      Fin.rev_last, sum_congr rfl fun i _ => hlater i, ← mul_sum, ← ih]
    simp only [Fin.val_zero, pow_zero]
    ring

/-- The cumulative part is the plain mean times the weight that is left for the start. -/
theorem cumulative_ofFn (rate : Rat) {n : Nat} (x : Fin n → Rat) :
    (ofObservations rate (List.ofFn x)).cumulative = (1 - rate) ^ n * ((∑ i, x i) / n) := by
  induction n with
  | zero => simp [ofObservations, fresh]
  | succ n ih =>
    have hmean : (∑ i, x (Fin.castSucc i)) / n +
        (x (Fin.last n) - (∑ i, x (Fin.castSucc i)) / n) / (n + 1) =
          ((∑ i, x (Fin.castSucc i)) + x (Fin.last n)) / (n + 1) := by
      -- No observations have the sum zero, and their mean counts as zero.
      rcases Nat.eq_zero_or_pos n with rfl | hn
      · simp
      · field_simp
        ring
    rw [List.ofFn_succ', List.concat_eq_append, ofObservations_concat, startWeight_ofObservations,
      ih, List.length_ofFn, Fin.sum_univ_castSucc, Nat.cast_succ, ← hmean]
    ring

/-! ## Weights -/

/-- The weight of one of `n` observations that `later` others come after: its share in the
exponential part, and an equal share of what is left for the start. -/
def weight (rate : Rat) (n later : Nat) : Rat := rate * (1 - rate) ^ later + (1 - rate) ^ n / n

theorem weight_nonneg {rate : Rat} (hpos : 0 < rate) (hle : rate ≤ 1) (n later : Nat) :
    0 ≤ weight rate n later := by
  have hrest : 0 ≤ 1 - rate := sub_nonneg.mpr hle
  unfold weight
  positivity

/-- The weights of all observations sum to one. -/
theorem sum_weight (rate : Rat) {n : Nat} (hn : 0 < n) :
    ∑ i : Fin n, weight rate n i.rev = 1 := by
  have hexponential : ∑ i : Fin n, rate * (1 - rate) ^ (i : Nat) = 1 - (1 - rate) ^ n := by
    rw [← mul_sum, Fin.sum_univ_eq_sum_range fun i => (1 - rate) ^ i, ← mul_neg_geom_sum,
      sub_sub_cancel]
  have hrest : ∑ _i : Fin n, (1 - rate) ^ n / (n : Rat) = (1 - rate) ^ n := by
    rw [sum_const, card_univ, Fintype.card_fin, nsmul_eq_mul]
    field_simp
  calc ∑ i : Fin n, weight rate n i.rev
      = ∑ i : Fin n, weight rate n i := Equiv.sum_comp Fin.revPerm fun i => weight rate n i
    _ = (1 - (1 - rate) ^ n) + (1 - rate) ^ n := by
        rw [← hexponential, ← hrest, ← sum_add_distrib]
        rfl
    _ = 1 := sub_add_cancel _ _

theorem value_ofFn (rate : Rat) {n : Nat} (x : Fin n → Rat) :
    (ofObservations rate (List.ofFn x)).value = ∑ i, weight rate n i.rev * x i := by
  rw [value, exponential_ofFn, cumulative_ofFn, ← mul_div_assoc, mul_sum, sum_div,
    ← sum_add_distrib]
  refine sum_congr rfl fun i _ => ?_
  rw [weight]
  ring

/-- The average of what is observed of the members of a list. -/
theorem value_map {α : Type} (rate : Rat) (xs : List α) (f : α → Rat) :
    (ofObservations rate (xs.map f)).value =
      ∑ i : Fin xs.length, weight rate xs.length i.rev * f xs[i] := by
  have h := value_ofFn rate fun i : Fin xs.length => f xs[(i : Nat)]
  rwa [List.ofFn_getElem_eq_map] at h

theorem value_ofObservations (rate : Rat) (xs : List Rat) :
    (ofObservations rate xs).value = ∑ i : Fin xs.length, weight rate xs.length i.rev * xs[i] := by
  simpa using value_map rate xs id

/-- An average is within any bounds of its observations. -/
theorem value_mem_of_bounds {rate : Rat} (hpos : 0 < rate) (hle : rate ≤ 1) {xs : List Rat}
    (hne : xs ≠ []) {lo hi : Rat} (hxs : ∀ x ∈ xs, lo ≤ x ∧ x ≤ hi) :
    lo ≤ (ofObservations rate xs).value ∧ (ofObservations rate xs).value ≤ hi := by
  have hconst (c : Rat) : ∑ i : Fin xs.length, weight rate xs.length i.rev * c = c := by
    rw [← sum_mul, sum_weight rate (List.length_pos_iff.mpr hne), one_mul]
  have hweight (i : Fin xs.length) := weight_nonneg hpos hle xs.length i.rev
  rw [value_ofObservations]
  constructor
  · calc lo = _ := (hconst lo).symm
      _ ≤ _ := sum_le_sum fun i _ =>
        mul_le_mul_of_nonneg_left (hxs _ (xs.get_mem i)).1 (hweight i)
  · calc _ ≤ _ := sum_le_sum fun i _ =>
        mul_le_mul_of_nonneg_left (hxs _ (xs.get_mem i)).2 (hweight i)
      _ = hi := hconst hi

/-- The average of shares of one is a share of one. That of no observations is zero. -/
theorem value_mem_unit {rate : Rat} (hpos : 0 < rate) (hle : rate ≤ 1) {xs : List Rat}
    (hxs : ∀ x ∈ xs, 0 ≤ x ∧ x ≤ 1) :
    0 ≤ (ofObservations rate xs).value ∧ (ofObservations rate xs).value ≤ 1 := by
  rcases eq_or_ne xs [] with rfl | hne
  · rw [value_ofObservations]
    simp
  · exact value_mem_of_bounds hpos hle hne hxs

/-- The averages of two things that are observed at the same times add up to the average of their
sum. -/
theorem value_map_add {α : Type} (rate : Rat) (xs : List α) (f g : α → Rat) :
    (ofObservations rate (xs.map f)).value + (ofObservations rate (xs.map g)).value =
      (ofObservations rate (xs.map fun x => f x + g x)).value := by
  rw [value_map, value_map, value_map, ← sum_add_distrib]
  exact sum_congr rfl fun i _ => (mul_add ..).symm

/-- Take a new average of a decay rate and feed it at least one observation, in any calls. It has
counted the observations, and its start weight is the power of what remains after one. Its value is
the exponentially weighted sum of the observations plus their plain mean for the weight of the
start. That is a mean with weights that are not negative and sum to one, so it lies between any
bounds of the observations, and is the observation if they are all the same. No call divides by
zero. -/
theorem value_is_weightedMean {rate : Rat} (hpos : 0 < rate) (hle : rate ≤ 1)
    {calls : List (Feed Rat)} (hne : calls.flatMap Feed.observations ≠ []) :
    let xs := calls.flatMap Feed.observations
    let n := xs.length
    let m := calls.foldl feed (fresh rate)
    start rate = .ok (fresh rate) ∧
    m.elapsed = n ∧
    m.startWeight = (1 - rate) ^ n ∧
    m.value = (∑ i : Fin n, rate * (1 - rate) ^ (i.rev : Nat) * xs[i]) +
      (1 - rate) ^ n * (xs.sum / n) ∧
    (m.value = ∑ i : Fin n, weight rate n i.rev * xs[i] ∧
      (∀ i : Fin n, 0 ≤ weight rate n i.rev) ∧ ∑ i : Fin n, weight rate n i.rev = 1) ∧
    (∀ lo hi, (∀ x ∈ xs, lo ≤ x ∧ x ≤ hi) → lo ≤ m.value ∧ m.value ≤ hi) ∧
    (∀ c, (∀ x ∈ xs, x = c) → m.value = c) ∧
    (calls.map (Feed.map .number)).foldl feed (fresh (.number rate)) = m.checked := by
  intro xs n m
  have hm : m = ofObservations rate xs := foldl_feed rate calls []
  have hbounds : ∀ lo hi, (∀ x ∈ xs, lo ≤ x ∧ x ≤ hi) → lo ≤ m.value ∧ m.value ≤ hi := by
    intro lo hi hxs
    rw [hm]
    exact value_mem_of_bounds hpos hle hne hxs
  refine ⟨?_, ?_, ?_, ?_, ⟨?_, fun i => weight_nonneg hpos hle n i.rev, ?_⟩, hbounds, ?_, ?_⟩
  · exact if_pos (by simp [Scalar.isDecayRate, hpos, hle])
  · rw [hm, elapsed_ofObservations]
  · rw [hm, startWeight_ofObservations]
  · have hexponential := exponential_ofFn rate xs.get
    have hcumulative := cumulative_ofFn rate xs.get
    rw [List.ofFn_get, ← hm] at hexponential hcumulative
    have hsum : xs.sum = ∑ i, xs.get i := by
      rw [← List.sum_ofFn, List.ofFn_get]
    rw [value, hexponential, hcumulative, hsum]
    rfl
  · rw [hm, value_ofObservations]
  · exact sum_weight rate (List.length_pos_iff.mpr hne)
  · intro c hc
    obtain ⟨hlo, hhi⟩ := hbounds c c fun x hx => ⟨(hc x hx).ge, (hc x hx).le⟩
    exact le_antisymm hhi hlo
  · exact checked_foldl_feed rate calls []

/-- Single observations, a run of two, and a call that gives none. -/
def alternating : List (Feed Rat) := [.one 1, .one 0, .many 7 (-2), .many 1 2]

theorem value_is_weightedMean_alternating :
    (0 : Rat) < 3 / 10 ∧ (3 / 10 : Rat) ≤ 1 ∧ alternating.flatMap Feed.observations = [1, 0, 1, 1] ∧
    (alternating.foldl feed (fresh (3 / 10))).value = 792975 / 1000000 ∧
    (alternating.foldl feed (fresh (3 / 10))).startWeight = (7 / 10) ^ 4 ∧
    0 ≤ (alternating.foldl feed (fresh (3 / 10))).value ∧
    (alternating.foldl feed (fresh (3 / 10))).value ≤ 1 := by
  have hpos : (0 : Rat) < 3 / 10 := by norm_num
  have hle : (3 / 10 : Rat) ≤ 1 := by norm_num
  have hobservations : alternating.flatMap Feed.observations = [1, 0, 1, 1] := rfl
  obtain ⟨-, -, hweight, -, -, hbounds, -⟩ :=
    @value_is_weightedMean _ hpos hle alternating (by simp [hobservations])
  refine ⟨hpos, hle, hobservations, by decide +kernel, ?_, ?_⟩
  · rw [hweight]
    norm_num [hobservations]
  · exact hbounds 0 1 (by rw [hobservations]; decide +kernel)

end MovingAverage

end ClauseSharing
