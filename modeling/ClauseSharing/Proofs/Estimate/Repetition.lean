import ClauseSharing.Estimate.MovingAverage
import ClauseSharing.Proofs.Scalar.Checked
import Mathlib.Tactic.Linarith
import Mathlib.Tactic.Positivity

/-!
Repeated observations in one step.

On exact fractions, moving an average on by `n` equal observations at once gives what the
observations give one after the other (`advance_eq_foldl`). Nothing is asked of the average but
that the number of its observations is not negative.

The same is what keeps all divisions defined: on checked fractions the step and the single
observations give numbers, and the same ones (`checked_advance`, `observeMany_eq_repeated`).
-/

namespace ClauseSharing

namespace MovingAverage

/-- The average of the given observations, taken one after the other. -/
def ofObservations {K : Type} [Scalar K] (rate : K) (xs : List K) : MovingAverage K :=
  xs.foldl observe (fresh rate)

/-- A step changes all parts of the average by plain formulas: where the cumulative part is left
alone, it is zero and its formula gives zero. -/
theorem advance_of_pos (m : MovingAverage Rat) (x factor : Rat) {n : Nat} (hn : 0 < n) :
    m.advance x n factor =
      { rate := m.rate
        exponential := x + (m.exponential - x) * factor
        cumulative :=
          factor * (m.cumulative + n * (m.startWeight * x - m.cumulative) / (m.elapsed + n))
        elapsed := m.elapsed + n
        startWeight := m.startWeight * factor } := by
  have hpos : ¬ (n : Int) ≤ 0 := by omega
  rw [advance, if_neg hpos]
  split
  · rfl
  · next h =>
    have hzero : m.startWeight = 0 ∧ m.cumulative = 0 := by simpa using h
    simp [hzero.1, hzero.2]

theorem observe_eq (m : MovingAverage Rat) (x : Rat) :
    m.observe x =
      { rate := m.rate
        exponential := x + (m.exponential - x) * (1 - m.rate)
        cumulative :=
          (1 - m.rate) * (m.cumulative + (m.startWeight * x - m.cumulative) / (m.elapsed + 1))
        elapsed := m.elapsed + 1
        startWeight := m.startWeight * (1 - m.rate) } := by
  show m.advance x 1 (1 - m.rate) = _
  simpa using advance_of_pos m x (1 - m.rate) Nat.one_pos

/-- One more observation after a step is one more observation in the step. -/
theorem observe_advance (m : MovingAverage Rat) (x : Rat) (n : Nat) (he : 0 ≤ m.elapsed) :
    (m.advance x n ((1 - m.rate) ^ n)).observe x =
      m.advance x (n + 1 : Nat) ((1 - m.rate) ^ (n + 1)) := by
  rcases Nat.eq_zero_or_pos n with rfl | hn
  · rw [observe_eq, advance_of_pos m x _ Nat.one_pos]
    simp
  · -- Both sides are fractions over the numbers of observations, none of which is zero.
    have hn' : (0 : Rat) < n := by exact_mod_cast hn
    have h₁ : m.elapsed + n ≠ 0 := by positivity
    have h₂ : m.elapsed + n + 1 ≠ 0 := by positivity
    rw [observe_eq, advance_of_pos m x _ hn, advance_of_pos m x _ n.succ_pos]
    simp only [mk.injEq, true_and]
    refine ⟨by ring, ?_, by push_cast; ring, by ring⟩
    push_cast
    rw [show m.elapsed + (n + 1) = m.elapsed + n + 1 by ring]
    field_simp
    ring

/-- A step of `n` equal observations is the observations one after the other. -/
theorem advance_eq_foldl (m : MovingAverage Rat) (x : Rat) (n : Nat) (he : 0 ≤ m.elapsed) :
    m.advance x n ((1 - m.rate) ^ n) = (List.replicate n x).foldl observe m := by
  induction n with
  | zero => exact advance_zero m x _
  | succ n ih =>
    rw [List.replicate_succ', List.foldl_append, ← ih, ← observe_advance m x n he]
    rfl

theorem rate_foldl (xs : List Rat) (m : MovingAverage Rat) :
    (xs.foldl observe m).rate = m.rate := by
  induction xs generalizing m with
  | nil => rfl
  | cons x xs ih => rw [List.foldl_cons, ih, observe_eq]

theorem elapsed_foldl (xs : List Rat) (m : MovingAverage Rat) :
    (xs.foldl observe m).elapsed = m.elapsed + xs.length := by
  induction xs generalizing m with
  | nil => simp
  | cons x xs ih =>
    rw [List.foldl_cons, ih, observe_eq, List.length_cons]
    push_cast
    ring

/-- Catching an average of observations up by `n` equal ones appends these to its observations. -/
theorem advance_ofObservations (rate x : Rat) (xs : List Rat) (n : Nat) :
    (ofObservations rate xs).advance x n (Scalar.retained rate n) =
      ofObservations rate (xs ++ List.replicate n x) := by
  have hrate : (ofObservations rate xs).rate = rate := rate_foldl xs (fresh rate)
  have helapsed : 0 ≤ (ofObservations rate xs).elapsed := by
    rw [ofObservations, elapsed_foldl]
    simp [fresh]
  have h := advance_eq_foldl (ofObservations rate xs) x n helapsed
  rw [hrate] at h
  rw [Scalar.retained_eq, h, ofObservations, ofObservations, List.foldl_append]

/-- The same for a whole number, which stands for no observations if it is not positive. -/
theorem advance_ofObservations_toNat (rate x : Rat) (xs : List Rat) (n : Int) :
    (ofObservations rate xs).advance x n (Scalar.retained rate n) =
      ofObservations rate (xs ++ List.replicate n.toNat x) := by
  by_cases hn : n ≤ 0
  · rw [advance, if_pos hn, Int.toNat_of_nonpos hn, List.replicate_zero, List.append_nil]
  · obtain ⟨k, rfl⟩ := Int.eq_ofNat_of_zero_le (Int.le_of_lt (Int.not_le.mp hn))
    exact advance_ofObservations rate x xs k

/-! ## Definedness -/

/-- The average over checked fractions. -/
def checked (m : MovingAverage Rat) : MovingAverage Checked where
  rate := .number m.rate
  exponential := .number m.exponential
  cumulative := .number m.cumulative
  elapsed := .number m.elapsed
  startWeight := .number m.startWeight

/-- The only division of a step is by the number of the observations after it. -/
theorem checked_advance (m : MovingAverage Rat) (x factor : Rat) (n : Int) (he : 0 ≤ m.elapsed) :
    m.checked.advance (.number x) n (.number factor) = (m.advance x n factor).checked := by
  by_cases hn : n ≤ 0
  · rw [advance, advance, if_pos hn, if_pos hn]
  · have htotal : m.elapsed + (n : Rat) ≠ 0 := by
      have hn' : (0 : Rat) < n := by exact_mod_cast not_le.mp hn
      positivity
    rw [advance, advance, if_neg hn, if_neg hn]
    dsimp only [checked]
    simp only [Checked.ofInt_eq, Checked.zero_eq, Checked.number_add, Checked.number_sub,
      Checked.number_mul, Checked.number_div htotal, Checked.eq_number, Scalar.ofInt_eq,
      Scalar.zero_eq, Scalar.eq_eq]
    congr 1
    exact (apply_ite Checked.number _ _ _).symm

/-- With fewer than no observations a step may divide by zero, and the check notices it. -/
example : (checked ⟨1 / 2, 0, 0, -2, 1⟩).advance (.number 1) 2 (.number (1 / 4)) =
    ⟨.number (1 / 2), .number (3 / 4), .undefined, .number 0, .number (1 / 4)⟩ := by
  decide +kernel

theorem elapsed_observe_nonneg (m : MovingAverage Rat) (x : Rat) (he : 0 ≤ m.elapsed) :
    0 ≤ (m.observe x).elapsed := by
  rw [observe_eq]
  exact add_nonneg he zero_le_one

theorem checked_foldl (xs : List Rat) (m : MovingAverage Rat) (he : 0 ≤ m.elapsed) :
    (xs.map .number).foldl observe m.checked = (xs.foldl observe m).checked := by
  induction xs generalizing m with
  | nil => rfl
  | cons x xs ih =>
    have hstep : m.checked.observe (.number x) = (m.observe x).checked :=
      checked_advance m x (1 - m.rate) 1 he
    rw [List.map_cons, List.foldl_cons, List.foldl_cons, hstep]
    exact ih (m.observe x) (elapsed_observe_nonneg m x he)

theorem checked_decay (m : MovingAverage Rat) (n : Nat) :
    m.checked.decay n = .number (m.decay n) :=
  Checked.retained_number m.rate n

/-- Taking `n` equal observations at once, with the decay worked out on the way or given, leaves
the average that they leave one after the other; and none of the three ways divides by zero. -/
theorem observeMany_eq_repeated (m : MovingAverage Rat) (x : Rat) (n : Nat)
    (he : 0 ≤ m.elapsed) :
    let repeated := (List.replicate n x).foldl observe m
    m.decay n = (1 - m.rate) ^ n ∧
    m.observeMany x n = repeated ∧
    m.advance x n ((1 - m.rate) ^ n) = repeated ∧
    m.checked.observeMany (.number x) n = repeated.checked ∧
    m.checked.advance (.number x) n (.number ((1 - m.rate) ^ n)) = repeated.checked ∧
    (List.replicate n (.number x)).foldl observe m.checked = repeated.checked := by
  intro repeated
  have hdecay : m.decay n = (1 - m.rate) ^ n := Scalar.retained_eq m.rate n
  have hgiven : m.advance x n ((1 - m.rate) ^ n) = repeated := advance_eq_foldl m x n he
  have hgiven' : m.checked.advance (.number x) n (.number ((1 - m.rate) ^ n)) =
      repeated.checked := by
    rw [checked_advance m x _ n he, hgiven]
  refine ⟨hdecay, ?_, hgiven, ?_, hgiven', ?_⟩
  · rw [observeMany_eq_advance, hdecay, hgiven]
  · rw [observeMany_eq_advance, checked_decay, hdecay, hgiven']
  · rw [← List.map_replicate]
    exact checked_foldl _ m he

/-- The rate may be one: then a single observation clears the start weight and the cumulative
part, which the step at once sees at its start only. -/
theorem observeMany_eq_repeated_fullRate :
    let m : MovingAverage Rat := ⟨1, 1 / 2, 1 / 3, 2, 1 / 5⟩
    0 ≤ m.elapsed ∧ m.observeMany (3 / 4) 3 = ⟨1, 3 / 4, 0, 5, 0⟩ ∧
    m.checked.observeMany (.number (3 / 4)) 3 =
      ((List.replicate 3 (3 / 4 : Rat)).foldl observe m).checked := by
  intro m
  have he : 0 ≤ m.elapsed := by decide +kernel
  obtain ⟨-, -, -, hchecked, -⟩ := observeMany_eq_repeated m (3 / 4) 3 he
  exact ⟨he, by decide +kernel, hchecked⟩

end MovingAverage

end ClauseSharing
