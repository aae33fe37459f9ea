import ClauseSharing.Breach
import ClauseSharing.Scalar

/-!
Decaying averages without start bias.

The exponential part is a plain exponential moving average that starts at zero. The cumulative
part makes up for that start and vanishes as the average forgets it: the weight that the
exponential part still gives to its start is spread evenly over all observations so far.

Both parts can be moved on by any number of equal observations in one step (`advance`), so an
average whose observation does not change may be left alone and caught up later.
-/

namespace ClauseSharing

/-- A decaying average of observations. -/
structure MovingAverage (K : Type) where
  /-- The share of the newest observation in the exponential part. -/
  rate : K
  /-- The moving average that starts at zero. -/
  exponential : K
  /-- The share of the plain mean that replaces the start. -/
  cumulative : K
  elapsed : K
  /-- The weight of the start: `(1 - rate) ^ elapsed`. -/
  startWeight : K
deriving DecidableEq

namespace MovingAverage

variable {K : Type} [Scalar K]

open Scalar

def fresh (rate : K) : MovingAverage K := ⟨rate, zero, zero, zero, one⟩

/-- The average of no observations, for a rate that is a decay rate. -/
def start (rate : K) : Except Breach (MovingAverage K) :=
  if isDecayRate rate then .ok (fresh rate) else .error .precondition

/-- The average of the observations so far. In doubles it may leave their range a little. -/
def value (m : MovingAverage K) : K := m.exponential + m.cumulative

/-- Takes `n` observations `x` in one step, where `factor` is `(1 - rate) ^ n`. -/
def advance (m : MovingAverage K) (x : K) (n : Int) (factor : K) : MovingAverage K :=
  if n ≤ 0 then m
  else
    let steps : K := ofInt n
    let total := m.elapsed + steps
    { m with
      exponential := x + (m.exponential - x) * factor
      cumulative :=
        if !eq m.startWeight zero || !eq m.cumulative zero then
          factor * (m.cumulative + steps * (m.startWeight * x - m.cumulative) / total)
        else m.cumulative
      elapsed := total
      startWeight := m.startWeight * factor }

def observe (m : MovingAverage K) (x : K) : MovingAverage K := m.advance x 1 (one - m.rate)

/-- What is left of a weight after `n` observations. -/
def decay (m : MovingAverage K) (n : Int) : K := retained m.rate n

/-- Takes `n` observations `x`; none if `n` is not positive. -/
def observeMany (m : MovingAverage K) (x : K) (n : Int) : MovingAverage K :=
  if n ≤ 0 then m else m.advance x n (m.decay n)

theorem rate_advance (m : MovingAverage K) (x : K) (n : Int) (factor : K) :
    (m.advance x n factor).rate = m.rate := by
  unfold advance
  split <;> rfl

@[simp] theorem advance_zero (m : MovingAverage K) (x factor : K) : m.advance x 0 factor = m :=
  if_pos (Int.le_refl 0)

/-- Of no observations a step takes none either. -/
theorem observeMany_eq_advance (m : MovingAverage K) (x : K) (n : Int) :
    m.observeMany x n = m.advance x n (m.decay n) := by
  unfold observeMany
  split
  · next hn => exact (if_pos hn).symm
  · rfl

end MovingAverage

end ClauseSharing
