import ClauseSharing.Scalar

/-!
Running mean and variance.

The mean and the sum of squared deviations are kept instead of the observations. A new observation
moves the mean by its share of the deviation, and adds the product of its deviations from the old
and from the new mean to the sum of squares.
-/

namespace ClauseSharing

/-- The count, mean and sum of squared deviations of a non-empty list of observations. -/
structure Moments (K : Type) where
  count : Nat
  mean : K
  /-- The sum of their squared deviations from the mean. -/
  squares : K
deriving DecidableEq

namespace Moments

variable {K : Type} [Scalar K]

open Scalar

def single (x : K) : Moments K := ⟨1, x, zero⟩

def observe (m : Moments K) (x : K) : Moments K :=
  let count := m.count + 1
  let mean := m.mean + (x - m.mean) / ofNat count
  ⟨count, mean, m.squares + (x - m.mean) * (x - mean)⟩

/-- The sample variance: zero for a single observation. -/
def variance (m : Moments K) : K :=
  if m.count ≤ 1 then zero else m.squares / ofNat (m.count - 1)

end Moments

end ClauseSharing
