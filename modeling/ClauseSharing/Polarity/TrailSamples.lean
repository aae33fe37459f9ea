import ClauseSharing.Estimate.MovingAverage
import ClauseSharing.PerVariable
import ClauseSharing.TrailItem

/-!
Averages sampled from the trail, and two cheap measures of a clause.

Each sample observes the variables on the trail: whether they were decisions, and whether they were
true. The decision ratios of a clause's literals add up to its *fuzzy glue*, which approximates the
number of decision levels in the clause without knowing them; the polarities give the probability
that the clause is in conflict.
-/

namespace ClauseSharing

open Scalar

structure SampleRecord (K : Type) where
  /-- How often the variable was a decision. -/
  decision : MovingAverage K
  /-- How often the variable was true. -/
  polarity : MovingAverage K
deriving DecidableEq

/-- The averages of all variables. -/
structure TrailSamples (K : Type) where
  rate : K
  records : PerVariable (SampleRecord K)
  samples : Nat

variable {K : Type} [Scalar K]

namespace SampleRecord

/-- The record of a variable that was on no sampled trail. -/
def fresh (rate : K) : SampleRecord K := ⟨.fresh rate, .fresh rate⟩

/-- Observes an entry of the variable on the trail. -/
def observe (r : SampleRecord K) (e : TrailItem) : SampleRecord K where
  decision := r.decision.observe (if e.reason = .decision then one else zero)
  polarity := r.polarity.observe (if e.literal.isPositive then one else zero)

/-- The probability that the variable is assigned with the given polarity. -/
def satisfied (r : SampleRecord K) (positive : Bool) : K :=
  let truth := clampUnit r.polarity.value
  if positive then truth else one - truth

end SampleRecord

namespace TrailSamples

def empty (rate : K) : TrailSamples K := ⟨rate, .empty, 0⟩

def register (s : TrailSamples K) (n : Nat) : Except Breach (TrailSamples K) :=
  if n = 0 ∨ isDecayRate s.rate then
    .ok { s with records := s.records.extend n (.fresh s.rate) }
  else .error .precondition

def observe (s : TrailSamples K) (e : TrailItem) : Except Breach (TrailSamples K) := do
  let record ← s.records.fetch e.literal.var
  return { s with records := s.records.set e.literal.var (record.observe e) }

/-- Observes every entry of a trail. Variables that are not on it are left alone. -/
def sample (s : TrailSamples K) (trail : List TrailItem) : Except Breach (TrailSamples K) := do
  let s ← trail.foldlM observe s
  return { s with samples := s.samples + 1 }

/-- How often the literal's variable was a decision. -/
def decisionShare (s : TrailSamples K) (l : Literal) : Except Breach K :=
  return (← s.records.fetch l.var).decision.value

/-- The estimated probability that the literal is satisfied. -/
def satisfied (s : TrailSamples K) (l : Literal) : Except Breach K :=
  return (← s.records.fetch l.var).satisfied l.isPositive

/-- The sum of the decision ratios of the literals. -/
def fuzzyGlue (s : TrailSamples K) (clause : List Literal) : Except Breach K :=
  return sum (← clause.mapM s.decisionShare)

/-- The estimated probability that no literal is satisfied. -/
def falsityProbability (s : TrailSamples K) (clause : List Literal) : Except Breach K :=
  return product ((← clause.mapM s.satisfied).map fun p => one - p)

/-- One plus the sum of the literals' probabilities to be satisfied. -/
def satisfactionSum (s : TrailSamples K) (clause : List Literal) : Except Breach K :=
  return one + sum (← clause.mapM s.satisfied)

end TrailSamples

end ClauseSharing
