import ClauseSharing.Estimate.MovingAverage
import ClauseSharing.PerVariable
import ClauseSharing.Score.Likelihood

/-!
How often each variable was recently true or false.

A variable's record is not touched on every tick. It is caught up in one step when its value is
about to change, or when someone asks; since the value did not change in the meantime, this gives
the same estimate as one observation per tick. All ticks since the last synchronization count for
the present value, so a record must be synchronized *before* its variable is assigned or
unassigned.

Records that are caught up by the same number of ticks share one power of the decay factor, kept
in a cache of a single entry.
-/

namespace ClauseSharing

open Scalar

/-- The estimates of one variable. -/
structure PolarityRecord (K : Type) where
  whenTrue : MovingAverage K
  whenFalse : MovingAverage K
  /-- The tick of the last synchronization. -/
  lastTick : Int
deriving DecidableEq

/-- The most recent decay factor. -/
structure DecayCache (K : Type) where
  steps : Int
  /-- The factor `(1 - rate) ^ steps`. -/
  factor : K
deriving DecidableEq

/-- The estimates of all variables. -/
structure Stability (K : Type) where
  rate : K
  records : PerVariable (PolarityRecord K)
  /-- The decay factor of the last synchronization. -/
  cache : DecayCache K

variable {K : Type} [Scalar K]

namespace PolarityRecord

/-- The record of a variable registered at the given tick. -/
def fresh (rate : K) (tick : Int) : PolarityRecord K := ⟨.fresh rate, .fresh rate, tick⟩

/-- What one tick observes about a variable with the given value: whether it is true, and whether it
is false. -/
def observations : Option Bool → K × K
  | some true => (one, zero)
  | some false => (zero, one)
  | none => (zero, zero)

/-- Catches the record up by `steps` ticks in which the variable had the given value. -/
def advance (r : PolarityRecord K) (value : Option Bool) (steps : Int) (factor : K) :
    PolarityRecord K where
  whenTrue := r.whenTrue.advance (observations value).1 steps factor
  whenFalse := r.whenFalse.advance (observations value).2 steps factor
  lastTick := r.lastTick + steps

def estimate (r : PolarityRecord K) (positive : Bool) : K :=
  if positive then r.whenTrue.value else r.whenFalse.value

end PolarityRecord

namespace DecayCache

/-- The cache before its first use. -/
def empty : DecayCache K := ⟨0, one⟩

/-- The cache with the decay factor for `steps`, computed if it is not the one at hand. -/
def demand (c : DecayCache K) (rate : K) (steps : Int) : DecayCache K :=
  if c.steps = steps then c else ⟨steps, retained rate steps⟩

end DecayCache

namespace Stability

def empty (rate : K) : Stability K := ⟨rate, .empty, .empty⟩

/-- Registers `n` more variables, whose records start at the given tick. -/
def register (s : Stability K) (n : Nat) (tick : Int) : Except Breach (Stability K) :=
  if n = 0 ∨ isDecayRate s.rate then
    .ok { s with records := s.records.extend n (.fresh s.rate tick) }
  else .error .precondition

/-- Catches the record of the variable up to the tick. All ticks since the last synchronization
count for `value`, the present value of the variable. -/
def catchUp (s : Stability K) (v : Variable) (tick : Int) (value : Option Bool) :
    Except Breach (Stability K) := do
  let record ← s.records.fetch v
  let steps ← inWord64 (tick - record.lastTick)
  if steps < 0 then throw (.backdated v.number)
  if steps = 0 then return s
  let cache := s.cache.demand s.rate steps
  return { s with
    cache := cache
    records := s.records.set v (record.advance value steps cache.factor) }

/-- Catches the records of the given variables up to the tick, one after the other. -/
def catchUpEach (s : Stability K) (vs : List Variable) (tick : Int)
    (values : Variable → Option Bool) : Except Breach (Stability K) :=
  vs.foldlM (fun s v => s.catchUp v tick (values v)) s

/-- Catches all records up to the tick, in the order of the variables. -/
def catchUpAll (s : Stability K) (tick : Int) (values : Variable → Option Bool) :
    Except Breach (Stability K) :=
  s.catchUpEach ((List.range s.records.size).filterMap Variable.ofIndex?) tick values

/-- The estimate of the literal being true. Without a record there is no sign of it. -/
def estimate (s : Stability K) (v : Variable) (positive : Bool) : K :=
  match s.records.get? v with
  | some record => record.estimate positive
  | none => zero

/-- The estimates as probabilities. -/
def probabilities (s : Stability K) : LiteralLikelihood K where
  isTrue l := clampUnit (s.estimate l.var l.isPositive)
  isFalse l := clampUnit (s.estimate l.var !l.isPositive)

end Stability

end ClauseSharing
