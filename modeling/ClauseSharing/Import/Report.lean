import ClauseSharing.Import.Recipient
import ClauseSharing.Scalar

/-!
The report of a pass.
-/

namespace ClauseSharing

/-- What is known about the formula. -/
inductive SolveStatus where
  | unknown
  | satisfied
  | unsatisfied
deriving DecidableEq, Repr

namespace SolveStatus

/-- Whether nothing is left to search. -/
def isFinal (s : SolveStatus) : Bool := s != .unknown

def name : SolveStatus → String
  | .unknown => "Unknown"
  | .satisfied => "Satisfied"
  | .unsatisfied => "Unsatisfied"

/-- What the recipient knows. An empty clause outweighs a satisfying assignment. -/
def of {T : Type} [Recipient T] (recipient : T) : Except Breach SolveStatus :=
  if Recipient.refuted recipient then .ok .unsatisfied
  else do
    if ← Recipient.isComplete recipient then return .satisfied
    return .unknown

end SolveStatus

/-- The counts of a pass. -/
structure PassReport (K : Type) where
  /-- What the recipient knew when the pass ended. -/
  status : SolveStatus
  /-- Offered clauses taken from the batch. -/
  received : Nat
  units : Nat
  /-- Units that could not be assigned. -/
  unitsPassedOver : Nat
  /-- Clauses that passed the filter. -/
  candidates : Nat
  imported : Nat
  /-- Clauses dropped for a literal that must not be imported. -/
  forbidden : Nat
  /-- Clauses dropped for an unknown variable. -/
  unknown : Nat
  /-- Clauses dropped for an eliminated variable. -/
  eliminated : Nat
  /-- Clauses dropped since a literal is true at the root. -/
  satisfied : Nat
  /-- Clauses dropped since all their literals are false at the root. -/
  falsified : Nat
  /-- Literals removed since they are false at the root. -/
  removedLiterals : Nat
  /-- Literals and terminators charged against the budget. -/
  charged : Nat
  /-- The number of literals and terminators that the pass may spend. -/
  budget : K
deriving DecidableEq

namespace PassReport

variable {K : Type} [Scalar K]

def start : PassReport K :=
  ⟨.unknown, 0, 0, 0, 0, 0, 0, 0, 0, 0, 0, 0, 0, Scalar.zero⟩

/-- The clauses that the filter dropped. -/
def discarded (r : PassReport K) : Nat :=
  r.forbidden + r.unknown + r.eliminated + r.satisfied + r.falsified

end PassReport

end ClauseSharing
