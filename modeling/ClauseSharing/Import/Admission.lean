import ClauseSharing.Import.Recipient
import ClauseSharing.Score.Evaluate

/-!
Which candidates of a pass are imported.

Candidates are ranked by their score, shorter ones first among equals, and in the order of their
arrival among those. They are admitted in that order until the budget is met; the last one may
exceed it.
-/

namespace ClauseSharing

variable {K : Type} [Scalar K]

/-- What a pass ranks by and how much of the offer it may import. -/
structure Selector (K : Type) where
  heuristic : Heuristic
  parameters : ScoreParameters K
  /-- The share of the offered literals that one pass may import. -/
  ratio : K

namespace Selector

def score (s : Selector K) (p : LiteralLikelihood K) (c : Candidate) : K :=
  s.heuristic.evaluate s.parameters p c.literals

/-- The order of scored candidates: the better score first, then the shorter clause. -/
def compareScored (s : Selector K) (x y : K × Candidate) : Ordering :=
  (s.heuristic.compareScores x.1 y.1).then (compare x.2.literals.length y.2.literals.length)

/-- The candidates in the order of admission. -/
def rank (s : Selector K) (p : LiteralLikelihood K) (candidates : List Candidate) :
    List Candidate :=
  let scored := candidates.map fun c => (s.score p c, c)
  (scored.mergeSort fun x y => (s.compareScored x y).isLE).map (·.2)

/-- The budget of a pass in which that many literals and terminators were offered. -/
def budget (s : Selector K) (offered : Nat) : K := s.ratio * Scalar.ofNat offered

end Selector

/-- The candidates admitted from a ranking when `charged` has been spent: one after the other until
the budget is met. -/
def admitted (budget : K) (charged : Nat) : List Candidate → List Candidate
  | [] => []
  | c :: rest =>
    if Scalar.le budget (Scalar.ofNat charged : K) then []
    else c :: admitted budget (charged + c.charge) rest

def totalCharge : List Candidate → Nat
  | [] => 0
  | c :: cs => c.charge + totalCharge cs

end ClauseSharing
