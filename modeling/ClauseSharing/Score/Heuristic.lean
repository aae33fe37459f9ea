import ClauseSharing.Scalar

/-!
The heuristics that rank clauses: their codes and names, and which of two scores is better.
-/

namespace ClauseSharing

/-- A way to score a clause by the probabilities of its literals. -/
inductive Heuristic where
  /-- The number of literals. -/
  | size
  /-- The product of the false probabilities. -/
  | joint
  /-- The mean of the false probabilities. -/
  | average
  /-- The Łukasiewicz norm of the false probabilities. -/
  | lukasiewicz
  /-- The smallest false probability. -/
  | min
  /-- The second smallest false probability. -/
  | secondLeast
  /-- The number of literals that are not stably false. -/
  | unstableCount
  /-- The same number, with a reduced count for literals that are likely true. -/
  | weightedUnstableCount
  /-- The sum of the unassigned and the reduced true probabilities. -/
  | scoreSum
deriving DecidableEq, Repr

namespace Heuristic

/-- All heuristics, by their code. -/
def all : List Heuristic :=
  [.size, .joint, .average, .lukasiewicz, .min, .secondLeast, .unstableCount,
    .weightedUnstableCount, .scoreSum]

/-- The heuristic with the given code. -/
def ofCode? (code : Nat) : Option Heuristic := all[code]?

def code (h : Heuristic) : Nat := all.idxOf h

def name : Heuristic → String
  | .size => "size"
  | .joint => "product-norm"
  | .average => "average"
  | .lukasiewicz => "lukasiewicz"
  | .min => "min"
  | .secondLeast => "second-min"
  | .unstableCount => "unstable-literal-count"
  | .weightedUnstableCount => "generalized-unstable-literal-count"
  | .scoreSum => "literal-score-sum"

/-- Whether higher scores mean better clauses. -/
def prefersHigh : Heuristic → Bool
  | .joint | .average | .lukasiewicz | .min | .secondLeast => true
  | .size | .unstableCount | .weightedUnstableCount | .scoreSum => false

variable {K : Type} [Scalar K]

/-- Whether the score `x` is strictly better than `y`. -/
def prefers (h : Heuristic) (x y : K) : Bool :=
  if h.prefersHigh then Scalar.lt y x else Scalar.lt x y

/-- The order of scores in which the better one comes first. -/
def compareScores (h : Heuristic) (x y : K) : Ordering :=
  if h.prefersHigh then Scalar.order y x else Scalar.order x y

theorem ofCode?_code (h : Heuristic) : ofCode? h.code = some h := by
  cases h <;> rfl

theorem code_eq_of_ofCode? {n : Nat} {h : Heuristic} (hn : ofCode? n = some h) : h.code = n := by
  unfold ofCode? at hn
  match n with
  | 0 | 1 | 2 | 3 | 4 | 5 | 6 | 7 | 8 => cases hn; rfl
  | n + 9 => simp [all] at hn

end Heuristic

end ClauseSharing
