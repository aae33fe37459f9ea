import ClauseSharing.Score.Heuristic
import ClauseSharing.Score.Likelihood

/-!
The score of a clause under each heuristic.
-/

namespace ClauseSharing

open Scalar

/-- The thresholds that some heuristics read, as fractions. -/
structure ScoreParameters (K : Type) where
  /-- A literal whose false probability lies above this is stably false. -/
  falseCutoff : K
  /-- A literal whose true probability lies above this is likely true. -/
  trueCutoff : K
  /-- The weight of a likely true literal. -/
  trueWeight : K

/-- Stably false and likely true above nine tenths, and a likely true literal counts half. -/
def ScoreParameters.standard {K : Type} [Scalar K] : ScoreParameters K :=
  ⟨percent 90, percent 90, percent 50⟩

/-- The two smallest values of a scan so far; a register without value stands for infinity. -/
structure SmallestTwo (K : Type) where
  smallest : Option K
  second : Option K

namespace SmallestTwo

variable {K : Type} [Scalar K]

def empty : SmallestTwo K := ⟨none, none⟩

/-- Whether a value lies below a register. -/
def below (x : K) : Option K → Bool
  | none => belowInfinity x
  | some y => lt x y

def insert (s : SmallestTwo K) (x : K) : SmallestTwo K :=
  if below x s.smallest then ⟨some x, s.smallest⟩
  else if below x s.second then { s with second := some x }
  else s

/-- The second value, the only one, or one. -/
def result (s : SmallestTwo K) : K :=
  match s.second.filter isFinite, s.smallest.filter isFinite with
  | some x, _ => x
  | none, some x => x
  | none, none => one

end SmallestTwo

/-- The second smallest value; the only one if there is one, and one if there is none. -/
def secondSmallest {K : Type} [Scalar K] (xs : List K) : K :=
  (xs.foldl SmallestTwo.insert .empty).result

namespace Heuristic

variable {K : Type} [Scalar K]

/-- What a literal adds to the generalized count of unstable literals. -/
def instability (params : ScoreParameters K) (p : LiteralLikelihood K) (l : Literal) : K :=
  if lt params.falseCutoff (p.isFalse l) then zero
  else if lt params.trueCutoff (p.isTrue l) then params.trueWeight
  else one

/-- What a literal adds to the sum of literal scores. -/
def literalScore (params : ScoreParameters K) (p : LiteralLikelihood K) (l : Literal) : K :=
  p.isUnassigned l + p.isTrue l * params.trueWeight

def evaluate (h : Heuristic) (params : ScoreParameters K) (p : LiteralLikelihood K)
    (clause : List Literal) : K :=
  let falses := clause.map p.isFalse
  match h with
  | .size => Scalar.ofNat clause.length
  | .joint => product falses
  | .average => if clause.isEmpty then zero else sum falses / Scalar.ofNat clause.length
  | .lukasiewicz => falses.foldl (fun acc x => larger (acc + x - one) zero) one
  | .min => falses.foldl smaller one
  | .secondLeast => secondSmallest falses
  | .unstableCount => Scalar.ofNat (falses.countP fun x => le x params.falseCutoff)
  | .weightedUnstableCount => sum (clause.map (instability params p))
  | .scoreSum => sum (clause.map (literalScore params p))

end Heuristic

end ClauseSharing
