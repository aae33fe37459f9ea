import ClauseSharing.Literal
import ClauseSharing.Scalar

/-!
Probabilities of literals, as clause scores read them.
-/

namespace ClauseSharing

/-- How likely each literal is true and false. The rest is the probability of being unassigned. -/
structure LiteralLikelihood (K : Type) where
  /-- The probability that the literal has recently been true. -/
  isTrue : Literal → K
  /-- The probability that the literal has recently been false. -/
  isFalse : Literal → K

namespace LiteralLikelihood

variable {K : Type} [Scalar K]

/-- The probability that the literal's variable has recently been unassigned. -/
def isUnassigned (p : LiteralLikelihood K) (l : Literal) : K :=
  Scalar.clampUnit (Scalar.one - p.isTrue l - p.isFalse l)

/-- The probabilities of a finite table. The first entry of a literal counts, and a literal without
entry has the probabilities `others`. -/
def ofTable (entries : List (Literal × K × K)) (others : K × K) : LiteralLikelihood K where
  isTrue l := (((entries.find? (·.1 = l)).map (·.2)).getD others).1
  isFalse l := (((entries.find? (·.1 = l)).map (·.2)).getD others).2

end LiteralLikelihood

end ClauseSharing
