import ClauseSharing.Estimate.Moments
import ClauseSharing.Literal
import Std.Data.TreeMap

/-!
Glue statistics by clause.

A clause is known by its *signature*, the sorted list of its literals, so that the same clause is
counted together whatever order its literals come in. Signatures are kept and listed in
lexicographic order, in which a list comes before its extensions.
-/

namespace ClauseSharing

/-- The sorted list of a clause's literals. -/
abbrev Signature := List Int32

def Signature.of (literals : List Int32) : Signature :=
  literals.mergeSort fun a b => (compareExternals a b).isLE

/-- The lexicographic order of signatures. -/
def Signature.order (s t : Signature) : Ordering := List.compareLex compareExternals s t

structure GlueStatistics (K : Type) where
  /-- The moments of the glue, by signature. -/
  bySignature : Std.TreeMap Signature (Moments K) Signature.order

namespace GlueStatistics

variable {K : Type} [Scalar K]

def empty : GlueStatistics K := ⟨∅⟩

def record (s : GlueStatistics K) (literals : List Int32) (glue : Nat) : GlueStatistics K :=
  let observation : K := Scalar.ofNat glue
  ⟨s.bySignature.alter (Signature.of literals) fun
    | some moments => some (moments.observe observation)
    | none => some (.single observation)⟩

/-- The moments of the glue of a clause, if it has been recorded. -/
def get? (s : GlueStatistics K) (literals : List Int32) : Option (Moments K) :=
  s.bySignature[Signature.of literals]?

def size (s : GlueStatistics K) : Nat := s.bySignature.size

/-- All clauses with their moments, in the order of their signatures. -/
def toList (s : GlueStatistics K) : List (Signature × Moments K) := s.bySignature.toList

/-- The clauses whose glue varied, in the order of their signatures. -/
def varying (s : GlueStatistics K) : List (Signature × Moments K) :=
  s.toList.filter fun (_, moments) => !Scalar.eq moments.variance Scalar.zero

end GlueStatistics

end ClauseSharing
