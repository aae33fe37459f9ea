import ClauseSharing.Diagnostics.TextSink
import ClauseSharing.Scalar

/-!
Diagnostic samples, and where a worker writes them.

A recorder is any state with a write for the samples of learned clauses and one for those of
conflicting clauses. The journal is the recorder that writes them as comma separated rows, to a
stream each. Both streams start with a row that names their columns.
-/

namespace ClauseSharing

open Scalar

/-- The fuzzy glue of a learned clause next to its glue. -/
structure GlueSample (K : Type) where
  fuzzy : K
  expected : Nat
  size : Nat

/-- The estimates for a conflicting clause. -/
structure ConflictEstimate (K : Type) where
  probability : K
  satisfactionSum : K
  size : Nat

variable {K : Type} [Scalar K]

def GlueSample.error (s : GlueSample K) : K := abs (s.fuzzy - ofNat s.expected)

/-- The row of a learned clause, piece by piece. -/
def GlueSample.row (s : GlueSample K) : List String :=
  [text s.fuzzy, ", ", toString s.expected, ", ", text s.error, ", ", toString s.size, "\n"]

/-- The row of a conflicting clause, piece by piece. -/
def ConflictEstimate.row (s : ConflictEstimate K) : List String :=
  [text s.probability, ", ", text s.satisfactionSum, ", ", toString s.size, "\n"]

/-- A state that diagnostic samples are written to. A write may fail, and may change the state in
any way whether it does or not. -/
class Recorder (R K : Type) where
  writeGlue : R → GlueSample K → R × Except StreamFault Unit
  writeConflict : R → ConflictEstimate K → R × Except StreamFault Unit

/-- Two streams that diagnostic samples are written to as rows. -/
structure Journal where
  glue : TextSink
  conflict : TextSink
deriving DecidableEq, Repr

namespace Journal

def glueHeader : String := "fuzzy, expected, error, size\n"

def conflictHeader : String := "fuzzy, sum, size\n"

/-- Starts both streams with the names of their columns. -/
def create (glue conflict : TextSink) : Journal × Except StreamFault Unit :=
  match glue.writePieces [glueHeader] with
  | (glue, .error fault) => (⟨glue, conflict⟩, .error fault)
  | (glue, .ok ()) =>
    let (conflict, result) := conflict.writePieces [conflictHeader]
    (⟨glue, conflict⟩, result)

def writeGlue (r : Journal) (s : GlueSample K) : Journal × Except StreamFault Unit :=
  let (glue, result) := r.glue.writePieces s.row
  ({ r with glue := glue }, result)

def writeConflict (r : Journal) (s : ConflictEstimate K) : Journal × Except StreamFault Unit :=
  let (conflict, result) := r.conflict.writePieces s.row
  ({ r with conflict := conflict }, result)

/-- Passes both streams on, that of the learned clauses first. -/
def finish (r : Journal) : Except StreamFault Unit := do
  r.glue.flush
  r.conflict.flush

end Journal

instance : Recorder Journal K where
  writeGlue := Journal.writeGlue
  writeConflict := Journal.writeConflict

end ClauseSharing
