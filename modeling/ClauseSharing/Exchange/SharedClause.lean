import ClauseSharing.Exchange.Stream
import ClauseSharing.Exchange.Word

/-!
Clauses as solvers send them to each other.

A clause is its literals, the word zero, and its glue. There is no count in front: zero is no
literal, so it ends the literals.
-/

namespace ClauseSharing

/-- A clause on its way between two solvers. -/
structure SharedClause where
  /-- The literals, by the numbers that all solvers agree on. -/
  literals : List Int32
  glue : Int32
deriving DecidableEq, Repr

namespace SharedClause

/-- The words of the clause on the wire. -/
def words (c : SharedClause) : List Int32 := c.literals ++ [0, c.glue]

def encode (c : SharedClause) : List UInt8 := c.words.flatMap Word.toBytes

/-- The payload that offers the clause to a pass: the literal of a unit, and the glue in front of
the literals of a longer clause. The glue of a unit is dropped. -/
def payload (c : SharedClause) : List Int32 :=
  match c.literals with
  | [] => []
  | [literal] => [literal]
  | literals => c.glue :: literals

end SharedClause

inductive TransportError where
  | stream (fault : StreamFault)
  /-- The stream took only some of the bytes offered. -/
  | partlyTaken (expected written : Nat)
  | cutOff
deriving DecidableEq, Repr

def TransportError.message : TransportError → String
  | .stream _ => "clause transport failed"
  | .partlyTaken expected written =>
    "partial write of " ++ toString written ++ " out of " ++ toString expected ++ " bytes"
  | .cutOff => "clause stream ended in the middle of a clause"

end ClauseSharing
