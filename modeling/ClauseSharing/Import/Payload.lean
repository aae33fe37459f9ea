/-!
What a payload offers.

A payload is a list of words: one literal for a unit clause, and the glue followed by the literals
for a longer one. Literals are the numbers by which the solvers know the variables among each other.
-/

namespace ClauseSharing

inductive PayloadError where
  | noWords
  /-- The glue of a clause of two or more literals is not positive. -/
  | badGlue (glue : Int32)
  /-- Zero stands where a literal should. -/
  | zeroAmongLiterals
deriving DecidableEq, Repr

def PayloadError.message : PayloadError → String
  | .noWords => "received an empty external clause"
  | .badGlue glue =>
    "received a non-unit external clause with invalid glue " ++ toString glue.toInt
  | .zeroAmongLiterals => "received an external clause containing the zero literal"

/-- A clause that a well-formed payload offers. -/
inductive Offer where
  | unit (external : Int32)
  | clause (glue : Nat) (externals : List Int32)
deriving DecidableEq, Repr

/-- Reads a payload. The glue is checked before the literals. -/
def Offer.ofPayload : List Int32 → Except PayloadError Offer
  | [] => .error .noWords
  | [external] => if external = 0 then .error .zeroAmongLiterals else .ok (.unit external)
  | glue :: externals =>
    if glue ≤ 0 then .error (.badGlue glue)
    else if externals.contains 0 then .error .zeroAmongLiterals
    else .ok (.clause glue.toInt.toNat externals)

end ClauseSharing
