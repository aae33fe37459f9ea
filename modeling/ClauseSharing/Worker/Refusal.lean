import ClauseSharing.Import.Payload
import ClauseSharing.Literal

/-!
Ordinary errors of a worker's operations.
-/

namespace ClauseSharing

inductive Refusal where
  /-- Clauses can only come in at the root. -/
  | aboveRoot (level : Nat)
  | beyondCapacity (requested : Nat)
  | impossibleName (external : Nat)
  | nameTaken (external : Nat)
  | assignedVariable (v : Variable)
  | retiredVariable (v : Variable)
  /-- A pass met a malformed payload. -/
  | malformedPayload (error : PayloadError)
deriving DecidableEq, Repr

namespace Refusal

def message : Refusal → String
  | .aboveRoot level =>
    "clauses can only be added at decision level 0 but the worker is at level " ++ toString level
  | .beyondCapacity requested =>
    "cannot register " ++ toString requested ++ " variables in total"
  | .impossibleName external => "invalid external variable " ++ toString external
  | .nameTaken external =>
    "external variable " ++ toString external ++ " is already in use"
  | .assignedVariable v => "variable " ++ toString v.number ++ " is already assigned"
  | .retiredVariable v => "variable " ++ toString v.number ++ " does not take part in search"
  | .malformedPayload _ => "failed to import clauses"

/-- The error behind a refusal, if there is one. -/
def cause? : Refusal → Option PayloadError
  | .malformedPayload error => some error
  | _ => none

end Refusal

/-- Why a literal could not be assigned. -/
inductive Clash where
  /-- The literal is true already. -/
  | agreeing
  /-- The literal is false. -/
  | opposing
deriving DecidableEq, Repr

/-- Whether the literal is false, so that the search is in conflict. -/
def Clash.isOpposing (e : Clash) : Bool := e = .opposing

end ClauseSharing
