import ClauseSharing.Dimacs.Reading
import ClauseSharing.Exchange.SharedClause

/-!
Everything that can go wrong between a formula, a clause stream and a worker, with the chain of its
causes.
-/

namespace ClauseSharing

inductive Failure (K : Type) where
  | settings (error : SettingsError K)
  | payload (error : PayloadError)
  | transport (error : TransportError)
  | worker (refusal : Refusal)
  | formula (error : FormulaError)

variable {K : Type} [Scalar K]

namespace Failure

def message : Failure K → String
  | .settings _ => "invalid configuration"
  | .payload _ => "clause import failed"
  | .transport _ => "clause transport failed"
  | .worker _ => "worker hook failed"
  | .formula error => "invalid DIMACS input: " ++ error.message

def causes : Failure K → List String
  | .settings error => [error.message]
  | .payload error => [error.message]
  | .transport (.stream fault) => [(TransportError.stream fault).message, fault.text]
  | .transport error => [error.message]
  | .worker refusal => refusal.message :: refusal.cause?.toList.map PayloadError.message
  | .formula _ => []

end Failure

/-- A worker with the given options and the formula of a text. -/
def Worker.ofFormula (settings : Settings K) (bytes : List UInt8) :
    Except Breach (Except (Failure K) (Worker K)) :=
  match FormulaBuilder.create settings with
  | .error e => .ok (.error (.settings e))
  | .ok b => do
    match ← b.read bytes with
    | (_, .error e) => return .error (.formula e)
    | (b, .ok ()) => return .ok b.worker

end ClauseSharing
