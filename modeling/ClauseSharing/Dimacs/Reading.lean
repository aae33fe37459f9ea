import ClauseSharing.Dimacs.FormulaBuilder
import ClauseSharing.Dimacs.Lexer

/-!
Reading the formula that some bytes spell.
-/

namespace ClauseSharing

inductive FormulaError where
  | text (error : Dimacs.LexError)
  | build (error : IntakeError)
deriving DecidableEq, Repr

def FormulaError.message : FormulaError → String
  | .text error => error.message
  | .build error => "Output(" ++ error.record ++ ")"

/-- Reads the text that the bytes spell. -/
def FormulaBuilder.read {K : Type} [Scalar K] (b : FormulaBuilder K) (bytes : List UInt8) :
    Except Breach (FormulaBuilder K × Except FormulaError Unit) := do
  match ← b.readText (.ofBytes bytes) with
  | (b, .ok ()) => return (b, .ok ())
  | (b, .error (.refused e)) => return (b, .error (.build e))
  | (b, .error (.fault (.error e))) => return (b, .error (.text e))
  | (_, .error (.fault (.breach breach))) => throw breach

end ClauseSharing
