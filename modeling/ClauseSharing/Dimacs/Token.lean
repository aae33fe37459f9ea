/-!
Tokens of the DIMACS format for formulas, and the texts that they make.
-/

namespace ClauseSharing.Dimacs

/-- A token of a formula. -/
inductive Token where
  | comment
  /-- The line that declares the numbers of variables and clauses; `start` is the place of its
  `p`. -/
  | problem (start variableCount clauseCount : Nat)
  /-- A literal. It is not zero, and its negative is a 32-bit number as well. -/
  | literal (value : Int32)
  /-- The zero that ends a clause. -/
  | clauseEnd
deriving DecidableEq, Repr

/-- A text that has been cut into tokens: those up to its end, or up to the fault at which the
cutting stopped. -/
structure Text (F : Type) where
  tokens : List Token
  fault : Option F
deriving DecidableEq, Repr

/-- A record of the given name and fields, as it stands in messages. -/
def recordText (name : String) (fields : List (String × String)) : String :=
  name ++ " \x7b " ++ ", ".intercalate (fields.map fun (field, value) => field ++ ": " ++ value) ++
    " \x7d"

end ClauseSharing.Dimacs
