import ClauseSharing.Literal

/-!
What a pass reads from and writes into.
-/

namespace ClauseSharing

/-- The standing of a literal at the root of the search. -/
inductive Standing where
  /-- The variable takes part in the search and is not fixed. -/
  | active
  /-- The variable has been replaced by an equivalent one. -/
  | substituted
  /-- The variable has been eliminated and must not come back. -/
  | eliminated
  /-- The variable is fixed at the root, with the literal having the given value. -/
  | fixed (value : Bool)
deriving DecidableEq, Repr

/-- A clause that passed the filter. -/
structure Candidate where
  literals : List Literal
  glue : Nat
deriving DecidableEq, Repr

/-- The literals and the terminator: what importing the clause costs. -/
def Candidate.charge (c : Candidate) : Nat := c.literals.length + 1

/-- A solver that clauses can be imported into. -/
class Recipient (T : Type) where
  /-- Whether clauses with this external literal must not be imported. -/
  forbids : T → Int32 → Bool
  /-- The literal that the external literal stands for, if its variable is known. -/
  resolve : T → Int32 → Option Literal
  standing : T → Literal → Standing
  /-- Assigns an active literal at the root. -/
  fix : T → Literal → T
  /-- Adds a clause that follows from the formula. -/
  adopt : T → Candidate → T
  /-- Whether the formula has been found unsatisfiable. -/
  refuted : T → Bool
  /-- Whether a satisfying assignment has been found. -/
  isComplete : T → Except Breach Bool

end ClauseSharing
