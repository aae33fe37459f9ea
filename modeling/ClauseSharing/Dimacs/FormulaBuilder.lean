import ClauseSharing.Dimacs.Token
import ClauseSharing.Worker.Basic

/-!
Building a worker from the tokens of a formula.

The literals of a clause are sorted and freed of repetitions, and a clause with both literals of a
variable is left out. After sorting these two literals are neighbours, so looking at neighbours is
enough to find them.

A builder may take several texts one after the other, also after a failed one. The declared number
of variables and the literals of an unfinished clause carry over.
-/

namespace ClauseSharing

inductive IntakeError where
  | noProblemLine
  | beyondDeclared (literal : Int) (declared : Nat)
  | refused (refusal : Refusal)
deriving DecidableEq, Repr

namespace IntakeError

def message : IntakeError → String
  | .noProblemLine => "missing problem line before clause inputs"
  | .beyondDeclared literal declared =>
    "literal " ++ toString literal ++ " exceeds the " ++ toString declared ++ " declared variables"
  | .refused _ => "failed to set up worker"

/-- The error as a record, for messages about the text it arose in. -/
def record : IntakeError → String
  | .noProblemLine => "MissingProblemLine"
  | .beyondDeclared literal declared =>
    Dimacs.recordText "UndeclaredVariable"
      [("literal", toString literal), ("len_variables", toString declared)]
  | .refused (.beyondCapacity requested) =>
    "Worker(" ++ Dimacs.recordText "TooManyVariables" [("requested", toString requested)] ++ ")"
  | .refused refusal => "Worker(" ++ refusal.message ++ ")"

end IntakeError

/-- Why a text was not read to its end: it has a fault, or one of its tokens was refused. -/
inductive TextError (F : Type) where
  | fault (fault : F)
  | refused (error : IntakeError)
deriving DecidableEq, Repr

/-- A clause sorted and freed of repetitions. -/
def normalizedClause (literals : List Literal) : List Literal :=
  (literals.mergeSort Literal.le).eraseReps

/-- Whether two neighbours have the same variable. -/
def hasNeighbours : List Literal → Bool
  | l :: m :: rest => l.var = m.var || hasNeighbours (m :: rest)
  | _ => false

/-- A worker under construction. -/
structure FormulaBuilder (K : Type) where
  worker : Worker K
  /-- The number of variables that the last problem line declared. -/
  declared : Option Nat
  /-- The literals of the unfinished clause. -/
  current : Array Literal
  /-- The number of clauses left out since they hold under every assignment. -/
  tautologies : Nat

namespace FormulaBuilder

variable {K : Type} [Scalar K]

def create (settings : Settings K) : Except (SettingsError K) (FormulaBuilder K) := do
  return ⟨← Worker.create settings, none, #[], 0⟩

/-- Declares variables and registers them. -/
def problem (b : FormulaBuilder K) (n : Nat) :
    Except Breach (FormulaBuilder K × Except IntakeError Unit) := do
  let b := { b with declared := some n }
  match ← b.worker.addVariables n with
  | (worker, .ok ()) => return ({ b with worker := worker }, .ok ())
  | (worker, .error refusal) => return ({ b with worker := worker }, .error (.refused refusal))

def literal (b : FormulaBuilder K) (value : Int32) :
    Except Breach (FormulaBuilder K × Except IntakeError Unit) := do
  let l ← Literal.ofDimacs value
  match b.declared with
  | none => return (b, .error .noProblemLine)
  | some declared =>
    if declared ≤ l.var.index then
      return (b, .error (.beyondDeclared (← l.toDimacs).toInt declared))
    return ({ b with current := b.current.push l }, .ok ())

def endClause (b : FormulaBuilder K) :
    Except Breach (FormulaBuilder K × Except IntakeError Unit) :=
  if b.declared.isNone then .ok (b, .error .noProblemLine)
  else
    let literals := normalizedClause b.current.toList
    let b := { b with current := #[] }
    if hasNeighbours literals then .ok ({ b with tautologies := b.tautologies + 1 }, .ok ())
    else do
      match ← b.worker.assertClause literals with
      | (worker, .ok _) => return ({ b with worker := worker }, .ok ())
      | (worker, .error refusal) => return ({ b with worker := worker }, .error (.refused refusal))

/-- Ends the text, and with it a clause that has literals. -/
def finish (b : FormulaBuilder K) :
    Except Breach (FormulaBuilder K × Except IntakeError Unit) :=
  if b.current.isEmpty then .ok (b, .ok ()) else b.endClause

def token (b : FormulaBuilder K) :
    Dimacs.Token → Except Breach (FormulaBuilder K × Except IntakeError Unit)
  | .comment => .ok (b, .ok ())
  | .problem _ variableCount _ => b.problem variableCount
  | .literal value => b.literal value
  | .clauseEnd => b.endClause

/-- Takes tokens up to the first that fails. -/
def tokens (b : FormulaBuilder K) :
    List Dimacs.Token → Except Breach (FormulaBuilder K × Except IntakeError Unit)
  | [] => .ok (b, .ok ())
  | t :: ts => do
    match ← b.token t with
    | (b, .error e) => return (b, .error e)
    | (b, .ok ()) => b.tokens ts

/-- Reads a text to its end. What stands before a fault has been taken. -/
def readText {F : Type} (b : FormulaBuilder K) (text : Dimacs.Text F) :
    Except Breach (FormulaBuilder K × Except (TextError F) Unit) := do
  match ← b.tokens text.tokens with
  | (b, .error e) => return (b, .error (.refused e))
  | (b, .ok ()) =>
    match text.fault with
    | some fault => return (b, .error (.fault fault))
    | none =>
      match ← b.finish with
      | (b, .error e) => return (b, .error (.refused e))
      | (b, .ok ()) => return (b, .ok ())

end FormulaBuilder

end ClauseSharing
