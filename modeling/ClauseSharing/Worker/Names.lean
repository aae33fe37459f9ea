import ClauseSharing.PerVariable
import ClauseSharing.Worker.Refusal
import Std.Data.TreeMap

/-!
External names of variables.

Solvers talk to each other about external variables. A new variable is named by its own number
unless that name is taken, in which case it has none; it can be renamed later. Two inverse maps
are kept, one for each direction.
-/

namespace ClauseSharing

/-- The order of external variables. -/
def compareNames (a b : Nat) : Ordering := compareOfLessAndEq a b

/-- The external names of the registered variables. -/
structure Names where
  /-- The variable behind each external variable that is in use. -/
  internal : Std.TreeMap Nat Variable compareNames
  /-- The external variable that each variable is known by, if any. -/
  external : PerVariable (Option Nat)

namespace Names

def empty : Names := ⟨∅, .empty⟩

/-- Registers one more variable, named by its number if that name is free. -/
def registerOne (names : Names) : Names :=
  match Variable.ofIndex? names.external.size with
  | none => { names with external := names.external.extend 1 none }
  | some v =>
    if names.internal.contains v.number then
      { names with external := names.external.extend 1 none }
    else
      { internal := names.internal.insert v.number v
        external := names.external.extend 1 (some v.number) }

/-- Registers more variables, one after the other. -/
def register (names : Names) : Nat → Names
  | 0 => names
  | n + 1 => names.registerOne.register n

/-- The largest external variable. -/
def maxExternal : Nat := 0x7fffffff

/-- Names a variable by an external variable, which must be free or the variable's own already. The
variable's previous name becomes unknown. -/
def rename (names : Names) (external : Nat) (v : Variable) :
    Except Breach (Names × Except Refusal Unit) :=
  if external = 0 ∨ maxExternal < external then
    .ok (names, .error (.impossibleName external))
  else
    match names.internal[external]? with
    | some owner =>
      if owner = v then .ok (names, .ok ())
      else .ok (names, .error (.nameTaken external))
    | none => do
      let previous ← names.external.fetch v
      let freed :=
        match previous with
        | some name => names.internal.erase name
        | none => names.internal
      return ({ internal := freed.insert external v
                external := names.external.set v (some external) }, .ok ())

/-- The literal behind an external literal, if its variable is in use. -/
def resolve (names : Names) (external : Int32) : Option Literal :=
  names.internal[external.toInt.natAbs]?.map fun v => Literal.ofVariable v (0 < external)

/-- The external literal of a literal, if its variable has a name. -/
def nameOf (names : Names) (l : Literal) : Option Int32 :=
  (names.external.getD l.var none).map fun (name : Nat) =>
    Int32.ofInt (if l.isPositive then name else -name)

end Names

end ClauseSharing
