import ClauseSharing.PerVariable
import ClauseSharing.TrailItem
import ClauseSharing.Worker.Refusal

/-!
The assignment of a search.

The trail lists the assigned literals in the order of their assignment and is divided into
decision levels. The value and the level of each variable are kept beside it. The level of an
unassigned variable means nothing.
-/

namespace ClauseSharing

/-- The values of the variables and how they came about. -/
structure Assignment where
  /-- The value of each variable that is assigned. -/
  values : PerVariable (Option Bool)
  /-- The level at which each variable was last assigned. -/
  levels : PerVariable Nat
  /-- The assigned literals, oldest first. -/
  trail : Array TrailItem
  /-- The length of the trail when each level above the root was opened. -/
  levelStarts : Array Nat

namespace Assignment

def empty : Assignment := ⟨.empty, .empty, #[], #[]⟩

/-- Registers more variables, which are unassigned. -/
def register (a : Assignment) (n : Nat) : Assignment :=
  { a with values := a.values.extend n none, levels := a.levels.extend n 0 }

/-- The present decision level. The root is level zero. -/
def level (a : Assignment) : Nat := a.levelStarts.size

/-- The value of a variable, if it is assigned. -/
def value (a : Assignment) (v : Variable) : Option Bool := a.values.getD v none

/-- The value of a literal, if its variable is assigned. -/
def truth (a : Assignment) (l : Literal) : Option Bool :=
  (a.value l.var).map (· == l.isPositive)

/-- The level of a variable, if it is assigned. -/
def levelOf (a : Assignment) (v : Variable) : Option Nat :=
  (a.value v).map fun _ => a.levels.getD v 0

def openLevel (a : Assignment) : Assignment :=
  { a with levelStarts := a.levelStarts.push a.trail.size }

/-- Assigns an unassigned literal at the present level. -/
def push (a : Assignment) (l : Literal) (reason : Reason) : Assignment :=
  { a with
    values := a.values.set l.var (some l.isPositive)
    levels := a.levels.set l.var a.level
    trail := a.trail.push ⟨l, reason⟩ }

/-- The number of assigned literals at the given level or below. A level above the present one is a
breach. -/
def startOf (a : Assignment) (level : Nat) : Except Breach Nat :=
  if level ≤ a.level then .ok (a.levelStarts.getD level a.trail.size)
  else .error (.upwardBackjump level)

/-- Removes the entries of the trail from `start` on, newest first, and the levels above `level`. -/
def cut (a : Assignment) (level start : Nat) : Assignment :=
  { a with
    values := (a.trail.toList.drop start).foldr (fun e vs => vs.set e.literal.var none) a.values
    trail := a.trail.extract 0 start
    levelStarts := a.levelStarts.extract 0 level }

end Assignment

end ClauseSharing
