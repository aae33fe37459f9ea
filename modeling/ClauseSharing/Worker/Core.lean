import ClauseSharing.Import.Recipient
import ClauseSharing.Worker.Assignment
import ClauseSharing.Worker.ClauseStore
import ClauseSharing.Worker.Names
import Std.Data.TreeSet

/-!
The part of a worker that search and import share: the assignment, which variables take part, their
names, the clauses, and the trace of what was derived.
-/

namespace ClauseSharing

/-- Whether a variable takes part in the search. -/
inductive Participation where
  | active
  | eliminated
  | substituted
deriving DecidableEq, Repr

/-- The state that search and import share. -/
structure Core where
  assignment : Assignment
  /-- Whether each variable takes part. -/
  states : PerVariable Participation
  /-- The number of variables that are not active. -/
  inactive : Nat
  names : Names
  /-- External literals that must not be imported. -/
  forbidden : Std.TreeSet Int32 compareExternals
  store : ClauseStore
  /-- The derived clauses by their external literals, if a tracer has been set. -/
  trace : Option (Array (List Int32))
  /-- Whether the empty clause has been derived. -/
  refuted : Bool

namespace Core

def empty : Core :=
  { assignment := .empty, states := .empty, inactive := 0, names := .empty, forbidden := ∅
    store := .empty, trace := none, refuted := false }

def size (c : Core) : Nat := c.assignment.values.size

def registered (c : Core) (v : Variable) : Bool := c.assignment.values.has v

/-- Requires the variable to be registered. -/
def require (c : Core) (v : Variable) : Except Breach Unit :=
  if c.registered v then .ok () else .error .unregistered

/-- Registers more variables, which are active and unassigned. -/
def register (c : Core) (n : Nat) : Core :=
  { c with
    assignment := c.assignment.register n
    states := c.states.extend n .active
    names := c.names.register n
    store := c.store.register n }

def stateOf (c : Core) (v : Variable) : Participation := c.states.getD v .active

/-- Assigns a literal at the present level. A conflict at the root makes the state unsatisfiable. -/
def assign (c : Core) (l : Literal) (reason : Reason) : Core × Except Clash Unit :=
  match c.assignment.truth l with
  | some true => (c, .error .agreeing)
  | some false =>
    ({ c with refuted := c.refuted || c.assignment.level == 0 }, .error .opposing)
  | none => ({ c with assignment := c.assignment.push l reason }, .ok ())

/-- Takes an unassigned variable out of the search; nothing changes for one that is out already. -/
def retire (c : Core) (v : Variable) (state : Participation) : Core :=
  if c.stateOf v = .active then
    { c with states := c.states.set v state, inactive := c.inactive + 1 }
  else c

/-- The external image of a clause. Literals without external name are left out. -/
def externalImage (c : Core) (literals : List Literal) : List Int32 :=
  literals.filterMap c.names.nameOf

/-- Hands a derived clause to the tracer, if there is one. -/
def traceDerived (c : Core) (literals : List Literal) : Core :=
  { c with trace := c.trace.map (·.push (c.externalImage literals)) }

/-- Stores a clause of two or more literals. Derived clauses are traced. -/
def insertClause (c : Core) (clause : StoredClause) : Core :=
  let c := { c with store := c.store.add clause }
  if clause.isDerived then c.traceDerived clause.literals else c

/-- Whether the clause has a true literal, or one whose variable is not active. The literals are
looked at in order, up to the first such literal. -/
def clauseSatisfied (c : Core) (literals : List Literal) : Except Breach Bool :=
  literals.anyM fun l => do
    let state ← c.states.fetch l.var
    return state != .active || c.assignment.truth l == some true

/-- Whether every active variable is assigned and every clause of the formula satisfied. A clause
with an inactive variable counts as satisfied. -/
def isComplete (c : Core) : Except Breach Bool :=
  if c.refuted || c.assignment.trail.size + c.inactive != c.size then .ok false
  else (c.store.clauses.toList.filter fun clause => !clause.isDerived).allM fun clause =>
    c.clauseSatisfied clause.literals

/-- The standing of a literal at the root. -/
def standingOf (c : Core) (l : Literal) : Standing :=
  match c.stateOf l.var with
  | .eliminated => .eliminated
  | .substituted => .substituted
  | .active =>
    if c.assignment.levelOf l.var = some 0 then
      .fixed (c.assignment.truth l == some true)
    else .active

/-- Assigns a derived unit at the root and traces it. -/
def fix (c : Core) (l : Literal) : Core :=
  (c.assign l .propagation).1.traceDerived [l]

instance : Recipient Core where
  forbids c external := c.forbidden.contains external
  resolve c := c.names.resolve
  standing := standingOf
  fix := fix
  adopt c candidate := c.insertClause ⟨candidate.literals, candidate.glue, .imported⟩
  refuted c := c.refuted
  isComplete := isComplete

end Core

end ClauseSharing
