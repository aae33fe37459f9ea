import ClauseSharing.PerVariable

/-!
Stored clauses and who watches what.

A clause is identified by its position in the order of addition. Its first two literals are watched:
each of them lists the clause, together with the other one as a literal whose truth makes a visit
needless.
-/

namespace ClauseSharing

/-- Where a stored clause comes from. -/
inductive ClauseKind where
  /-- The clause belongs to the formula. -/
  | input
  /-- The clause was learned by this worker. -/
  | learned
  /-- The clause was learned by another worker. -/
  | imported
deriving DecidableEq, Repr

structure StoredClause where
  literals : List Literal
  glue : Nat
  kind : ClauseKind
deriving DecidableEq, Repr

namespace StoredClause

/-- Whether the clause follows from the formula, so that it may be removed. -/
def isDerived (c : StoredClause) : Bool := c.kind != .input

/-- Whether the clause was learned by another worker. -/
def isForeign (c : StoredClause) : Bool := c.kind == .imported

end StoredClause

/-- A clause that watches a literal. -/
structure Watcher where
  clause : Nat
  /-- The other watched literal of the clause. -/
  blocker : Literal
deriving DecidableEq, Repr

/-- The watchers of the two literals of a variable. -/
structure WatcherPair where
  positive : Array Watcher
  negative : Array Watcher
deriving DecidableEq, Repr

namespace WatcherPair

def empty : WatcherPair := ⟨#[], #[]⟩

def of (p : WatcherPair) (positive : Bool) : Array Watcher :=
  if positive then p.positive else p.negative

def push (p : WatcherPair) (positive : Bool) (w : Watcher) : WatcherPair :=
  if positive then { p with positive := p.positive.push w }
  else { p with negative := p.negative.push w }

end WatcherPair

/-- The clauses of a worker. -/
structure ClauseStore where
  /-- The clauses in the order of their addition. -/
  clauses : Array StoredClause
  imported : Nat
  /-- The watchers of each variable's literals. -/
  watchers : PerVariable WatcherPair

namespace ClauseStore

def empty : ClauseStore := ⟨#[], 0, .empty⟩

/-- The clause with the identifier, if there is one. -/
def resolve (s : ClauseStore) (id : Nat) : Option StoredClause := s.clauses[id]?

/-- Pairs clauses with identifiers that count up from `id`. -/
def numberFrom (id : Nat) : List StoredClause → List (Nat × StoredClause)
  | [] => []
  | clause :: rest => (id, clause) :: numberFrom (id + 1) rest

/-- All clauses with their identifiers, in the order of their addition. -/
def entries (s : ClauseStore) : List (Nat × StoredClause) := numberFrom 0 s.clauses.toList

/-- Registers more variables, whose literals nothing watches. -/
def register (s : ClauseStore) (n : Nat) : ClauseStore :=
  { s with watchers := s.watchers.extend n .empty }

def watchersOf (s : ClauseStore) (l : Literal) : Array Watcher :=
  (s.watchers.getD l.var .empty).of l.isPositive

def watch (s : ClauseStore) (l : Literal) (w : Watcher) : ClauseStore :=
  { s with watchers := s.watchers.modify l.var fun p => p.push l.isPositive w }

/-- Adds a clause and watches its first two literals. -/
def add (s : ClauseStore) (c : StoredClause) : ClauseStore :=
  let id := s.clauses.size
  let s :=
    { s with
      clauses := s.clauses.push c
      imported := if c.isForeign then s.imported + 1 else s.imported }
  match c.literals with
  | first :: second :: _ => (s.watch first ⟨id, second⟩).watch second ⟨id, first⟩
  | _ => s

end ClauseStore

end ClauseSharing
