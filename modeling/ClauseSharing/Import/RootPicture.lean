import ClauseSharing.Import.Recipient

/-!
A recipient made of plain lists: the picture that a solver shows at its root.

It serves to try a selector out without a solver. What a pass does to it can be read off its lists.
-/

namespace ClauseSharing

/-- A recipient made of plain lists. -/
structure RootPicture where
  /-- External variables up to this number are known by their own number. -/
  known : Nat
  /-- External variables that are known by another literal. -/
  renamed : List (Nat × Literal)
  forbidden : List Int32
  eliminated : List Variable
  substituted : List Variable
  /-- Literals that are true at the root. -/
  fixed : List Literal
  /-- The number of units after which the formula counts as unsatisfiable, if any. -/
  unsatAfter : Option Nat
  satisfiedAfter : Option Nat
  /-- The units assigned by the present pass, in order. -/
  units : List Literal
  /-- The clauses added by the present pass, in order. -/
  added : List Candidate

namespace RootPicture

/-- Forgets the units and clauses of the last pass. What is fixed stays fixed. -/
def beginPass (t : RootPicture) : RootPicture := { t with units := [], added := [] }

def resolve (t : RootPicture) (external : Int32) : Option Literal :=
  match t.renamed.lookup external.toInt.natAbs with
  | some literal => some (if external < 0 then literal.negate else literal)
  | none =>
    if t.known < external.toInt.natAbs then none else (Literal.ofDimacs external).toOption

def standing (t : RootPicture) (l : Literal) : Standing :=
  if l.var ∈ t.eliminated then .eliminated
  else if l.var ∈ t.substituted then .substituted
  else if l ∈ t.fixed then .fixed true
  else if l.negate ∈ t.fixed then .fixed false
  else .active

/-- Whether that many units are reached, if a number is set. -/
def reached (t : RootPicture) : Option Nat → Bool
  | some n => n ≤ t.units.length
  | none => false

instance : Recipient RootPicture where
  forbids t e := t.forbidden.contains e
  resolve := resolve
  standing := standing
  fix t l := { t with units := t.units ++ [l], fixed := t.fixed ++ [l] }
  adopt t c := { t with added := t.added ++ [c] }
  refuted t := t.reached t.unsatAfter
  isComplete t := .ok (t.reached t.satisfiedAfter)

end RootPicture

end ClauseSharing
