import ClauseSharing.Import.Report

/-!
Filtering one offered clause against the recipient.

The literals are looked at in the order of the payload until one of them disqualifies the clause.
A literal that is false at the root is removed. What remains is a candidate, a unit, or nothing.
-/

namespace ClauseSharing

open Recipient

inductive Discard where
  | forbidden
  | unknown
  | eliminated
  | satisfied
  | falsified
deriving DecidableEq, Repr

/-- What a literal of an offered clause means for the clause. -/
inductive LiteralVerdict where
  | disqualifies (reason : Discard)
  /-- The literal is false at the root and is removed. -/
  | falsified
  /-- The literal stays, in its internal form. -/
  | kept (literal : Literal)
deriving DecidableEq, Repr

/-- What is known about an offered clause after looking at its literals. -/
structure Survey where
  /-- The literals that stay, in both forms. -/
  kept : List (Int32 × Literal)
  /-- The number of removed literals. -/
  dropped : Nat
  /-- What disqualified the clause, if anything did. -/
  disqualified : Option Discard
deriving DecidableEq, Repr

inductive Verdict where
  | discarded (reason : Discard)
  /-- One literal stays; the unit is given in its external form. -/
  | unit (external : Int32)
  | candidate (literals : List Literal)
deriving DecidableEq, Repr

variable {T : Type} [Recipient T]

/-- Judges one external literal. -/
def LiteralVerdict.of (recipient : T) (external : Int32) : LiteralVerdict :=
  if forbids recipient external then .disqualifies .forbidden
  else
    match resolve recipient external with
    | none => .disqualifies .unknown
    | some literal =>
      match standing recipient literal with
      | .eliminated => .disqualifies .eliminated
      | .fixed true => .disqualifies .satisfied
      | .fixed false => .falsified
      | .active | .substituted => .kept literal

/-- Looks at the literals one after the other until one disqualifies the clause. -/
def Survey.of (recipient : T) : List Int32 → Survey
  | [] => ⟨[], 0, none⟩
  | external :: rest =>
    match LiteralVerdict.of recipient external with
    | .disqualifies reason => ⟨[], 0, some reason⟩
    | .falsified =>
      let survey := Survey.of recipient rest
      { survey with dropped := survey.dropped + 1 }
    | .kept literal =>
      let survey := Survey.of recipient rest
      { survey with kept := (external, literal) :: survey.kept }

def Survey.verdict (s : Survey) : Verdict :=
  match s.disqualified, s.kept with
  | some reason, _ => .discarded reason
  | none, [] => .discarded .falsified
  | none, [(external, _)] => .unit external
  | none, kept => .candidate (kept.map (·.2))

/-- The literal to assign for an offered unit, if the recipient can take it. -/
def unitToAssign (recipient : T) (external : Int32) : Option Literal :=
  if forbids recipient external then none
  else
    match resolve recipient external with
    | none => none
    | some literal => if standing recipient literal = .active then some literal else none

end ClauseSharing
