import ClauseSharing.Literal

/-!
Entries of a trail: an assigned literal and why it was assigned.
-/

namespace ClauseSharing

/-- Why a literal was assigned. -/
inductive Reason where
  /-- The search picked it and opened a decision level with it. -/
  | decision
  /-- It follows from what was assigned before. -/
  | propagation
deriving DecidableEq, Repr

structure TrailItem where
  literal : Literal
  reason : Reason
deriving DecidableEq, Repr

end ClauseSharing
