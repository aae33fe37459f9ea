/-!
Calls outside an operation's contract.

An operation either answers, refuses (an ordinary error, which the caller is expected to handle), or
was called in a way its contract excludes. The last case is a *breach*: it is data like any other
answer, so that the theory can say exactly which calls cause one.
-/

namespace ClauseSharing

/-- How a caller left an operation's contract. -/
inductive Breach where
  /-- A plain precondition failed, such as the zero literal or a decay rate outside `(0, 1]`. -/
  | precondition
  /-- A whole number left the fixed width it is kept in. -/
  | overflow
  /-- A variable was used that has no slot in the table it indexes. -/
  | unregistered
  | upwardBackjump (level : Nat)
  /-- A stability record was synchronized to a tick before its last one. -/
  | backdated (variableNumber : Nat)
deriving DecidableEq, Repr

/-- The report of a breach. Failed preconditions and overflows carry no text of their own. -/
def Breach.message? : Breach → Option String
  | .precondition | .overflow => none
  | .unregistered => some "encountered unregistered variable: OutOfBoundsAccess"
  | .upwardBackjump level => some s!"tried to backjump upwards to decision level {level}"
  | .backdated number => some s!"tried to back-date stability record of variable {number}"

theorem bind_eq_ok_iff {ε α β : Type} {x : Except ε α} {f : α → Except ε β} {b : β} :
    (x >>= f) = .ok b ↔ ∃ a, x = .ok a ∧ f a = .ok b := by
  constructor
  · intro h
    cases x with
    | error e => cases h
    | ok a => exact ⟨a, rfl, h⟩
  · rintro ⟨a, rfl, h⟩
    exact h

theorem bind_eq_error_iff {ε α β : Type} {x : Except ε α} {f : α → Except ε β} {e : ε} :
    (x >>= f) = .error e ↔ x = .error e ∨ ∃ a, x = .ok a ∧ f a = .error e := by
  constructor
  · intro h
    cases x with
    | error e' =>
      cases h
      exact .inl rfl
    | ok a => exact .inr ⟨a, rfl, h⟩
  · rintro (rfl | ⟨a, rfl, h⟩)
    · rfl
    · exact h

def fitsWord64 (n : Int) : Bool :=
  -0x8000000000000000 ≤ n && n < 0x8000000000000000

/-- Keeps a whole number in 64 bits with a sign; leaving that range is a breach. -/
def inWord64 (n : Int) : Except Breach Int :=
  if fitsWord64 n then .ok n else .error .overflow

theorem inWord64_eq_ok_iff {n m : Int} :
    inWord64 n = .ok m ↔ m = n ∧ -0x8000000000000000 ≤ n ∧ n < 0x8000000000000000 := by
  unfold inWord64 fitsWord64
  split
  · rename_i h
    simp only [Bool.and_eq_true, decide_eq_true_eq] at h
    simp only [Except.ok.injEq]
    exact ⟨fun e => ⟨e.symm, h⟩, fun e => e.1.symm⟩
  · rename_i h
    simp only [Bool.and_eq_true, decide_eq_true_eq] at h
    simp only [reduceCtorEq, false_iff]
    exact fun e => h e.2

end ClauseSharing
