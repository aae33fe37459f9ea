/-!
Byte streams that follow a plan.

A stream may serve a call in part or fail it. What it does is written down in advance, one step
for each call, and once the plan is used up every call is served in full. Reading a file whole is
the empty plan; any behaviour of a real stream during a finite run is some plan.
-/

namespace ClauseSharing

structure StreamFault where
  /-- Whether the call was only interrupted and may be repeated. -/
  interrupted : Bool
  text : String
deriving DecidableEq, Repr

/-- What a stream does to one call. -/
inductive StreamStep where
  /-- Serves the call, but at most so many bytes of it. -/
  | atMost (limit : Nat)
  | fails (fault : StreamFault)
deriving DecidableEq, Repr

/-- A stream to read from. -/
structure Source where
  plan : List StreamStep
  bytes : List UInt8
deriving DecidableEq, Repr

/-- Reads into a buffer with the given room. No bytes mean the end of the stream. -/
def Source.read (s : Source) (room : Nat) : Source × Except StreamFault (List UInt8) :=
  match s.plan with
  | [] => (⟨[], s.bytes.drop room⟩, .ok (s.bytes.take room))
  | .atMost limit :: plan =>
    (⟨plan, s.bytes.drop (min limit room)⟩, .ok (s.bytes.take (min limit room)))
  | .fails fault :: plan => (⟨plan, s.bytes⟩, .error fault)

/-- A stream to write to. -/
structure Sink where
  plan : List StreamStep
  taken : List UInt8
  calls : Nat
deriving DecidableEq, Repr

namespace Sink

def ofPlan (plan : List StreamStep) : Sink := ⟨plan, [], 0⟩

/-- Offers bytes; the answer is how many of them were taken. -/
def write (s : Sink) (bytes : List UInt8) : Sink × Except StreamFault Nat :=
  match s.plan with
  | [] => (⟨[], s.taken ++ bytes, s.calls + 1⟩, .ok bytes.length)
  | .atMost limit :: plan =>
    (⟨plan, s.taken ++ bytes.take limit, s.calls + 1⟩, .ok (min limit bytes.length))
  | .fails fault :: plan => (⟨plan, s.taken, s.calls + 1⟩, .error fault)

def flush (s : Sink) : Sink × Except StreamFault Unit :=
  match s.plan with
  | [] => (⟨[], s.taken, s.calls + 1⟩, .ok ())
  | .atMost _ :: plan => (⟨plan, s.taken, s.calls + 1⟩, .ok ())
  | .fails fault :: plan => (⟨plan, s.taken, s.calls + 1⟩, .error fault)

end Sink

theorem Source.read_bytes {s s' : Source} {room : Nat} {got : List UInt8}
    (h : s.read room = (s', .ok got)) : got ++ s'.bytes = s.bytes := by
  unfold read at h
  split at h <;> cases h <;> simp

theorem Source.length_read_le {s s' : Source} {room : Nat} {got : List UInt8}
    (h : s.read room = (s', .ok got)) : got.length ≤ room := by
  unfold read at h
  split at h <;> cases h <;> simp only [List.length_take] <;> omega

/-- A call either uses up a step of the plan, or there is none left. -/
theorem Source.plan_read {s s' : Source} {room : Nat} {r : Except StreamFault (List UInt8)}
    (h : s.read room = (s', r)) :
    s'.plan.length < s.plan.length ∨ s.plan = [] ∧ s'.plan = [] ∧ ∃ got, r = .ok got := by
  unfold read at h
  split at h <;> cases h
  · rename_i hp
    exact .inr ⟨hp, rfl, _, rfl⟩
  · rename_i hp
    exact .inl (by simp [hp])
  · rename_i hp
    exact .inl (by simp [hp])

end ClauseSharing
