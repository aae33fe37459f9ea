import ClauseSharing.Exchange.Stream

/-!
Text sinks of bounded capacity.

A sink takes as much of a text as fits, and fails only when not even one character of it does. All
texts written here are ASCII, so a character is a byte.

Main statement: `writeAll_eq` says what writing a whole text comes to. The sink stores what fits
of it and fails exactly if something does not.
-/

namespace ClauseSharing

/-- A sink for text. -/
structure TextSink where
  /-- The number of characters the sink stores at most; unlimited if absent. -/
  capacity : Option Nat
  /-- Whether passing the text on fails. -/
  flushFails : Bool
  stored : List Char
deriving DecidableEq, Repr

namespace TextSink

def ofCapacity (capacity : Option Nat) (flushFails : Bool) : TextSink := ⟨capacity, flushFails, []⟩

def full : StreamFault := ⟨false, "full"⟩

def noFlush : StreamFault := ⟨false, "no flush"⟩

def text (s : TextSink) : String := String.ofList s.stored

/-- How many of `n` characters fit. -/
def fitting (s : TextSink) (n : Nat) : Nat :=
  match s.capacity with
  | some capacity => min n (capacity - s.stored.length)
  | none => n

/-- Stores what fits of a text; the answer is how much that was. -/
def write (s : TextSink) (cs : List Char) : TextSink × Except StreamFault Nat :=
  if s.fitting cs.length = 0 ∧ cs ≠ [] then (s, .error full)
  else
    ({ s with stored := s.stored ++ cs.take (s.fitting cs.length) }, .ok (s.fitting cs.length))

theorem write_pos {s s' : TextSink} {cs : List Char} {n : Nat} (h : s.write cs = (s', .ok n))
    (hcs : cs ≠ []) : 0 < n := by
  unfold write at h
  split at h
  · cases h
  · rename_i hn
    cases h
    exact Nat.pos_of_ne_zero fun e => hn ⟨e, hcs⟩

/-- Writes until the whole text is stored or a call fails. -/
def writeAll (s : TextSink) (cs : List Char) : TextSink × Except StreamFault Unit :=
  if _hcs : cs = [] then (s, .ok ())
  else
    match _h : s.write cs with
    | (s', .error fault) => (s', .error fault)
    | (s', .ok n) => s'.writeAll (cs.drop n)
termination_by cs.length
decreasing_by
  have := write_pos _h _hcs
  have := List.length_pos_iff.mpr _hcs
  simp only [List.length_drop]
  omega

/-- Writes the pieces one after the other until one fails. -/
def writePieces (s : TextSink) : List String → TextSink × Except StreamFault Unit
  | [] => (s, .ok ())
  | piece :: rest =>
    match s.writeAll piece.toList with
    | (s, .error fault) => (s, .error fault)
    | (s, .ok ()) => s.writePieces rest

def flush (s : TextSink) : Except StreamFault Unit :=
  if s.flushFails then .error noFlush else .ok ()

theorem writeAll_of_fitting_zero {s : TextSink} {cs : List Char} (hcs : cs ≠ [])
    (h : s.fitting cs.length = 0) : s.writeAll cs = (s, .error full) := by
  have hw : s.write cs = (s, .error full) := by simp [write, h, hcs]
  rw [writeAll, dif_neg hcs]
  split <;> rename_i h' <;> rw [hw] at h' <;> cases h'
  rfl

/-- Writing a text stores what fits of it, and fails exactly if something does not. -/
theorem writeAll_eq (s : TextSink) (cs : List Char) :
    s.writeAll cs =
      ({ s with stored := s.stored ++ cs.take (s.fitting cs.length) },
        if s.fitting cs.length = cs.length then .ok () else .error full) := by
  by_cases hcs : cs = []
  · subst hcs
    have : s.fitting 0 = 0 := by unfold fitting; split <;> simp
    simp [writeAll, this]
  by_cases h0 : s.fitting cs.length = 0
  · rw [writeAll_of_fitting_zero hcs h0, h0]
    have hl : (0 : Nat) ≠ cs.length := fun e => hcs (List.eq_nil_of_length_eq_zero e.symm)
    simp [hl]
  have hle : s.fitting cs.length ≤ cs.length := by unfold fitting; split <;> omega
  have hw : s.write cs =
      ({ s with stored := s.stored ++ cs.take (s.fitting cs.length) },
        .ok (s.fitting cs.length)) := by
    simp [write, h0]
  rw [writeAll, dif_neg hcs]
  split <;> rename_i h' <;> rw [hw] at h' <;> cases h'
  by_cases hall : s.fitting cs.length = cs.length
  · rw [hall, List.drop_length]
    simp [writeAll]
  · have hrest : cs.drop (s.fitting cs.length) ≠ [] := by
      intro e
      have := congrArg List.length e
      simp only [List.length_drop, List.length_nil] at this
      omega
    rw [writeAll_of_fitting_zero hrest]
    · simp [hall]
    · cases hc : s.capacity with
      | none => exact absurd (by simp [fitting, hc]) hall
      | some c =>
        simp only [fitting, hc] at hall
        simp only [fitting, hc, List.length_drop, List.length_append, List.length_take]
        omega

end TextSink

end ClauseSharing
