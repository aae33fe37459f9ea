import ClauseSharing.Worker.Core

/-!
How the assignment of a worker changes.

The value of a variable after each change of the assignment (`value_register`, `value_push`,
`value_cut`), what assigning a literal can come to (`Core.assign_cases`), and what adding a clause
leaves alone.
-/

namespace ClauseSharing

namespace Assignment

/-! ## Values -/

@[simp] theorem value_register (a : Assignment) (n : Nat) (v : Variable) :
    (a.register n).value v = a.value v := by
  simp only [value, register, PerVariable.getD, PerVariable.get?_extend]
  split
  · rfl
  · next h =>
    have hnone : a.values.get? v = none := by
      rw [PerVariable.get?_eq_none_iff, Bool.eq_false_iff]
      exact fun hv => h (PerVariable.has_iff.mp hv)
    split <;> simp [hnone]

theorem value_push (a : Assignment) (l : Literal) (reason : Reason) (v : Variable) :
    (a.push l reason).value v =
      if l.var = v ∧ a.values.has l.var = true then some l.isPositive else a.value v := by
  simp only [value, push, PerVariable.getD, PerVariable.get?_set]
  split <;> rfl

theorem value_push_of_ne {a : Assignment} {l : Literal} {v : Variable} (h : v ≠ l.var)
    (reason : Reason) : (a.push l reason).value v = a.value v := by
  rw [value_push, if_neg fun hv => h hv.1.symm]

@[simp] theorem size_push (a : Assignment) (l : Literal) (reason : Reason) :
    (a.push l reason).values.size = a.values.size :=
  PerVariable.size_set ..

/-- The entries of the trail from `start` on. -/
def above (a : Assignment) (start : Nat) : List TrailItem := a.trail.toList.drop start

theorem values_cut (a : Assignment) (level start : Nat) :
    (a.cut level start).values =
      (a.above start).foldr (fun e vs => vs.set e.literal.var none) a.values := rfl

/-- Erasing the values of some entries leaves the other values. -/
theorem getD_foldr_set_none (entries : List TrailItem) (vs : PerVariable (Option Bool))
    (v : Variable) :
    (entries.foldr (fun e vs => vs.set e.literal.var none) vs).getD v none =
      if v ∈ entries.map (·.literal.var) then none else vs.getD v none := by
  induction entries with
  | nil => rfl
  | cons e entries ih =>
    simp only [List.foldr_cons, List.map_cons, List.mem_cons]
    -- The first entry is erased last, so for its own variable the others do not matter.
    by_cases hv : e.literal.var = v
    · subst hv
      simp only [true_or, if_true]
      rw [PerVariable.getD, PerVariable.get?_set]
      split
      · rfl
      · next h =>
        have hnone := PerVariable.get?_eq_none_iff.mpr (Bool.eq_false_iff.mpr fun hs => h ⟨rfl, hs⟩)
        rw [hnone]
        rfl
    · rw [PerVariable.getD, PerVariable.get?_set, if_neg fun h => hv h.1, ← PerVariable.getD, ih]
      simp [Ne.symm hv]

theorem value_cut (a : Assignment) (level start : Nat) (v : Variable) :
    (a.cut level start).value v =
      if v ∈ (a.above start).map (·.literal.var) then none else a.value v := by
  rw [value, values_cut]
  exact getD_foldr_set_none ..

theorem size_cut (a : Assignment) (level start : Nat) :
    (a.cut level start).values.size = a.values.size := by
  rw [values_cut]
  induction a.above start with
  | nil => rfl
  | cons e entries ih => rw [List.foldr_cons, PerVariable.size_set, ih]

theorem toList_trail_cut (a : Assignment) (level start : Nat) :
    (a.cut level start).trail.toList = a.trail.toList.take start := by
  simp [cut]

theorem toList_levelStarts_cut (a : Assignment) (level start : Nat) :
    (a.cut level start).levelStarts.toList = a.levelStarts.toList.take level := by
  simp [cut]

theorem level_cut_le (a : Assignment) (level start : Nat) :
    (a.cut level start).level ≤ min level a.level := by
  rw [Assignment.level, ← Array.length_toList, toList_levelStarts_cut, List.length_take,
    Array.length_toList]
  exact Nat.le_refl _

/-! ## Truth of literals -/

theorem truth_eq_none_iff {a : Assignment} {l : Literal} :
    a.truth l = none ↔ a.value l.var = none := by
  simp [truth]

theorem truth_eq_some_iff {a : Assignment} {l : Literal} {b : Bool} :
    a.truth l = some b ↔ a.value l.var = some (l.isPositive == b) := by
  unfold truth
  cases a.value l.var with
  | none => simp
  | some c => cases c <;> cases l.isPositive <;> cases b <;> simp

end Assignment

namespace Core

/-- Assigning a literal without value cannot fail. -/
theorem assign_of_free {c : Core} {l : Literal} (free : c.assignment.value l.var = none)
    (reason : Reason) :
    c.assign l reason = ({ c with assignment := c.assignment.push l reason }, .ok ()) := by
  have htruth : c.assignment.truth l = none := Assignment.truth_eq_none_iff.mpr free
  rw [assign, htruth]

/-- Assigning a literal leaves a true one alone, finds a conflict at a false one, and pushes an
unassigned one. -/
theorem assign_cases (c : Core) (l : Literal) (reason : Reason) :
    (c.assignment.value l.var = some l.isPositive ∧
      c.assign l reason = (c, .error .agreeing)) ∨
    (c.assignment.value l.var = some !l.isPositive ∧
      c.assign l reason =
        ({ c with refuted := c.refuted || c.assignment.level == 0 }, .error .opposing)) ∨
    (c.assignment.value l.var = none ∧
      c.assign l reason = ({ c with assignment := c.assignment.push l reason }, .ok ())) := by
  cases h : c.assignment.truth l with
  | none =>
    have free := Assignment.truth_eq_none_iff.mp h
    exact .inr (.inr ⟨free, assign_of_free free reason⟩)
  | some b =>
    have hvalue := Assignment.truth_eq_some_iff.mp h
    cases b with
    | true => exact .inl ⟨by simpa using hvalue, by simp [assign, h]⟩
    | false => exact .inr (.inl ⟨by simpa using hvalue, by simp [assign, h]⟩)

theorem size_assign (c : Core) (l : Literal) (reason : Reason) :
    (c.assign l reason).1.size = c.size := by
  rcases c.assign_cases l reason with ⟨-, h⟩ | ⟨-, h⟩ | ⟨-, h⟩
  all_goals rw [h]
  · rfl
  · exact Assignment.size_push ..

theorem size_fix (c : Core) (l : Literal) : (c.fix l).size = c.size :=
  size_assign c l .propagation

theorem assignment_insertClause (c : Core) (clause : StoredClause) :
    (c.insertClause clause).assignment = c.assignment := by
  unfold insertClause
  split <;> rfl

theorem size_insertClause (c : Core) (clause : StoredClause) :
    (c.insertClause clause).size = c.size :=
  congrArg (·.values.size) (assignment_insertClause c clause)

theorem clauses_insertClause (c : Core) (clause : StoredClause) :
    (c.insertClause clause).store.clauses = c.store.clauses.push clause := by
  have hadd : (c.store.add clause).clauses = c.store.clauses.push clause := by
    unfold ClauseStore.add
    dsimp only
    split <;> rfl
  unfold insertClause
  split <;> exact hadd

theorem refuted_insertClause (c : Core) (clause : StoredClause) :
    (c.insertClause clause).refuted = c.refuted := by
  unfold insertClause
  split <;> rfl

theorem assignment_retire (c : Core) (v : Variable) (state : Participation) :
    (c.retire v state).assignment = c.assignment := by
  unfold retire
  split <;> rfl

end Core

end ClauseSharing
