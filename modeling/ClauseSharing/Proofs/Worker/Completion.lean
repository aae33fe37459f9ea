import ClauseSharing.Proofs.Worker.WellFormed

/-!
When the check of completion is right.

A worker takes itself to be done when all active variables are assigned and all clauses of the
formula satisfied (`Core.Satisfied`). It does not look at the variables, though: it compares the
number of assigned plus the number of inactive ones with the number of all. The difference is that
of the variables that are neither and of those that are both (`WellFormed.size_trail_add_inactive`),
so the comparison is right as long as no inactive variable is assigned (`Core.Apart`).

Decisions and import passes see to that, and retiring a variable does. Assigning a literal as a
propagation or asserting it as a unit does not, so it is left to the caller
(`Worker.PropagatesActive`, `isComplete_iff_satisfied`): with a retired variable assigned, a worker
takes itself to be done with an active variable unassigned (`isComplete_of_retiredAssigned`).
-/

namespace ClauseSharing

/-! ## Counting -/

section Counting

variable {α : Type}

/-- Two kinds and what is of neither make up the whole, but for what is of both. -/
theorem countP_add_countP (p q : α → Bool) (l : List α) :
    l.countP p + l.countP q + l.countP (fun a => !p a && !q a) =
      l.length + l.countP (fun a => p a && q a) := by
  induction l with
  | nil => rfl
  | cons a l ih =>
    simp only [List.countP_cons, List.length_cons]
    cases p a <;> cases q a <;> simp <;> omega

/-- Counting the members is counting their positions. -/
theorem countP_eq_countP_range (p : α → Bool) (l : List α) :
    l.countP p = (List.range l.length).countP fun i => (l[i]?).any p := by
  induction l with
  | nil => rfl
  | cons a l ih =>
    rw [List.length_cons, List.range_succ_eq_map, List.countP_cons, List.countP_cons,
      List.countP_map, ih]
    rfl

end Counting

/-! ## Searching with calls that may fail -/

section Searching

variable {α : Type} {f : α → Except Breach Bool} {g : α → Bool} {l : List α} {b : Bool}

theorem eq_any_of_anyM (h : ∀ a ∈ l, ∀ b, f a = .ok b → b = g a) (hb : l.anyM f = .ok b) :
    b = l.any g := by
  induction l with
  | nil =>
    cases hb
    rfl
  | cons a l ih =>
    obtain ⟨found, hfound, hrest⟩ := bind_eq_ok_iff.mp hb
    rw [List.any_cons, ← h a List.mem_cons_self found hfound]
    cases found with
    | true =>
      cases hrest
      rfl
    | false => exact ih (fun a' ha => h a' (List.mem_cons_of_mem a ha)) hrest

theorem eq_all_of_allM (h : ∀ a ∈ l, ∀ b, f a = .ok b → b = g a) (hb : l.allM f = .ok b) :
    b = l.all g := by
  induction l with
  | nil =>
    cases hb
    rfl
  | cons a l ih =>
    obtain ⟨holds, hholds, hrest⟩ := bind_eq_ok_iff.mp hb
    rw [List.all_cons, ← h a List.mem_cons_self holds hholds]
    cases holds with
    | true => exact ih (fun a' ha => h a' (List.mem_cons_of_mem a ha)) hrest
    | false =>
      cases hrest
      rfl

theorem exists_anyM_eq_ok (h : ∀ a ∈ l, ∃ b, f a = .ok b) : ∃ b, l.anyM f = .ok b := by
  induction l with
  | nil => exact ⟨false, rfl⟩
  | cons a l ih =>
    obtain ⟨found, hfound⟩ := h a List.mem_cons_self
    rw [List.anyM, hfound]
    cases found with
    | true => exact ⟨true, rfl⟩
    | false => exact ih fun a' ha => h a' (List.mem_cons_of_mem a ha)

theorem exists_allM_eq_ok (h : ∀ a ∈ l, ∃ b, f a = .ok b) : ∃ b, l.allM f = .ok b := by
  induction l with
  | nil => exact ⟨true, rfl⟩
  | cons a l ih =>
    obtain ⟨holds, hholds⟩ := h a List.mem_cons_self
    rw [List.allM, hholds]
    cases holds with
    | true => exact ih fun a' ha => h a' (List.mem_cons_of_mem a ha)
    | false => exact ⟨false, rfl⟩

end Searching

namespace Core

/-- The stored clauses of the formula. -/
def inputs (c : Core) : List StoredClause :=
  c.store.clauses.toList.filter fun clause => !clause.isDerived

/-- The search is done: nothing has been refuted, every active variable is assigned, and every
clause of the formula has a true literal or one whose variable is inactive. -/
structure Satisfied (c : Core) : Prop where
  not_refuted : c.refuted = false
  assigned : ∀ v, c.registered v = true → c.stateOf v = .active →
    (c.assignment.value v).isSome = true
  clauses : ∀ clause ∈ c.inputs, ∃ l ∈ clause.literals,
    c.assignment.truth l = some true ∨ c.stateOf l.var ≠ .active

/-- No inactive variable is assigned. -/
def Apart (c : Core) : Prop :=
  ∀ v b, c.assignment.value v = some b → c.stateOf v = .active

/-- All literals of clauses of the formula are registered. -/
def InputsRegistered (c : Core) : Prop :=
  ∀ clause ∈ c.inputs, ∀ l ∈ clause.literals, c.registered l.var = true

variable {c : Core}

namespace WellFormed

/-- Counting states is counting the variables that are in them. -/
theorem countP_slots (h : c.WellFormed) (p : Participation → Bool) :
    c.states.slots.countP p = c.registry.countP fun v => p (c.stateOf v) := by
  have hsize : c.states.slots.size = c.size := h.states_size
  rw [← Array.countP_toList, countP_eq_countP_range, Array.length_toList, hsize, registry,
    List.countP_filterMap]
  refine List.countP_congr fun i hi => ?_
  obtain ⟨v, hv, rfl, hknown⟩ := h.exists_ofIndex? hi
  have hslot : c.states.slots[v.index]? = some (c.stateOf v) := h.get?_states hknown
  rw [hv, Array.getElem?_toList, hslot]
  rfl

/-- Assigned and inactive variables are as many as all, but for those that are neither and those
that are both. -/
theorem size_trail_add_inactive (h : c.WellFormed) :
    c.assignment.trail.size + c.inactive +
        c.registry.countP (fun v => !(c.assignment.value v).isSome && !(c.stateOf v != .active)) =
      c.size +
        c.registry.countP (fun v => (c.assignment.value v).isSome && c.stateOf v != .active) := by
  rw [h.size_trail, h.inactive_eq, h.countP_slots, ← h.length_registry]
  exact countP_add_countP ..

/-- So the counts tell whether all active variables are assigned, if no other one is. -/
theorem size_trail_add_inactive_eq_iff (h : c.WellFormed) (hapart : c.Apart) :
    c.assignment.trail.size + c.inactive = c.size ↔
      ∀ v, c.registered v = true → c.stateOf v = .active →
        (c.assignment.value v).isSome = true := by
  have hcount := h.size_trail_add_inactive
  have hboth : c.registry.countP
      (fun v => (c.assignment.value v).isSome && c.stateOf v != .active) = 0 := by
    refine List.countP_eq_zero.mpr fun v _ hv => ?_
    obtain ⟨hsome, hinactive⟩ := Bool.and_eq_true_iff.mp hv
    obtain ⟨b, hb⟩ := Option.isSome_iff_exists.mp hsome
    exact bne_iff_ne.mp hinactive (hapart v b hb)
  rw [hboth, Nat.add_zero] at hcount
  have hneither : c.assignment.trail.size + c.inactive = c.size ↔ c.registry.countP
      (fun v => !(c.assignment.value v).isSome && !(c.stateOf v != .active)) = 0 := by
    omega
  rw [hneither, List.countP_eq_zero]
  constructor
  · intro hnone v hknown hactive
    have hv := hnone v (h.mem_registry.mpr hknown)
    cases hvalue : c.assignment.value v with
    | none =>
      rw [hvalue, hactive] at hv
      exact absurd rfl hv
    | some _ => rfl
  · intro hall v hv hneither
    obtain ⟨hfree, hactive⟩ := Bool.and_eq_true_iff.mp hneither
    simp only [Bool.not_eq_true', bne_eq_false_iff_eq] at hfree hactive
    rw [hall v (h.mem_registry.mp hv) hactive] at hfree
    cases hfree

end WellFormed

/-! ## The check -/

/-- Whatever is answered about a clause is right. -/
theorem eq_any_of_clauseSatisfied {literals : List Literal} {b : Bool}
    (hb : c.clauseSatisfied literals = .ok b) :
    b = literals.any fun l => c.stateOf l.var != .active || c.assignment.truth l == some true := by
  refine eq_any_of_anyM (fun l _ b hl => ?_) hb
  obtain ⟨state, hstate, hl⟩ := bind_eq_ok_iff.mp hl
  cases hl
  rw [stateOf, PerVariable.getD, PerVariable.fetch_eq_ok_iff.mp hstate]
  rfl

/-- The check looks at the counts and then at the clauses. -/
theorem isComplete_cases (c : Core) :
    ((c.refuted = true ∨ c.assignment.trail.size + c.inactive ≠ c.size) ∧
      c.isComplete = .ok false) ∨
    (c.refuted = false ∧ c.assignment.trail.size + c.inactive = c.size ∧
      c.isComplete = c.inputs.allM fun clause => c.clauseSatisfied clause.literals) := by
  unfold isComplete
  split
  · next h =>
    rw [Bool.or_eq_true, bne_iff_ne] at h
    exact .inl ⟨h, rfl⟩
  · next h =>
    simp only [Bool.or_eq_true, not_or, Bool.not_eq_true, bne_eq_false_iff_eq] at h
    exact .inr ⟨h.1, h.2, rfl⟩

/-- If no inactive variable is assigned, then what the check of completion answers is right. -/
theorem WellFormed.isComplete_iff (h : c.WellFormed) (hapart : c.Apart) {b : Bool}
    (hb : c.isComplete = .ok b) : b = true ↔ c.Satisfied := by
  have hcounts := h.size_trail_add_inactive_eq_iff hapart
  rcases c.isComplete_cases with ⟨hunfinished, heq⟩ | ⟨hrefuted, hcount, heq⟩
  · rw [heq] at hb
    cases hb
    refine ⟨nofun, fun hsatisfied => ?_⟩
    rcases hunfinished with hrefuted | hcount
    · rw [hsatisfied.not_refuted] at hrefuted
      cases hrefuted
    · exact absurd (hcounts.mpr hsatisfied.assigned) hcount
  · rw [heq] at hb
    have hanswer := eq_all_of_allM (fun clause _ b => eq_any_of_clauseSatisfied) hb
    rw [hanswer]
    simp only [List.all_eq_true, List.any_eq_true, Bool.or_eq_true, bne_iff_ne, beq_iff_eq]
    constructor
    · intro hclauses
      refine ⟨hrefuted, hcounts.mp hcount, fun clause hclause => ?_⟩
      obtain ⟨l, hl, hsatisfies⟩ := hclauses clause hclause
      exact ⟨l, hl, hsatisfies.symm⟩
    · intro hsatisfied clause hclause
      obtain ⟨l, hl, hsatisfies⟩ := hsatisfied.clauses clause hclause
      exact ⟨l, hl, hsatisfies.symm⟩

/-- Over registered literals, a clause is checked. -/
theorem WellFormed.exists_clauseSatisfied_eq_ok (h : c.WellFormed) {literals : List Literal}
    (hliterals : ∀ l ∈ literals, c.registered l.var = true) :
    ∃ b, c.clauseSatisfied literals = .ok b := by
  refine exists_anyM_eq_ok fun l hl => ?_
  have hfetch : c.states.fetch l.var = .ok (c.stateOf l.var) :=
    PerVariable.fetch_eq_ok_iff.mpr (h.get?_states (hliterals l hl))
  rw [hfetch]
  exact ⟨_, rfl⟩

/-- Over registered variables, the check answers. -/
theorem WellFormed.exists_isComplete_eq_ok (h : c.WellFormed) (hinputs : c.InputsRegistered) :
    ∃ b, c.isComplete = .ok b := by
  rcases c.isComplete_cases with ⟨-, heq⟩ | ⟨-, -, heq⟩
  all_goals rw [heq]
  · exact ⟨false, rfl⟩
  · exact exists_allM_eq_ok fun clause hclause =>
      h.exists_clauseSatisfied_eq_ok (hinputs clause hclause)

/-! ## Keeping inactive and assigned variables apart -/

theorem apart_empty : Apart .empty := nofun

theorem Apart.register (h : c.Apart) (n : Nat) : (c.register n).Apart := by
  intro v b hv
  have hvalue : c.assignment.value v = some b :=
    (Assignment.value_register c.assignment n v).symm.trans hv
  have hactive := h v b hvalue
  simp only [stateOf, Core.register, PerVariable.getD, PerVariable.get?_extend] at hactive ⊢
  split
  · exact hactive
  · split <;> rfl

/-- Only a free variable is retired. -/
theorem Apart.retire (h : c.Apart) {v : Variable} (free : c.assignment.value v = none)
    (state : Participation) : (c.retire v state).Apart := by
  intro u b hu
  rw [assignment_retire] at hu
  have hne : v ≠ u := by
    rintro rfl
    rw [free] at hu
    cases hu
  have hactive := h u b hu
  unfold Core.retire
  split
  · simp only [stateOf, PerVariable.getD, PerVariable.get?_set, hne, false_and, if_false]
    exact hactive
  · exact hactive

/-- Only an active variable is assigned. -/
theorem Apart.push (h : c.Apart) {l : Literal} (active : c.stateOf l.var = .active)
    (starts : Array Nat) (reason : Reason) :
    Apart { c with
      assignment := Assignment.push { c.assignment with levelStarts := starts } l reason } := by
  intro v b hv
  have hvalue := Assignment.value_push { c.assignment with levelStarts := starts } l reason v
  rw [hvalue] at hv
  split at hv
  · next hl =>
    rw [← hl.1]
    exact active
  · exact h v b hv

theorem Apart.assign (h : c.Apart) {l : Literal} (active : c.stateOf l.var = .active) :
    (c.assign l .propagation).1.Apart := by
  rcases c.assign_cases l .propagation with ⟨-, heq⟩ | ⟨-, heq⟩ | ⟨-, heq⟩
  all_goals rw [heq]
  · exact h
  · exact h
  · exact h.push active c.assignment.levelStarts .propagation

theorem Apart.cut (h : c.Apart) (level start : Nat) :
    Apart { c with assignment := c.assignment.cut level start } := by
  intro v b hv
  have hvalue := Assignment.value_cut c.assignment level start v
  rw [hvalue] at hv
  split at hv
  · cases hv
  · exact h v b hv

theorem Apart.insertClause (h : c.Apart) (clause : StoredClause) :
    (c.insertClause clause).Apart := by
  obtain ⟨store, trace, heq⟩ := c.insertClause_eq clause
  rw [heq]
  exact h

/-- A pass assigns active variables only. -/
theorem Apart.fix (h : c.Apart) {external : Int32} {l : Literal}
    (taken : unitToAssign c external = some l) : (c.fix l).Apart := by
  have hstanding : c.standingOf l = .active := (unitToAssign_eq_some taken).2
  have hactive : c.stateOf l.var = .active := by
    unfold standingOf at hstanding
    split at hstanding
    · cases hstanding
    · cases hstanding
    · assumption
  exact h.assign hactive

theorem Apart.run {K : Type} [Scalar K] (h : c.Apart) (s : Selector K)
    (probabilities : LiteralLikelihood K) (batch : List (List Int32)) :
    (s.run probabilities c batch).1.Apart :=
  Selector.run_induction (P := Apart) (fun _ _ _ taken h => h.fix taken)
    (fun _ _ h => h.insertClause _) s probabilities h batch

end Core

namespace Worker

variable {K R : Type} [Scalar K] {w : Worker K R}

/-- The literal that an operation asks to be assigned without a decision, if it does. Units are
refused above the root. -/
def propagated? (w : Worker K R) : Operation R → Option Literal
  | .assign l => some l
  | .assertClause [l] => if w.level = 0 then some l else none
  | _ => none

variable [Recorder R K]

/-- Whatever a run asks to be assigned without a decision has an active variable at the time. -/
def PropagatesActive (w : Worker K R) : List (Operation R) → Prop
  | [] => True
  | op :: ops =>
    (∀ l ∈ w.propagated? op, w.core.stateOf l.var = .active) ∧ (w.step op).1.PropagatesActive ops

omit [Recorder R K] in
theorem Evolves.apart {op : Operation R} {c : Core} (hevolves : Evolves w op c)
    (hactive : ∀ l ∈ w.propagated? op, w.core.stateOf l.var = .active) (h : w.core.Apart) :
    c.Apart := by
  cases hevolves with
  | stays | renames | forbids | traces => exact h
  | registers => exact h.register _
  | retires _ _ free => exact h.retire free _
  | @asserts literals root =>
    match literals with
    | [] => exact h
    | [l] => exact h.assign (hactive l (if_pos root))
    | _ :: _ :: _ => exact h.insertClause _
  | @assigns l => exact h.assign (hactive l rfl)
  | decides _ active => exact h.push active _ _
  | backjumps => exact h.cut _ _
  | learns => exact h.insertClause _
  | passes => exact h.run _ _ _

/-- A run that propagates active variables only assigns no others. -/
theorem apart_after (hrecords : w.stability.records.size = w.size) (h : w.core.Apart)
    {ops : List (Operation R)} (hops : w.Completes ops) (hactive : w.PropagatesActive ops) :
    (w.after ops).core.Apart := by
  induction ops generalizing w with
  | nil => exact h
  | cons op ops ih =>
    obtain ⟨hop, hrest⟩ := completes_cons.mp hops
    rw [after_cons hops]
    exact ih ((effect_step hop).records_size hrecords) ((evolves_step hrecords).apart hactive.1 h)
      hrest hactive.2

instance decidablePropagatesActive (w : Worker K R) :
    (ops : List (Operation R)) → Decidable (w.PropagatesActive ops)
  | [] => isTrue trivial
  | op :: ops =>
    -- What is active changes along the run.
    have := decidablePropagatesActive (w.step op).1 ops
    inferInstanceAs (Decidable (_ ∧ _))

/-! ## Main statement -/

/-- Take any run without breach in which every literal that is assigned as a propagation, or
asserted as a unit at the root, has an active variable at the time. Then whatever the check of
completion answers is right: yes exactly if nothing has been refuted, every active variable is
assigned, and every clause of the formula has a true literal or one whose variable is inactive. And
it answers, if the stored clauses of the formula mention registered variables only. -/
theorem isComplete_iff_satisfied {settings : Settings K} {w₀ : Worker K R}
    (h₀ : create settings = .ok w₀) {ops : List (Operation R)} (hops : w₀.Completes ops)
    (hactive : w₀.PropagatesActive ops) :
    (∀ b, (w₀.after ops).core.isComplete = .ok b →
      (b = true ↔ (w₀.after ops).core.Satisfied)) ∧
    ((w₀.after ops).core.InputsRegistered → ∃ b, (w₀.after ops).core.isComplete = .ok b) := by
  have hwellFormed : (w₀.after ops).core.WellFormed :=
    Reachable.wellFormed ⟨w₀, ops, h₀, hops, rfl⟩
  obtain ⟨-, rfl⟩ := create_eq_ok_iff.mp h₀
  have hapart := apart_after rfl Core.apart_empty hops hactive
  exact ⟨fun _ => hwellFormed.isComplete_iff hapart, hwellFormed.exists_isComplete_eq_ok⟩

/-- A clause that is satisfied by the decision, and a retired variable. -/
def satisfiedByDecision : List Operation :=
  [.addVariables 3, .assertClause [.ofVariable .first true, .ofVariable .second true],
    .eliminate .third, .decide (.ofVariable .first true),
    .assign (.ofVariable .second false)]

theorem isComplete_iff_satisfied_byDecision :
    create (.standard : Settings Rat) = .ok (blank .standard : Worker Rat) ∧
    (blank .standard : Worker Rat).Completes satisfiedByDecision ∧
    (blank .standard : Worker Rat).PropagatesActive satisfiedByDecision ∧
    ((blank .standard : Worker Rat).after satisfiedByDecision).core.Satisfied := by
  have hcreate : create (.standard : Settings Rat) = .ok (blank .standard : Worker Rat) :=
    create_eq_ok_iff.mpr ⟨Settings.validate_standard, rfl⟩
  have hruns : (blank .standard : Worker Rat).Completes satisfiedByDecision := by
    unfold Completes
    decide +kernel
  have hactive : (blank .standard : Worker Rat).PropagatesActive satisfiedByDecision := by
    decide +kernel
  obtain ⟨hright, -⟩ := isComplete_iff_satisfied hcreate hruns hactive
  exact ⟨hcreate, hruns, hactive, (hright true (by decide +kernel)).mp rfl⟩

/-- The retired variable is assigned and counts twice, in place of the other one. -/
def retiredAssigned : List Operation :=
  [.addVariables 2, .eliminate .first, .assign (.ofVariable .first true)]

/-- The check is wrong about a worker whose only active variable is unassigned. -/
theorem isComplete_of_retiredAssigned :
    Reachable .standard ((blank .standard : Worker Rat).after retiredAssigned) ∧
    ((blank .standard : Worker Rat).after retiredAssigned).core.isComplete = .ok true ∧
    ¬ ((blank .standard : Worker Rat).after retiredAssigned).core.Satisfied := by
  refine ⟨⟨_, retiredAssigned, create_eq_ok_iff.mpr ⟨Settings.validate_standard, rfl⟩, ?_, rfl⟩,
    by decide +kernel, fun h => ?_⟩
  · unfold Completes
    decide +kernel
  · have hassigned := h.assigned ⟨1, by decide⟩ (by decide +kernel) (by decide +kernel)
    revert hassigned
    decide +kernel

end Worker

end ClauseSharing
