import ClauseSharing.Proofs.Polarity.Timing
import ClauseSharing.Proofs.Worker.Noninterference

/-!
What an operation that fails leaves behind.

`Worker.Refuses` lists the refusals with which an operation ends before it has done anything. Each
of them is answered and leaves the worker as it was (`Worker.Refuses.step_eq`), and but for
malformed payloads there is no other (`Worker.refuses_of_step`). A literal clashes with the
assignment just when its variable has a value already (`Worker.Reachable.unassigned_of_truth`). Its
record is caught up all the same, and a false literal at the root refutes the formula
(`Worker.Clashes`). No operation takes a refutation back (`Worker.Reachable.refuted_after`).
-/

namespace ClauseSharing

variable {K R : Type} [Scalar K]

namespace Worker

variable {w w' : Worker K R}

/-! ## Refusals -/

/-- The refusals that come before an operation has done anything, each with all that it takes. A
pass has one more of them, for a malformed payload that it meets on its way. -/
inductive Refuses (w : Worker K R) : Operation R → Refusal → Prop
  | beyondCapacity {n : Nat} (exceeds : Variable.maxCount < min (w.size + n) maxRequest) :
      Refuses w (.addVariables n) (.beyondCapacity (min (w.size + n) maxRequest))
  | impossibleName {external : Nat} {v : Variable}
      (impossible : external = 0 ∨ Names.maxExternal < external) :
      Refuses w (.renameVariable external v) (.impossibleName external)
  | nameTaken {external : Nat} {v owner : Variable}
      (possible : ¬ (external = 0 ∨ Names.maxExternal < external))
      (taken : w.core.names.internal[external]? = some owner) (other : owner ≠ v) :
      Refuses w (.renameVariable external v) (.nameTaken external)
  | eliminatesAssigned {v : Variable} (known : w.core.registered v = true)
      (assigned : (w.core.assignment.value v).isSome = true) :
      Refuses w (.eliminate v) (.assignedVariable v)
  | substitutesAssigned {v : Variable} (known : w.core.registered v = true)
      (assigned : (w.core.assignment.value v).isSome = true) :
      Refuses w (.substitute v) (.assignedVariable v)
  | assertsAboveRoot {literals : List Literal} (above : w.level ≠ 0) :
      Refuses w (.assertClause literals) (.aboveRoot w.level)
  | decidesRetired {l : Literal} (known : w.core.registered l.var = true)
      (retired : w.core.stateOf l.var ≠ .active) :
      Refuses w (.decide l) (.retiredVariable l.var)
  | decidesAssigned {l : Literal} (known : w.core.registered l.var = true)
      (active : w.core.stateOf l.var = .active)
      (assigned : (w.core.assignment.value l.var).isSome = true) :
      Refuses w (.decide l) (.assignedVariable l.var)
  | passesAboveRoot {batch : List (List Int32)} (above : w.level ≠ 0) :
      Refuses w (.runPass batch) (.aboveRoot w.level)

omit [Scalar K] in
theorem settle_eq_refused {α : Type} {answer : α → Answer K}
    (hanswer : ∀ a r, answer a ≠ .refused r) {x : Except Breach (Worker K R × Except Refusal α)}
    {r : Refusal} (h : w.settle answer x = (w', .refused r)) : x = .ok (w', .error r) := by
  unfold settle at h
  split at h
  · cases h
  · cases h
    rfl
  · next a =>
    obtain ⟨-, ha⟩ := Prod.ext_iff.mp h
    exact absurd ha (hanswer a r)

/-! Each operation that can refuse does it first. -/

theorem addVariables_refused {n : Nat} {r : Refusal} (h : w.addVariables n = .ok (w', .error r)) :
    w' = w ∧ w.Refuses (.addVariables n) r := by
  unfold addVariables at h
  dsimp only at h
  split at h
  · next hexceeds =>
    cases h
    exact ⟨rfl, .beyondCapacity hexceeds⟩
  · obtain ⟨_, -, h⟩ := bind_eq_ok_iff.mp h
    obtain ⟨_, -, h⟩ := bind_eq_ok_iff.mp h
    cases h

omit [Scalar K] in
theorem renameVariable_refused {external : Nat} {v : Variable} {r : Refusal}
    (h : w.renameVariable external v = .ok (w', .error r)) :
    w' = w ∧ w.Refuses (.renameVariable external v) r := by
  obtain ⟨⟨names, result⟩, hnames, h⟩ := bind_eq_ok_iff.mp h
  cases h
  unfold Names.rename at hnames
  split at hnames
  · next himpossible =>
    cases hnames
    exact ⟨rfl, .impossibleName himpossible⟩
  next hpossible =>
  split at hnames
  · next owner htaken =>
    split at hnames
    · cases hnames
    · next hother =>
      cases hnames
      exact ⟨rfl, .nameTaken hpossible htaken hother⟩
  · obtain ⟨_, -, hnames⟩ := bind_eq_ok_iff.mp hnames
    cases hnames

omit [Scalar K] in
theorem retire_refused {v : Variable} {state : Participation} {r : Refusal}
    (h : w.retire v state = .ok (w', .error r)) :
    w' = w ∧ r = .assignedVariable v ∧ w.core.registered v = true ∧
      (w.core.assignment.value v).isSome = true := by
  obtain ⟨_, hknown, h⟩ := bind_eq_ok_iff.mp h
  split at h
  · next hassigned =>
    cases h
    exact ⟨rfl, rfl, require_eq_ok_iff.mp hknown, hassigned⟩
  · cases h

theorem decide_refused {l : Literal} {r : Refusal} (h : w.decide l = .ok (w', .error r)) :
    w' = w ∧ w.Refuses (.decide l) r := by
  obtain ⟨_, hknown, h⟩ := bind_eq_ok_iff.mp h
  have known := require_eq_ok_iff.mp hknown
  split at h
  · next hretired =>
    cases h
    exact ⟨rfl, .decidesRetired known hretired⟩
  next hactive =>
  split at h
  · next hassigned =>
    cases h
    exact ⟨rfl, .decidesAssigned known (Decidable.not_not.mp hactive) hassigned⟩
  · obtain ⟨_, -, h⟩ := bind_eq_ok_iff.mp h
    dsimp only at h
    split at h <;> cases h

theorem assertClause_refused {literals : List Literal} {r : Refusal}
    (h : w.assertClause literals = .ok (w', .error r)) :
    w' = w ∧ w.Refuses (.assertClause literals) r := by
  unfold assertClause at h
  split at h
  · next habove =>
    cases h
    exact ⟨rfl, .assertsAboveRoot habove⟩
  split at h
  · cases h
  · obtain ⟨_, -, h⟩ := bind_eq_ok_iff.mp h
    cases h
  · obtain ⟨_, -, h⟩ := bind_eq_ok_iff.mp h
    obtain ⟨_, -, h⟩ := bind_eq_ok_iff.mp h
    cases h

/-- A pass is refused above the root, or ends at a malformed payload. -/
theorem runPass_refused {batch : List (List Int32)} {r : Refusal}
    (h : w.runPass batch = (w', .error (.refused r))) :
    (w' = w ∧ w.Refuses (.runPass batch) r) ∨ ∃ e, r = .malformedPayload e := by
  unfold runPass at h
  split at h
  · next habove =>
    cases h
    exact .inl ⟨rfl, .passesAboveRoot habove⟩
  split at h
  · cases h
  · obtain ⟨-, hresult⟩ := Prod.ext_iff.mp h
    dsimp only at hresult
    split at hresult
    · cases hresult
    · cases hresult
      exact .inr ⟨_, rfl⟩
    · cases hresult

omit [Scalar K] in
theorem retire_of_assigned {v : Variable} (known : w.core.registered v = true)
    (assigned : (w.core.assignment.value v).isSome = true) (state : Participation) :
    w.retire v state = .ok (w, .error (.assignedVariable v)) :=
  bind_eq_ok_iff.mpr ⟨(), require_eq_ok_iff.mpr known, if_pos assigned⟩

variable [Recorder R K]

/-- Whatever an operation refuses, it is one of the listed refusals and has left the worker as it
was, unless a pass has met a malformed payload. -/
theorem refuses_of_step {op : Operation R} {r : Refusal} (h : w.step op = (w', .refused r)) :
    (w' = w ∧ w.Refuses op r) ∨ ∃ batch e, op = .runPass batch ∧ r = .malformedPayload e := by
  cases op with
  | addVariables n => exact .inl (addVariables_refused (settle_eq_refused (by simp) h))
  | renameVariable external v => exact .inl (renameVariable_refused (settle_eq_refused (by simp) h))
  | eliminate v =>
    obtain ⟨rfl, rfl, known, assigned⟩ := retire_refused (settle_eq_refused (by simp) h)
    exact .inl ⟨rfl, .eliminatesAssigned known assigned⟩
  | substitute v =>
    obtain ⟨rfl, rfl, known, assigned⟩ := retire_refused (settle_eq_refused (by simp) h)
    exact .inl ⟨rfl, .substitutesAssigned known assigned⟩
  | assertClause literals => exact .inl (assertClause_refused (settle_eq_refused (by simp) h))
  | decide l => exact .inl (decide_refused (settle_eq_refused (by simp) h))
  | runPass batch =>
    simp only [step] at h
    split at h
    · cases h
    · next hpass =>
      cases h
      rcases runPass_refused hpass with hrefused | ⟨e, rfl⟩
      · exact .inl hrefused
      · exact .inr ⟨batch, e, rfl, rfl⟩
    · cases h
  | assign l =>
    simp only [step] at h
    split at h <;> cases h
  | conflict | learn =>
    exact absurd (congrArg Prod.snd h) (finish_answer_ne (by simp) (by simp))
  | backtrack | catchUpAll | observeTrail | noteLearned | noteConflict =>
    exact absurd (congrArg Prod.snd h) (change_answer_ne (by simp) (by simp))
  | forbid | setJournal | setTracer => cases h

/-- Each of the listed refusals is answered, at no cost to the worker. -/
theorem Refuses.step_eq {op : Operation R} {r : Refusal} (h : w.Refuses op r) :
    w.step op = (w, .refused r) := by
  cases h with
  | beyondCapacity exceeds =>
    rw [step, addVariables, if_pos exceeds]
    rfl
  | @impossibleName external v impossible =>
    have hrename : w.core.names.rename external v =
        .ok (w.core.names, .error (.impossibleName external)) := if_pos impossible
    rw [step, renameVariable, hrename]
    rfl
  | @nameTaken external v owner possible taken other =>
    have hrename : w.core.names.rename external v =
        .ok (w.core.names, .error (.nameTaken external)) := by
      rw [Names.rename, if_neg possible, taken]
      exact if_neg other
    rw [step, renameVariable, hrename]
    rfl
  | eliminatesAssigned known assigned =>
    rw [step, eliminate, retire_of_assigned known assigned]
    rfl
  | substitutesAssigned known assigned =>
    rw [step, substitute, retire_of_assigned known assigned]
    rfl
  | @assertsAboveRoot literals above =>
    have hassert : w.assertClause literals = .ok (w, .error (.aboveRoot w.level)) := if_pos above
    rw [step, hassert]
    rfl
  | @decidesRetired l known retired =>
    have hdecide : w.decide l = .ok (w, .error (.retiredVariable l.var)) :=
      bind_eq_ok_iff.mpr ⟨(), require_eq_ok_iff.mpr known, if_pos retired⟩
    rw [step, hdecide]
    rfl
  | @decidesAssigned l known active assigned =>
    have hdecide : w.decide l = .ok (w, .error (.assignedVariable l.var)) := by
      refine bind_eq_ok_iff.mpr ⟨(), require_eq_ok_iff.mpr known, ?_⟩
      exact (if_neg (not_not.mpr active)).trans (if_pos assigned)
    rw [step, hdecide]
    rfl
  | passesAboveRoot above =>
    rw [step, runPass, if_pos above]

/-! ## Clashes -/

/-- What is left of a worker by the assignment of a literal that has a value already: the record of
its variable is caught up to the present tick, and a false literal at the root refutes the
formula. -/
structure Clashes (w : Worker K R) (l : Literal) (e : Clash) (w' : Worker K R) : Prop where
  truth : w.core.assignment.truth l = some !e.isOpposing
  worker_eq : w' = { w with
    core.refuted := w.core.refuted || (e.isOpposing && w.level == 0)
    stability := w'.stability }
  catchesUp : w.stability.CatchesUp w'.stability [l.var] w.tick w.core.assignment.value
  lastTick : ∃ r, w'.stability.records.get? l.var = some r ∧ r.lastTick = w.tick

omit [Recorder R K] in
theorem clashes_of_assign (hc : w.stability.CacheValid) {l : Literal} {e : Clash}
    (h : w.assign l = .ok (w', .error e)) : w.Clashes l e w' := by
  obtain ⟨w₁, hcatch, h⟩ := bind_eq_ok_iff.mp h
  obtain ⟨s, hs, hw⟩ := bind_eq_ok_iff.mp hcatch
  cases hw
  have hcaught := Stability.catchesUp_of_catchUp hc hs
  obtain ⟨r, hr⟩ := PerVariable.exists_get? (Stability.has_of_catchUp hs)
  have hlast : ∃ r, s.records.get? l.var = some r ∧ r.lastTick = w.tick := by
    rw [hcaught.get?_eq, if_pos List.mem_cons_self, hr]
    exact ⟨_, rfl, PolarityRecord.lastTick_caughtUp ..⟩
  rcases w.core.assign_cases l .propagation with ⟨hvalue, heq⟩ | ⟨hvalue, heq⟩ | ⟨-, heq⟩
  all_goals
    simp only [heq] at h
    cases h
  · refine ⟨Assignment.truth_eq_some_iff.mpr ?_, ?_, hcaught, hlast⟩
    · simpa [Clash.isOpposing] using hvalue
    · simp [Clash.isOpposing]
  · refine ⟨Assignment.truth_eq_some_iff.mpr ?_, ?_, hcaught, hlast⟩
    · simpa [Clash.isOpposing] using hvalue
    · simp [Clash.isOpposing, level]

/-- A literal of a registered variable that has a value already clashes. -/
theorem Reachable.unassigned_of_truth {settings : Settings K} (hw : Reachable settings w)
    {l : Literal} {e : Clash} (known : w.core.registered l.var = true)
    (assigned : w.core.assignment.truth l = some !e.isOpposing) :
    (w.step (.assign l)).2 = .unassigned e := by
  have hhas : w.stability.records.has l.var = true :=
    PerVariable.has_iff.mpr (hw.records_size ▸ PerVariable.has_iff.mp known)
  obtain ⟨r, hr⟩ := PerVariable.exists_get? hhas
  obtain ⟨hnonneg, hlast, -⟩ := hw.timed.records.record _ _ hr
  have hreaches : Stability.Reaches r w.tick := by
    have hlt := hw.timed.tick_lt
    exact ⟨hlast, by omega⟩
  obtain ⟨s, hs⟩ := Stability.exists_catchUp hr hreaches (w.core.assignment.value l.var)
  have hcatch : w.catchUp l.var = .ok { w with stability := s } := bind_eq_ok_iff.mpr ⟨s, hs, rfl⟩
  have hclash : (w.core.assign l .propagation).2 = .error e := by
    cases e <;> simp [Core.assign, assigned, Clash.isOpposing]
  have hassign : w.assign l = .ok ({ w with
      core := (w.core.assign l .propagation).1
      stability := s }, .error e) := by
    refine bind_eq_ok_iff.mpr ⟨_, hcatch, ?_⟩
    rw [← hclash]
    rfl
  rw [Worker.step, hassign]

/-! ## Refutations -/

end Worker

namespace Core

variable {c : Core}

theorem refuted_assign (h : c.refuted = true) (l : Literal) (reason : Reason) :
    (c.assign l reason).1.refuted = true := by
  rcases c.assign_cases l reason with ⟨-, heq⟩ | ⟨-, heq⟩ | ⟨-, heq⟩
  all_goals rw [heq]
  · exact h
  · simp [h]
  · exact h

theorem refuted_retire (c : Core) (v : Variable) (state : Participation) :
    (c.retire v state).refuted = c.refuted := by
  unfold retire
  split <;> rfl

theorem refuted_assertClause (h : c.refuted = true) (literals : List Literal) :
    (c.assertClause literals).refuted = true := by
  unfold assertClause
  split
  · rfl
  · exact refuted_assign h _ _
  · exact (refuted_insertClause ..).trans h

theorem refuted_run (h : c.refuted = true) (s : Selector K) (probabilities : LiteralLikelihood K)
    (batch : List (List Int32)) : (s.run probabilities c batch).1.refuted = true :=
  Selector.run_induction (P := fun c : Core => c.refuted = true)
    (fun _ _ l _ h => refuted_assign h l .propagation)
    (fun _ _ h => (refuted_insertClause ..).trans h) s probabilities h batch

end Core

namespace Worker

variable {w : Worker K R}

theorem Evolves.refuted {op : Operation R} {c : Core} (hevolves : Evolves w op c)
    (h : w.core.refuted = true) : c.refuted = true := by
  cases hevolves with
  | stays | registers | renames | forbids | decides | backjumps | traces => exact h
  | retires => exact (Core.refuted_retire ..).trans h
  | asserts => exact Core.refuted_assertClause h _
  | assigns => exact Core.refuted_assign h _ _
  | learns => exact (Core.refuted_insertClause ..).trans h
  | passes => exact Core.refuted_run h _ _ _

variable [Recorder R K]

/-- A refutation stays, also through a breach that ends the run. -/
theorem Reachable.refuted_after {settings : Settings K} (hw : Reachable settings w)
    (h : w.core.refuted = true) (ops : List (Operation R)) : (w.after ops).core.refuted = true := by
  induction ops generalizing w with
  | nil => exact h
  | cons op ops ih =>
    have hstep : (w.step op).1.core.refuted = true := (evolves_step hw.records_size).refuted h
    cases hop : (w.step op).2.isBreach with
    | true =>
      rw [after_of_breach hop]
      exact hstep
    | false =>
      rw [after_of_go hop]
      exact ih (hw.step hop) hstep

/-! ## Main statement -/

/-- Take any reachable worker. An operation that refuses does so for one of the listed reasons, and
the worker is exactly as it was, unless a pass has met a malformed payload. Whenever one of the
reasons is there, it is the answer. A literal that could not be assigned has left two traces: its
variable is caught up to the present tick, and a false literal at the root has refuted the formula.
Every literal of a registered variable with a value clashes in this way. A refutation stays through
all operations to come. -/
theorem refusals_leave_the_worker {settings : Settings K} (hw : Reachable settings w) :
    (∀ op r, (w.step op).2 = .refused r →
      ((w.step op).1 = w ∧ w.Refuses op r) ∨
      ∃ batch e, op = .runPass batch ∧ r = .malformedPayload e) ∧
    (∀ op r, w.Refuses op r → w.step op = (w, .refused r)) ∧
    (∀ l e, (w.step (.assign l)).2 = .unassigned e → w.Clashes l e (w.step (.assign l)).1) ∧
    (∀ l e, w.core.registered l.var = true → w.core.assignment.truth l = some !e.isOpposing →
      (w.step (.assign l)).2 = .unassigned e) ∧
    (w.core.refuted = true → ∀ ops, (w.after ops).core.refuted = true) := by
  refine ⟨?_, fun _ _ => Refuses.step_eq, ?_, fun _ _ => hw.unassigned_of_truth, hw.refuted_after⟩
  · intro op r h
    exact refuses_of_step (Prod.ext rfl h)
  · intro l e h
    rcases hassign : w.assign l with b | ⟨w', _ | _⟩
    · simp [step, hassign] at h
    · simp only [step, hassign] at h ⊢
      cases h
      exact clashes_of_assign hw.timed.records.cacheValid hassign
    · simp [step, hassign] at h

/-- A variable that is true at the root, and two conflicts that no record has been told of. -/
def lateConflicts : List Operation :=
  [.addVariables 2, .assertClause [.ofVariable .first true], .conflict, .conflict]

theorem refusals_leave_the_worker_lateConflicts :
    let w := (blank .standard : Worker Rat).after lateConflicts
    let refuted := (w.step (.assign (.ofVariable .first false))).1
    Reachable .standard w ∧
    w.step (.decide (.ofVariable .first true)) = (w, .refused (.assignedVariable .first)) ∧
    w.step (.renameVariable 2 .first) = (w, .refused (.nameTaken 2)) ∧
    w.Clashes (.ofVariable .first false) .opposing refuted ∧
    refuted.core.refuted = true ∧
    ∀ ops, (refuted.after ops).core.refuted = true := by
  intro w refuted
  have hops : (blank .standard : Worker Rat).Completes lateConflicts := by
    unfold Completes
    decide +kernel
  have hw : Reachable .standard w := reachable_standard hops
  obtain ⟨-, hrefuses, hclashes, hclash, -⟩ := refusals_leave_the_worker hw
  have hanswer : (w.step (.assign (.ofVariable .first false))).2 = .unassigned .opposing :=
    hclash _ _ (by decide +kernel) (by decide +kernel)
  have hnext : Reachable .standard refuted := hw.step (by rw [hanswer]; rfl)
  obtain ⟨-, -, -, -, hstays⟩ := refusals_leave_the_worker hnext
  have hrefuted : refuted.core.refuted = true := by decide +kernel
  have htaken : w.core.names.internal[2]? = some .second := by decide +kernel
  refine ⟨hw, hrefuses _ _ ?_, hrefuses _ _ ?_, hclashes _ _ hanswer, hrefuted, hstays hrefuted⟩
  · exact .decidesAssigned (by decide +kernel) (by decide +kernel) (by decide +kernel)
  · exact .nameTaken (by decide) htaken (by decide)

end Worker

end ClauseSharing
