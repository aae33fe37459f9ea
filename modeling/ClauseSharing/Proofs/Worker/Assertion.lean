import ClauseSharing.Proofs.Worker.Trail

/-!
What asserting a clause of the formula means.

At the root of a worker whose records are at the present tick, asserting a clause over registered
variables succeeds and changes the shared state only (`Worker.assertClause_eq`). A valuation models
the new state exactly if it models the old one and satisfies the clause (`models_assertClause`).
-/

namespace ClauseSharing

/-- The valuation is one of those that the state still admits: nothing has been refuted, and the
trail and all clauses are true. -/
structure Valuation.Models (μ : Valuation) (c : Core) : Prop where
  not_refuted : c.refuted = false
  trail : ∀ e ∈ c.assignment.trail, μ.MakesTrue e.literal
  clauses : ∀ clause ∈ c.store.clauses, μ.Satisfies clause.literals

namespace Core

/-- The state after a clause of the formula has been asserted at the root. -/
def assertClause (c : Core) (literals : List Literal) : Core :=
  match literals with
  | [] => { c with refuted := true }
  | [l] => (c.assign l .propagation).1
  | _ => c.insertClause ⟨literals, literals.length, .input⟩

variable {c : Core} {μ : Valuation}

theorem size_assertClause (c : Core) (literals : List Literal) :
    (c.assertClause literals).size = c.size := by
  unfold assertClause
  split
  · rfl
  · exact size_assign ..
  · exact size_insertClause ..

theorem level_assertClause (c : Core) (literals : List Literal) :
    (c.assertClause literals).assignment.level = c.assignment.level := by
  unfold assertClause
  split
  · rfl
  · next l =>
    rcases c.assign_cases l .propagation with ⟨-, h⟩ | ⟨-, h⟩ | ⟨-, h⟩
    all_goals rw [h]
    rfl
  · rw [assignment_insertClause]

theorem backed_assertClause (h : c.assignment.Backed) (literals : List Literal) :
    (c.assertClause literals).assignment.Backed := by
  unfold assertClause
  split
  · exact h
  · exact backed_assign h _ _
  · exact backed_insertClause h _

/-- Only a clause of two literals or more is stored. -/
theorem clauses_assertClause (c : Core) (literals : List Literal) :
    (c.assertClause literals).store.clauses.toList = c.store.clauses.toList ++
      if 2 ≤ literals.length then [⟨literals, literals.length, .input⟩] else [] := by
  match literals with
  | [] => simp [assertClause]
  | [l] =>
    rcases c.assign_cases l .propagation with ⟨-, h⟩ | ⟨-, h⟩ | ⟨-, h⟩ <;> simp [assertClause, h]
  | _ :: _ :: _ => simp [assertClause, clauses_insertClause]

/-! ## Models -/

/-- Assigning a literal at the root adds it to what holds, whether it was free, known or refuted. -/
theorem models_assign (hroot : c.assignment.level = 0) (hbacked : c.assignment.Backed)
    (l : Literal) :
    μ.Models (c.assign l .propagation).1 ↔ μ.Models c ∧ μ.MakesTrue l := by
  rcases c.assign_cases l .propagation with ⟨hvalue, h⟩ | ⟨hvalue, h⟩ | ⟨-, h⟩
  all_goals rw [h]
  · -- The literal is true already, and so it is under every model.
    exact ⟨fun hc => ⟨hc, hbacked.valuation_eq hc.trail hvalue⟩, And.left⟩
  · constructor
    · intro hc
      have hrefuted := hc.not_refuted
      simp [hroot] at hrefuted
    · rintro ⟨hc, hl⟩
      exact absurd hl (hbacked.not_makesTrue hc.trail hvalue)
  · constructor
    · intro hc
      refine ⟨⟨hc.not_refuted, ?_, hc.clauses⟩, ?_⟩
      · intro e he
        exact hc.trail e (Array.mem_push_of_mem _ he)
      · exact hc.trail ⟨l, .propagation⟩ Array.mem_push_self
    · rintro ⟨hc, hl⟩
      refine ⟨hc.not_refuted, ?_, hc.clauses⟩
      intro e he
      rcases Array.mem_push.mp he with he | rfl
      · exact hc.trail e he
      · exact hl

theorem models_insertClause (clause : StoredClause) :
    μ.Models (c.insertClause clause) ↔ μ.Models c ∧ μ.Satisfies clause.literals := by
  constructor
  · intro h
    have hclauses := h.clauses
    rw [clauses_insertClause] at hclauses
    refine ⟨⟨?_, ?_, ?_⟩, ?_⟩
    · exact (refuted_insertClause c clause).symm.trans h.not_refuted
    · exact assignment_insertClause c clause ▸ h.trail
    · intro d hd
      exact hclauses d (Array.mem_push_of_mem _ hd)
    · exact hclauses clause Array.mem_push_self
  · rintro ⟨hc, hclause⟩
    refine ⟨(refuted_insertClause c clause).trans hc.not_refuted, ?_, ?_⟩
    · exact (assignment_insertClause c clause).symm ▸ hc.trail
    · intro d hd
      rw [clauses_insertClause] at hd
      rcases Array.mem_push.mp hd with hd | rfl
      · exact hc.clauses d hd
      · exact hclause

/-- Asserting a clause neither loses nor strengthens it. -/
theorem models_assertClause (hroot : c.assignment.level = 0) (hbacked : c.assignment.Backed)
    (literals : List Literal) :
    μ.Models (c.assertClause literals) ↔ μ.Models c ∧ μ.Satisfies literals := by
  unfold assertClause
  split
  · constructor
    · intro h
      cases h.not_refuted
    · rintro ⟨-, h⟩
      exact absurd h Valuation.not_satisfies_nil
  · rw [models_assign hroot hbacked, Valuation.satisfies_singleton]
  · exact models_insertClause _

end Core

namespace Worker

variable {K R : Type} [Scalar K] {w w' : Worker K R}

/-! ## Workers -/

/-- The records of all variables are at the present tick. -/
def Current (w : Worker K R) : Prop :=
  ∀ v, w.core.registered v = true →
    ∃ r, w.stability.records.get? v = some r ∧ r.lastTick = w.tick

/-- There is nothing to catch up in a record that is at the present tick. -/
theorem catchUp_of_current (h : w.Current) {v : Variable} (hv : w.core.registered v = true) :
    w.catchUp v = .ok w := by
  obtain ⟨r, hr, hlast⟩ := h v hv
  refine bind_eq_ok_iff.mpr ⟨w.stability, bind_eq_ok_iff.mpr ⟨r, ?_, ?_⟩, rfl⟩
  · exact PerVariable.fetch_eq_ok_iff.mpr hr
  · have hsteps : w.tick - r.lastTick = 0 := by omega
    rw [hsteps]
    rfl

/-- Asserting a clause over registered variables at the root succeeds. -/
theorem assertClause_eq (hroot : w.level = 0) (hcurrent : w.Current) {literals : List Literal}
    (hregistered : ∀ l ∈ literals, w.core.registered l.var = true) :
    ∃ position, w.assertClause literals =
      .ok ({ w with core := w.core.assertClause literals }, .ok position) := by
  have hroot' : ¬ w.level ≠ 0 := not_not_intro hroot
  match literals with
  | [] => exact ⟨none, if_neg hroot'⟩
  | [l] =>
    have hcatch := catchUp_of_current hcurrent (hregistered l List.mem_cons_self)
    refine ⟨none, (if_neg hroot').trans ?_⟩
    simp only [assign, hcatch]
    rfl
  | first :: second :: rest =>
    have hfirst := hregistered first List.mem_cons_self
    have hsecond := hregistered second (List.mem_cons_of_mem _ List.mem_cons_self)
    refine ⟨some w.core.store.clauses.size, (if_neg hroot').trans ?_⟩
    simp only [Core.require, hfirst, hsecond, if_true]
    rfl

/-- At the root, a clause is not refused, and asserting it changes the shared state. -/
theorem assertClause_eq_ok (hroot : w.level = 0) {literals : List Literal}
    {r : Except Refusal (Option Nat)} (h : w.assertClause literals = .ok (w', r)) :
    w'.core = w.core.assertClause literals ∧ ∃ position, r = .ok position := by
  unfold assertClause at h
  rw [if_neg (not_not_intro hroot)] at h
  split at h
  · cases h
    exact ⟨rfl, _, rfl⟩
  · next l =>
    obtain ⟨⟨w₁, _⟩, hassign, h⟩ := bind_eq_ok_iff.mp h
    cases h
    obtain ⟨s, -, rfl⟩ := assign_eq_ok hassign
    exact ⟨rfl, _, rfl⟩
  · obtain ⟨_, -, h⟩ := bind_eq_ok_iff.mp h
    obtain ⟨_, -, h⟩ := bind_eq_ok_iff.mp h
    cases h
    exact ⟨rfl, _, rfl⟩

/-- A new worker whose first variables have just been registered. -/
def seed (settings : Settings K) (n : Nat) : Worker K R :=
  { blank settings with
    core := Core.empty.register n
    stability := ⟨settings.stabilityRate, PerVariable.empty.extend n
      (.fresh settings.stabilityRate 0), .empty⟩
    samples := ⟨settings.trailSampleRate, PerVariable.empty.extend n
      (.fresh settings.trailSampleRate), 0⟩ }

theorem isDecayRate_of_validate {settings : Settings K} (h : settings.validate = .ok ()) :
    Scalar.isDecayRate settings.stabilityRate = true ∧
    Scalar.isDecayRate settings.trailSampleRate = true := by
  have hrate {option : RangedOption} {value : K}
      (h : Settings.checkRate option value = .ok ()) : Scalar.isDecayRate value = true := by
    unfold Settings.checkRate at h
    split at h
    · assumption
    · cases h
  unfold Settings.validate at h
  obtain ⟨_, -, h⟩ := bind_eq_ok_iff.mp h
  obtain ⟨_, -, h⟩ := bind_eq_ok_iff.mp h
  obtain ⟨_, -, h⟩ := bind_eq_ok_iff.mp h
  obtain ⟨_, -, h⟩ := bind_eq_ok_iff.mp h
  obtain ⟨_, hstability, h⟩ := bind_eq_ok_iff.mp h
  exact ⟨hrate hstability, hrate h⟩

/-- As many variables as can be counted can be registered. -/
theorem addVariables_blank {settings : Settings K} (hvalid : settings.validate = .ok ()) {n : Nat}
    (hn : n ≤ Variable.maxCount) :
    (blank settings : Worker K R).addVariables n = .ok (seed settings n, .ok ()) := by
  obtain ⟨hstability, hsamples⟩ := isDecayRate_of_validate hvalid
  have hrequested :
      ¬ Variable.maxCount < min ((blank settings : Worker K R).size + n) maxRequest := by
    have hsize : (blank settings : Worker K R).size = 0 := rfl
    omega
  refine (if_neg hrequested).trans ?_
  refine bind_eq_ok_iff.mpr ⟨_, if_pos (.inr hstability), ?_⟩
  exact bind_eq_ok_iff.mpr ⟨_, if_pos (.inr hsamples), rfl⟩

theorem current_seed (settings : Settings K) {n : Nat} {c : Core} (hsize : c.size = n) :
    Current { (seed settings n : Worker K R) with core := c } := by
  intro v hv
  have hlt : v.index < n := hsize ▸ PerVariable.has_iff.mp hv
  refine ⟨.fresh settings.stabilityRate 0, ?_, rfl⟩
  show (PerVariable.empty.extend n _).get? v = _
  rw [PerVariable.get?_extend, PerVariable.size_empty, if_neg (Nat.not_lt_zero _), Nat.zero_add,
    if_pos hlt]

end Worker

end ClauseSharing
