import ClauseSharing.Proofs.Worker.Assignment
import ClauseSharing.Proofs.Worker.Run

/-!
What the operations of a worker do to its assignment and to its records.

`Worker.Effect` lists the ways in which an operation without breach changes the assignment, the
records of the polarities and the tick. Most operations change none of them. What is said of runs in
terms of these three parts is proved effect by effect, not operation by operation.
-/

namespace ClauseSharing

variable {K R : Type} [Scalar K]

/-- Counting a conflict is what moves the tick on. -/
def Operation.isConflict : Operation R → Bool
  | .conflict => true
  | _ => false

namespace Worker

/-- What an operation without breach makes of a worker, as far as the assignment, the records and
the tick are concerned. -/
inductive Effect (w : Worker K R) : Operation R → Worker K R → Prop
  | still {op : Operation R} {w' : Worker K R} (timeless : op.isConflict = false)
      (tick_eq : w'.tick = w.tick) (stability_eq : w'.stability = w.stability)
      (assignment_eq : w'.core.assignment = w.core.assignment) : Effect w op w'
  | counts (fits : w.tick + 1 < 0x8000000000000000) :
      Effect w .conflict { w with tick := w.tick + 1 }
  | registers {n : Nat} {samples : TrailSamples K} (fits : w.size + n ≤ Variable.maxCount) :
      Effect w (.addVariables n)
        { w with
          core := w.core.register n
          stability := { w.stability with
            records := w.stability.records.extend n (.fresh w.stability.rate w.tick) }
          samples := samples }
  | assigns {op : Operation R} {l : Literal} {s : Stability K} (timeless : op.isConflict = false)
      (caught : w.stability.catchUp l.var w.tick (w.core.assignment.value l.var) = .ok s) :
      Effect w op { w with core := (w.core.assign l .propagation).1, stability := s }
  | decides {l : Literal} {s : Stability K} (free : w.core.assignment.value l.var = none)
      (caught : w.stability.catchUp l.var w.tick (w.core.assignment.value l.var) = .ok s) :
      Effect w (.decide l)
        { w with
          core.assignment := w.core.assignment.openLevel.push l .decision
          stability := s }
  | backjumps {level start : Nat} {s : Stability K}
      (starts : w.core.assignment.startOf level = .ok start)
      (caught : w.stability.catchUpEach ((w.core.assignment.above start).map (·.literal.var)) w.tick
        w.core.assignment.value = .ok s) :
      Effect w (.backtrack level)
        { w with core.assignment := w.core.assignment.cut level start, stability := s }
  | catchesUp {s : Stability K}
      (caught : w.stability.catchUpAll w.tick w.core.assignment.value = .ok s) :
      Effect w .catchUpAll { w with stability := s }
  | passes {batch : List (List Int32)} {s : Stability K} (root : w.level = 0)
      (caught : w.stability.catchUpAll w.tick w.core.assignment.value = .ok s) :
      Effect w (.runPass batch)
        { w with core := (w.selector.run s.probabilities w.core batch).1, stability := s }

variable {w w' : Worker K R}

theorem effect_self {op : Operation R} (timeless : op.isConflict = false) : Effect w op w :=
  .still timeless rfl rfl rfl

/-! ## Variables -/

/-- Registering variables does nothing, or gives the records of the new ones to all parts. -/
theorem addVariables_cases {n : Nat} {r : Except Refusal Unit}
    (h : w.addVariables n = .ok (w', r)) :
    w' = w ∨
    (w.size + n ≤ Variable.maxCount ∧ ∃ samples, w.samples.register n = .ok samples ∧
      w' = { w with
        core := w.core.register n
        stability := { w.stability with
          records := w.stability.records.extend n (.fresh w.stability.rate w.tick) }
        samples := samples }) := by
  unfold addVariables at h
  dsimp only at h
  split at h
  · cases h
    exact .inl rfl
  · next hfits =>
    obtain ⟨s, hs, h⟩ := bind_eq_ok_iff.mp h
    obtain ⟨samples, hsamples, h⟩ := bind_eq_ok_iff.mp h
    cases h
    unfold Stability.register at hs
    split at hs
    · cases hs
      refine .inr ⟨?_, samples, hsamples, rfl⟩
      unfold maxRequest Variable.maxCount at *
      omega
    · cases hs

theorem effect_addVariables {n : Nat} {r : Except Refusal Unit}
    (h : w.addVariables n = .ok (w', r)) : Effect w (.addVariables n) w' := by
  rcases addVariables_cases h with rfl | ⟨hfits, samples, -, rfl⟩
  · exact effect_self rfl
  · exact .registers hfits

theorem require_eq_ok_iff {c : Core} {v : Variable} {u : Unit} :
    c.require v = .ok u ↔ c.registered v = true := by
  unfold Core.require
  split
  · next h => exact ⟨fun _ => h, fun _ => rfl⟩
  · next h => exact ⟨nofun, fun hv => absurd hv h⟩

omit [Scalar K] in
/-- Only a registered variable without value is retired. -/
theorem retire_cases {v : Variable} {state : Participation} {r : Except Refusal Unit}
    (h : w.retire v state = .ok (w', r)) :
    w' = w ∨
    (w.core.registered v = true ∧ w.core.assignment.value v = none ∧
      w' = { w with core := w.core.retire v state }) := by
  obtain ⟨_, hknown, h⟩ := bind_eq_ok_iff.mp h
  split at h
  · cases h
    exact .inl rfl
  · next hfree =>
    cases h
    exact .inr ⟨require_eq_ok_iff.mp hknown, by simpa using hfree, rfl⟩

theorem effect_retire {op : Operation R} {v : Variable} {state : Participation}
    {r : Except Refusal Unit} (timeless : op.isConflict = false)
    (h : w.retire v state = .ok (w', r)) : Effect w op w' := by
  rcases retire_cases h with rfl | ⟨-, -, rfl⟩
  · exact effect_self timeless
  · exact .still timeless rfl rfl (Core.assignment_retire ..)

/-! ## Search -/

theorem assign_eq_ok {l : Literal} {r : Except Clash Unit} (h : w.assign l = .ok (w', r)) :
    ∃ s, w.stability.catchUp l.var w.tick (w.core.assignment.value l.var) = .ok s ∧
      w' = { w with core := (w.core.assign l .propagation).1, stability := s } := by
  obtain ⟨w₁, hcatch, h⟩ := bind_eq_ok_iff.mp h
  obtain ⟨s, hs, hw⟩ := bind_eq_ok_iff.mp hcatch
  cases hw
  cases h
  exact ⟨s, hs, rfl⟩

theorem effect_assign {op : Operation R} {l : Literal} {r : Except Clash Unit}
    (timeless : op.isConflict = false) (h : w.assign l = .ok (w', r)) : Effect w op w' := by
  obtain ⟨s, hs, rfl⟩ := assign_eq_ok h
  exact .assigns timeless hs

/-- On a new level, assigning a free literal cannot fail. -/
theorem assign_openLevel {c : Core} {l : Literal} (free : c.assignment.value l.var = none) :
    Core.assign { c with assignment := c.assignment.openLevel } l .decision =
      ({ c with assignment := c.assignment.openLevel.push l .decision }, .ok ()) :=
  Core.assign_of_free (c := { c with assignment := c.assignment.openLevel }) free .decision

/-- Only a registered and active variable without value is decided. -/
theorem decide_cases {l : Literal} {r : Except Refusal Nat} (h : w.decide l = .ok (w', r)) :
    w' = w ∨
    (w.core.registered l.var = true ∧ w.core.stateOf l.var = .active ∧
      w.core.assignment.value l.var = none ∧
      ∃ s, w.stability.catchUp l.var w.tick (w.core.assignment.value l.var) = .ok s ∧
        w' = { w with
          core.assignment := w.core.assignment.openLevel.push l .decision
          stability := s }) := by
  obtain ⟨_, hknown, h⟩ := bind_eq_ok_iff.mp h
  split at h
  · cases h
    exact .inl rfl
  split at h
  · cases h
    exact .inl rfl
  · next hactive hassigned =>
    obtain ⟨w₁, hcatch, h⟩ := bind_eq_ok_iff.mp h
    obtain ⟨s, hs, hw⟩ := bind_eq_ok_iff.mp hcatch
    cases hw
    have hfree : w.core.assignment.value l.var = none := by simpa using hassigned
    simp only [assign_openLevel hfree] at h
    cases h
    exact .inr ⟨require_eq_ok_iff.mp hknown, Decidable.not_not.mp hactive, hfree, s, hs, rfl⟩

theorem effect_decide {l : Literal} {r : Except Refusal Nat} (h : w.decide l = .ok (w', r)) :
    Effect w (.decide l) w' := by
  rcases decide_cases h with rfl | ⟨-, -, hfree, s, hs, rfl⟩
  · exact effect_self rfl
  · exact .decides hfree hs

theorem effect_backtrack {level : Nat} (h : w.backtrack level = .ok w') :
    Effect w (.backtrack level) w' := by
  obtain ⟨start, hstart, h⟩ := bind_eq_ok_iff.mp h
  obtain ⟨s, hs, h⟩ := bind_eq_ok_iff.mp h
  cases h
  exact .backjumps hstart hs

theorem effect_catchUpAll (h : w.catchUpAll = .ok w') : Effect w .catchUpAll w' := by
  obtain ⟨s, hs, h⟩ := bind_eq_ok_iff.mp h
  cases h
  exact .catchesUp hs

/-! ## Clauses -/

theorem effect_assertClause {literals : List Literal} {r : Except Refusal (Option Nat)}
    (h : w.assertClause literals = .ok (w', r)) : Effect w (.assertClause literals) w' := by
  unfold assertClause at h
  split at h
  · cases h
    exact effect_self rfl
  split at h
  · cases h
    exact .still rfl rfl rfl rfl
  · obtain ⟨⟨w₁, _⟩, hassign, h⟩ := bind_eq_ok_iff.mp h
    cases h
    exact effect_assign rfl hassign
  · obtain ⟨_, -, h⟩ := bind_eq_ok_iff.mp h
    obtain ⟨_, -, h⟩ := bind_eq_ok_iff.mp h
    cases h
    exact .still rfl rfl rfl (Core.assignment_insertClause ..)

theorem effect_runPass (w : Worker K R) (batch : List (List Int32)) :
    Effect w (.runPass batch) (w.runPass batch).1 := by
  unfold runPass
  split
  · exact effect_self rfl
  · next hroot =>
    split
    · exact effect_self rfl
    · next w₁ hcatch =>
      obtain ⟨s, hs, hw⟩ := bind_eq_ok_iff.mp hcatch
      cases hw
      exact .passes (Decidable.not_not.mp hroot) hs

variable [Recorder R K]

theorem noteLearned_eq_ok {literals : List Literal} {glue : Nat}
    (h : w.noteLearned literals glue = .ok w') :
    w'.tick = w.tick ∧ w'.stability = w.stability ∧ w'.core = w.core := by
  obtain ⟨_, -, h⟩ := bind_eq_ok_iff.mp h
  cases h
  exact ⟨rfl, rfl, rfl⟩

theorem effect_learn {literals : List Literal} {glue : Nat} {r : Option Nat}
    (h : w.learn literals glue = .ok (w', r)) : Effect w (.learn literals glue) w' := by
  obtain ⟨w₁, hnote, h⟩ := bind_eq_ok_iff.mp h
  obtain ⟨htick, hstability, hcore⟩ := noteLearned_eq_ok hnote
  split at h
  · cases h
    exact .still rfl htick hstability (congrArg Core.assignment hcore)
  · cases h
    refine .still rfl htick hstability ?_
    exact (Core.assignment_insertClause ..).trans (congrArg Core.assignment hcore)

/-! ## All operations -/

/-- Every operation without breach has one of the listed effects. -/
theorem effect_step {op : Operation R} (hop : (w.step op).2.isBreach = false) :
    Effect w op (w.step op).1 := by
  cases op with
  | addVariables n => exact settle_fst (effect_self rfl) fun _ _ => effect_addVariables
  | conflict =>
    rcases hconflict : w.conflict with b | ⟨w', tick⟩
    · simp [step, finish, hconflict, Answer.isBreach] at hop
    · obtain ⟨_, htick, h⟩ := bind_eq_ok_iff.mp hconflict
      cases h
      obtain ⟨rfl, -, hfits⟩ := inWord64_eq_ok_iff.mp htick
      simp only [step, finish, hconflict]
      exact .counts hfits
  | renameVariable external v =>
    refine settle_fst (effect_self rfl) fun _ _ h => ?_
    obtain ⟨_, -, h⟩ := bind_eq_ok_iff.mp h
    cases h
    exact .still rfl rfl rfl rfl
  | eliminate v | substitute v =>
    exact settle_fst (effect_self rfl) fun _ _ => effect_retire rfl
  | forbid | setJournal | setTracer => exact .still rfl rfl rfl rfl
  | assertClause literals => exact settle_fst (effect_self rfl) fun _ _ => effect_assertClause
  | decide l => exact settle_fst (effect_self rfl) fun _ _ => effect_decide
  | assign l =>
    -- A clash is answered as such, but the record has been caught up before it shows.
    rcases hassign : w.assign l with b | ⟨w', r⟩
    · simp only [step, hassign]
      exact effect_self rfl
    · have h : Effect w (.assign l) w' := effect_assign rfl hassign
      cases r <;> simp only [step, hassign] <;> exact h
  | backtrack level => exact change_fst (effect_self rfl) fun _ => effect_backtrack
  | catchUpAll => exact change_fst (effect_self rfl) fun _ => effect_catchUpAll
  | observeTrail =>
    refine change_fst (effect_self rfl) fun _ h => ?_
    obtain ⟨_, -, h⟩ := bind_eq_ok_iff.mp h
    cases h
    exact .still rfl rfl rfl rfl
  | runPass batch =>
    rw [step_runPass_fst]
    exact effect_runPass w batch
  | learn literals glue => exact finish_fst (effect_self rfl) fun _ _ => effect_learn
  | noteLearned literals glue =>
    refine change_fst (effect_self rfl) fun _ h => ?_
    obtain ⟨htick, hstability, hcore⟩ := noteLearned_eq_ok h
    exact .still rfl htick hstability (congrArg Core.assignment hcore)
  | noteConflict literals =>
    refine change_fst (effect_self rfl) fun _ h => ?_
    obtain ⟨_, -, h⟩ := bind_eq_ok_iff.mp h
    obtain ⟨_, -, h⟩ := bind_eq_ok_iff.mp h
    cases h
    exact .still rfl rfl rfl rfl

end Worker

end ClauseSharing
