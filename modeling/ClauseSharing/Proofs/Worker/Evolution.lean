import ClauseSharing.Proofs.Polarity.Credit
import ClauseSharing.Proofs.Worker.Assertion

/-!
What the operations of a worker do to the state that search and import share.

`Worker.Evolves` lists, with the conditions under which each of them comes to pass, all changes that
an operation without breach can make to that state. Whoever wants to show that something holds of
every reachable state goes through this list once. It takes for granted that every registered
variable has a record, which all operations keep up (`Effect.records_size`).
-/

namespace ClauseSharing

variable {K R : Type} [Scalar K]

/-! ## Records -/

namespace Stability

theorem size_catchUp {s s' : Stability K} {v : Variable} {tick : Int} {value : Option Bool}
    (h : s.catchUp v tick value = .ok s') : s'.records.size = s.records.size := by
  unfold catchUp at h
  simp only [bind_eq_ok_iff] at h
  obtain ⟨_, -, _, -, h⟩ := h
  split at h
  · cases h
  split at h
  · cases h
    rfl
  · cases h
    exact PerVariable.size_set ..

theorem size_catchUpEach {s s' : Stability K} {vs : List Variable} {tick : Int}
    {values : Variable → Option Bool} (h : s.catchUpEach vs tick values = .ok s') :
    s'.records.size = s.records.size := by
  induction vs generalizing s with
  | nil =>
    cases h
    rfl
  | cons v vs ih =>
    obtain ⟨s₁, hhead, htail⟩ := bind_eq_ok_iff.mp h
    exact (ih htail).trans (size_catchUp hhead)

/-- Only a variable that has a record is caught up. -/
theorem has_of_catchUp {s s' : Stability K} {v : Variable} {tick : Int} {value : Option Bool}
    (h : s.catchUp v tick value = .ok s') : s.records.has v = true := by
  obtain ⟨r, hr, -⟩ := bind_eq_ok_iff.mp h
  exact PerVariable.has_of_get? (PerVariable.fetch_eq_ok_iff.mp hr)

end Stability

namespace Worker

variable {w w' : Worker K R}

/-- Every operation leaves as many records as variables. -/
theorem Effect.records_size {op : Operation R} (heffect : Effect w op w')
    (h : w.stability.records.size = w.size) : w'.stability.records.size = w'.size := by
  cases heffect with
  | still _ _ hstability hassignment =>
    rw [hstability, h]
    exact congrArg (·.values.size) hassignment.symm
  | counts => exact h
  | registers =>
    refine (PerVariable.size_extend ..).trans ?_
    rw [h]
    exact (PerVariable.size_extend ..).symm
  | assigns _ caught =>
    exact (Stability.size_catchUp caught).trans (h.trans (Core.size_assign ..).symm)
  | decides _ caught =>
    refine (Stability.size_catchUp caught).trans (h.trans ?_)
    exact (Assignment.size_push w.core.assignment.openLevel _ _).symm
  | backjumps _ caught =>
    exact (Stability.size_catchUpEach caught).trans (h.trans (Assignment.size_cut ..).symm)
  | catchesUp caught => exact (Stability.size_catchUpEach caught).trans h
  | passes _ caught =>
    exact (Stability.size_catchUpEach caught).trans (h.trans (size_run ..).symm)

/-! ## The shared state -/

/-- What an operation without breach makes of the state that search and import share. -/
inductive Evolves (w : Worker K R) : Operation R → Core → Prop
  | stays {op : Operation R} : Evolves w op w.core
  | registers {n : Nat} (fits : w.size + n ≤ Variable.maxCount) :
      Evolves w (.addVariables n) (w.core.register n)
  | renames {external : Nat} {v : Variable} {names : Names} {result : Except Refusal Unit}
      (renamed : w.core.names.rename external v = .ok (names, result)) :
      Evolves w (.renameVariable external v) { w.core with names := names }
  | forbids {external : Int32} :
      Evolves w (.forbid external)
        { w.core with forbidden := w.core.forbidden.insert external }
  | retires {op : Operation R} {v : Variable} {state : Participation} (inactive : state ≠ .active)
      (known : w.core.registered v = true) (free : w.core.assignment.value v = none) :
      Evolves w op (w.core.retire v state)
  | asserts {literals : List Literal} (root : w.level = 0)
      (known : ∀ l ∈ literals.take 2, w.core.registered l.var = true) :
      Evolves w (.assertClause literals) (w.core.assertClause literals)
  | assigns {l : Literal} (known : w.core.registered l.var = true) :
      Evolves w (.assign l) (w.core.assign l .propagation).1
  | decides {l : Literal} (known : w.core.registered l.var = true)
      (active : w.core.stateOf l.var = .active)
      (free : w.core.assignment.value l.var = none) :
      Evolves w (.decide l)
        { w.core with assignment := w.core.assignment.openLevel.push l .decision }
  | backjumps {level start : Nat} (starts : w.core.assignment.startOf level = .ok start) :
      Evolves w (.backtrack level)
        { w.core with assignment := w.core.assignment.cut level start }
  | learns {literals : List Literal} {glue : Nat} :
      Evolves w (.learn literals glue) (w.core.insertClause ⟨literals, glue, .learned⟩)
  | passes {batch : List (List Int32)} {probabilities : LiteralLikelihood K} (root : w.level = 0) :
      Evolves w (.runPass batch) (w.selector.run probabilities w.core batch).1
  | traces : Evolves w .setTracer { w.core with trace := some #[] }

omit [Scalar K] in
/-- A variable with a record is registered. -/
theorem registered_of_has (hrecords : w.stability.records.size = w.size) {v : Variable}
    (hv : w.stability.records.has v = true) : w.core.registered v = true := by
  have hlt := PerVariable.has_iff.mp hv
  rw [hrecords] at hlt
  exact PerVariable.has_iff.mpr hlt

theorem evolves_addVariables {n : Nat} {r : Except Refusal Unit}
    (h : w.addVariables n = .ok (w', r)) : Evolves w (.addVariables n) w'.core := by
  rcases addVariables_cases h with rfl | ⟨hfits, -, -, rfl⟩
  · exact .stays
  · exact .registers hfits

theorem evolves_retire {op : Operation R} {v : Variable} {state : Participation}
    (inactive : state ≠ .active) {r : Except Refusal Unit} (h : w.retire v state = .ok (w', r)) :
    Evolves w op w'.core := by
  rcases retire_cases h with rfl | ⟨hknown, hfree, rfl⟩
  · exact .stays
  · exact .retires inactive hknown hfree

theorem evolves_decide {l : Literal} {r : Except Refusal Nat} (h : w.decide l = .ok (w', r)) :
    Evolves w (.decide l) w'.core := by
  rcases decide_cases h with rfl | ⟨hknown, hactive, hfree, -, -, rfl⟩
  · exact .stays
  · exact .decides hknown hactive hfree

/-- A literal that has been assigned had a record, so its variable is registered. -/
theorem core_assign (hrecords : w.stability.records.size = w.size) {l : Literal}
    {r : Except Clash Unit} (h : w.assign l = .ok (w', r)) :
    w.core.registered l.var = true ∧ w'.core = (w.core.assign l .propagation).1 := by
  obtain ⟨s, hs, rfl⟩ := assign_eq_ok h
  exact ⟨registered_of_has hrecords (Stability.has_of_catchUp hs), rfl⟩

theorem evolves_assertClause (hrecords : w.stability.records.size = w.size)
    {literals : List Literal} {r : Except Refusal (Option Nat)}
    (h : w.assertClause literals = .ok (w', r)) :
    Evolves w (.assertClause literals) w'.core := by
  unfold assertClause at h
  split at h
  · cases h
    exact .stays
  next hroot =>
  have hroot : w.level = 0 := Decidable.not_not.mp hroot
  split at h
  · cases h
    exact .asserts hroot nofun
  · next l =>
    obtain ⟨⟨w₁, _⟩, hassign, h⟩ := bind_eq_ok_iff.mp h
    cases h
    obtain ⟨hknown, hcore⟩ := core_assign hrecords hassign
    rw [hcore]
    refine .asserts hroot fun m hm => ?_
    rw [List.mem_singleton.mp (List.mem_of_mem_take hm)]
    exact hknown
  · next first second rest =>
    obtain ⟨_, hfirst, h⟩ := bind_eq_ok_iff.mp h
    obtain ⟨_, hsecond, h⟩ := bind_eq_ok_iff.mp h
    cases h
    refine .asserts hroot fun m hm => ?_
    rcases List.mem_cons.mp hm with rfl | hm
    · exact require_eq_ok_iff.mp hfirst
    · rw [List.mem_singleton.mp hm]
      exact require_eq_ok_iff.mp hsecond

theorem evolves_runPass (w : Worker K R) (batch : List (List Int32)) :
    Evolves w (.runPass batch) (w.runPass batch).1.core := by
  unfold runPass
  split
  · exact .stays
  · next hroot =>
    split
    · exact .stays
    · next w₁ hcatch =>
      obtain ⟨s, -, hw⟩ := bind_eq_ok_iff.mp hcatch
      cases hw
      exact .passes (Decidable.not_not.mp hroot)

variable [Recorder R K]

theorem evolves_learn {literals : List Literal} {glue : Nat} {r : Option Nat}
    (h : w.learn literals glue = .ok (w', r)) : Evolves w (.learn literals glue) w'.core := by
  obtain ⟨w₁, hnote, h⟩ := bind_eq_ok_iff.mp h
  obtain ⟨-, -, hcore⟩ := noteLearned_eq_ok hnote
  split at h
  · cases h
    rw [hcore]
    exact .stays
  · cases h
    rw [hcore]
    exact .learns

/-- Every operation without breach changes the shared state in one of the listed ways. -/
theorem evolves_step (hrecords : w.stability.records.size = w.size) {op : Operation R} :
    Evolves w op (w.step op).1.core := by
  have hself : Evolves w op w.core := .stays
  cases op with
  | addVariables n => exact settle_fst hself fun _ _ => evolves_addVariables
  | renameVariable external v =>
    refine settle_fst (P := fun w' : Worker K R => Evolves w _ w'.core) hself fun _ _ h => ?_
    obtain ⟨⟨names, result⟩, hnames, h⟩ := bind_eq_ok_iff.mp h
    cases h
    exact .renames hnames
  | forbid external => exact .forbids
  | eliminate v => exact settle_fst hself fun _ _ => evolves_retire (by decide)
  | substitute v => exact settle_fst hself fun _ _ => evolves_retire (by decide)
  | assertClause literals => exact settle_fst hself fun _ _ => evolves_assertClause hrecords
  | decide l => exact settle_fst hself fun _ _ => evolves_decide
  | assign l =>
    rcases hassign : w.assign l with b | ⟨w', r⟩
    · simp only [step, hassign]
      exact hself
    · obtain ⟨hknown, hcore⟩ := core_assign hrecords hassign
      have h : Evolves w (.assign l) w'.core := hcore ▸ .assigns hknown
      cases r <;> simp only [step, hassign] <;> exact h
  | backtrack level =>
    refine change_fst (P := fun w' : Worker K R => Evolves w _ w'.core) hself fun _ h => ?_
    obtain ⟨start, hstart, h⟩ := bind_eq_ok_iff.mp h
    obtain ⟨_, -, h⟩ := bind_eq_ok_iff.mp h
    cases h
    exact .backjumps hstart
  | conflict =>
    refine finish_fst (P := fun w' : Worker K R => Evolves w _ w'.core) hself fun _ _ h => ?_
    obtain ⟨_, -, h⟩ := bind_eq_ok_iff.mp h
    cases h
    exact hself
  | catchUpAll =>
    refine change_fst (P := fun w' : Worker K R => Evolves w _ w'.core) hself fun _ h => ?_
    obtain ⟨_, -, h⟩ := bind_eq_ok_iff.mp h
    cases h
    exact hself
  | observeTrail =>
    refine change_fst (P := fun w' : Worker K R => Evolves w _ w'.core) hself fun _ h => ?_
    obtain ⟨_, -, h⟩ := bind_eq_ok_iff.mp h
    cases h
    exact hself
  | runPass batch =>
    rw [step_runPass_fst]
    exact evolves_runPass w batch
  | learn literals glue => exact finish_fst hself fun _ _ => evolves_learn
  | noteLearned literals glue =>
    refine change_fst (P := fun w' : Worker K R => Evolves w _ w'.core) hself fun _ h => ?_
    obtain ⟨-, -, hcore⟩ := noteLearned_eq_ok h
    exact hcore ▸ hself
  | noteConflict literals =>
    refine change_fst (P := fun w' : Worker K R => Evolves w _ w'.core) hself fun _ h => ?_
    obtain ⟨_, -, h⟩ := bind_eq_ok_iff.mp h
    obtain ⟨_, -, h⟩ := bind_eq_ok_iff.mp h
    cases h
    exact hself
  | setJournal r => exact .stays
  | setTracer => exact .traces

/-- What holds of the state without variables and is kept by every change on the list holds of the
shared state of every reachable worker. -/
theorem Reachable.core_induction {settings : Settings K} {P : Core → Prop} (start : P .empty)
    (evolves : ∀ (w : Worker K R) op c, Evolves w op c → P w.core → P c)
    (h : Reachable settings w) : P w.core := by
  refine (h.induction (P := fun w => w.stability.records.size = w.size ∧ P w.core)
    (fun w hw => ?_) fun w op hw hop => ?_).2
  · obtain ⟨-, rfl⟩ := create_eq_ok_iff.mp hw
    exact ⟨rfl, start⟩
  · obtain ⟨hrecords, hcore⟩ := hw
    exact ⟨(effect_step hop).records_size hrecords, evolves w op _ (evolves_step hrecords) hcore⟩

end Worker

end ClauseSharing
