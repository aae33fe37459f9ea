import ClauseSharing.Proofs.Import.Units
import ClauseSharing.Proofs.Polarity.Timing
import ClauseSharing.Proofs.Worker.Completion

/-!
An import pass never leaves the contract of a worker.

The payloads of a batch come from elsewhere and may hold any words. Whatever they are, a pass meets
no breach, as long as the operations before it mentioned registered variables only
(`Worker.runPass_never_breaches`). A pass asks for four things: that all records can be caught up,
that the variables behind names have slots in all tables, that a literal to be assigned is
unassigned at the root, and that the check of completion answers. The state offers these at every
payload (`Core.Receptive`), and a breach could only come from the last of them
(`Selector.status_of_breach`).
-/

namespace ClauseSharing

/-! ## Where a breach can come from -/

section Breaches

variable {T K : Type} [Recipient T]

/-- A pass over a batch breaches only with the status of the recipient that it leaves. -/
theorem Pass.status_of_breach {p : Pass T K} {batch : List (List Int32)} {b : Breach}
    (h : (p.consume batch).2 = .error (.breach b)) :
    SolveStatus.of (p.consume batch).1.recipient = .error b := by
  induction batch generalizing p with
  | nil => cases h
  | cons payload rest ih =>
    rw [consume_cons] at h ⊢
    split at h
    · cases h
    split at h
    · next hstatus =>
      cases h
      exact hstatus
    split at h
    · cases h
    · next hgo =>
      rw [if_neg hgo]
      exact ih h

theorem Selector.status_of_breach [Scalar K] {s : Selector K}
    {probabilities : LiteralLikelihood K} {t : T} {batch : List (List Int32)} {b : Breach}
    (h : (s.run probabilities t batch).2 = .error (.breach b)) :
    SolveStatus.of (s.run probabilities t batch).1 = .error b := by
  unfold run at h ⊢
  split at h
  · next p e hconsume =>
    cases h
    have hbreach := congrArg Prod.snd hconsume
    have hstatus := Pass.status_of_breach hbreach
    rwa [hconsume] at hstatus
  · cases h
  · next p hconsume =>
    dsimp only at h ⊢
    split at h
    · next hstatus =>
      cases h
      exact hstatus
    · cases h

end Breaches

/-! ## Clauses of the formula over registered variables -/

namespace Core

variable {c d : Core}

theorem registered_of_size_le (hsize : c.size ≤ d.size) {v : Variable}
    (hv : c.registered v = true) : d.registered v = true :=
  PerVariable.has_iff.mpr (Nat.lt_of_lt_of_le (PerVariable.has_iff.mp hv) hsize)

namespace InputsRegistered

theorem empty : InputsRegistered .empty := by
  intro clause hclause
  have hnone : inputs .empty = [] := rfl
  rw [hnone] at hclause
  cases hclause

/-- Neither other parts of the state nor more variables matter. -/
theorem mono (h : c.InputsRegistered) (hclauses : d.store.clauses = c.store.clauses)
    (hsize : c.size ≤ d.size) : d.InputsRegistered := by
  intro clause hclause l hl
  rw [inputs, hclauses] at hclause
  exact registered_of_size_le hsize (h clause hclause l hl)

theorem assign (h : c.InputsRegistered) (l : Literal) (reason : Reason) :
    (c.assign l reason).1.InputsRegistered :=
  h.mono (congrArg (·.clauses) (store_assign c l reason)) (Nat.le_of_eq (size_assign ..).symm)

/-- A derived clause is none of the formula. -/
theorem insertClause (h : c.InputsRegistered) {clause : StoredClause}
    (hclause : clause.isDerived = false → ∀ l ∈ clause.literals, c.registered l.var = true) :
    (c.insertClause clause).InputsRegistered := by
  intro stored hstored l hl
  refine registered_of_size_le (Nat.le_of_eq (size_insertClause c clause).symm) ?_
  rw [inputs, clauses_insertClause, Array.toList_push, List.filter_append, List.mem_append]
    at hstored
  rcases hstored with hold | hnew
  · exact h stored hold l hl
  · obtain ⟨hmem, hinput⟩ := List.mem_filter.mp hnew
    rw [List.mem_singleton.mp hmem] at hinput hl
    exact hclause (Bool.not_eq_true' _ ▸ hinput) l hl

theorem assertClause (h : c.InputsRegistered) {literals : List Literal}
    (hliterals : ∀ l ∈ literals, c.registered l.var = true) :
    (c.assertClause literals).InputsRegistered := by
  unfold Core.assertClause
  split
  · exact h
  · exact h.assign _ .propagation
  · exact h.insertClause fun _ => hliterals

theorem run {K : Type} [Scalar K] (h : c.InputsRegistered) (s : Selector K)
    (probabilities : LiteralLikelihood K) (batch : List (List Int32)) :
    (s.run probabilities c batch).1.InputsRegistered :=
  Selector.run_induction (P := InputsRegistered) (fun _ _ l _ h => h.assign l .propagation)
    (fun _ _ h => h.insertClause nofun) s probabilities h batch

end InputsRegistered

/-! ## What a pass asks of the state -/

/-- Whatever a pass may ask of the state when it comes to a payload, the state answers it. -/
structure Receptive (c : Core) : Prop where
  root : c.assignment.level = 0
  aligned : c.Aligned
  /-- Names stand for variables that have slots. -/
  registered : ∀ external l, c.names.resolve external = some l → c.registered l.var = true
  /-- A unit that can be taken is unassigned. -/
  assigns : ∀ external l, unitToAssign c external = some l →
    (c.assign l .propagation).2 = .ok ()
  answers : ∃ status, SolveStatus.of c = .ok status

theorem WellFormed.exists_status (h : c.WellFormed) (hinputs : c.InputsRegistered) :
    ∃ status, SolveStatus.of c = .ok status := by
  obtain ⟨b, hb⟩ := h.exists_isComplete_eq_ok hinputs
  have hcomplete : Recipient.isComplete c = .ok b := hb
  unfold SolveStatus.of
  split
  · exact ⟨.unsatisfied, rfl⟩
  · rw [hcomplete]
    cases b with
    | true => exact ⟨.satisfied, rfl⟩
    | false => exact ⟨.unknown, rfl⟩

theorem WellFormed.receptive (h : c.WellFormed) (root : c.assignment.level = 0)
    (hwatchers : c.Watchable) (hinputs : c.InputsRegistered) : c.Receptive where
  root := root
  aligned := h.aligned hwatchers
  registered _ _ := h.registered_of_resolve
  assigns external l taken := by
    obtain ⟨-, hfree⟩ := h.free_of_active root (unitToAssign_eq_some taken).2
    rw [assign_of_free hfree]
  answers := h.exists_status hinputs

variable {units : List Literal}

theorem FixesUnits.size_eq (h : FixesUnits c d units) (hc : c.WellFormed) : d.size = c.size := by
  rw [← h.wellFormed.states_size, h.states, hc.states_size]

/-- Assigning units leaves the state as receptive as it was. -/
theorem FixesUnits.receptive (h : FixesUnits c d units) (hc : c.WellFormed)
    (root : c.assignment.level = 0) (hwatchers : c.Watchable) (hinputs : c.InputsRegistered) :
    d.Receptive := by
  have hsize := h.size_eq hc
  refine h.wellFormed.receptive (h.root_iff.mpr root) ?_ ?_
  · rw [Watchable, h.store, hsize]
    exact hwatchers
  · exact hinputs.mono (congrArg (·.clauses) h.store) (Nat.le_of_eq hsize.symm)

end Core

/-! ## Runs over registered variables -/

/-- The variables that are mentioned in the arguments of an operation. -/
def Operation.variables {R : Type} : Operation R → List Variable
  | .renameVariable _ v => [v]
  | .eliminate v => [v]
  | .substitute v => [v]
  | .decide l => [l.var]
  | .assign l => [l.var]
  | .assertClause literals => literals.map (·.var)
  | .learn literals _ => literals.map (·.var)
  | .noteLearned literals _ => literals.map (·.var)
  | .noteConflict literals => literals.map (·.var)
  | _ => []

/-- The literals that asserting a clause leaves unchecked. Only the first two get watchers; of the
others, those whose variables are above both go unnoticed even if they are unregistered. -/
def uncheckedLiterals (literals : List Literal) : List Literal :=
  (literals.drop 2).filter fun l => (literals.take 2).all fun m => m.var.index < l.var.index

theorem Core.registered_of_checked {c : Core} {literals : List Literal}
    (hchecked : ∀ l ∈ literals.take 2, c.registered l.var = true)
    (hrest : ∀ l ∈ uncheckedLiterals literals, c.registered l.var = true) :
    ∀ l ∈ literals, c.registered l.var = true := by
  intro l hl
  rw [← List.take_append_drop 2 literals] at hl
  rcases List.mem_append.mp hl with hl | hl
  · exact hchecked l hl
  by_cases habove : (literals.take 2).all fun m => m.var.index < l.var.index
  · exact hrest l (List.mem_filter.mpr ⟨hl, habove⟩)
  · -- Variables are registered from below.
    obtain ⟨m, hm, hle⟩ : ∃ m ∈ literals.take 2, l.var.index ≤ m.var.index := by
      simpa using habove
    have hlt := PerVariable.has_iff.mp (hchecked m hm)
    exact PerVariable.has_iff.mpr (Nat.lt_of_le_of_lt hle hlt)

/-- The literals of an operation that it leaves unchecked. -/
def Operation.unchecked {R : Type} : Operation R → List Literal
  | .assertClause literals => uncheckedLiterals literals
  | _ => []

theorem Operation.var_mem_variables {R : Type} {op : Operation R} {l : Literal}
    (hl : l ∈ op.unchecked) : l.var ∈ op.variables := by
  cases op with
  | assertClause literals =>
    exact List.mem_map_of_mem (List.mem_of_mem_drop (List.mem_filter.mp hl).1)
  | _ => cases hl

namespace Worker

variable {K R : Type} [Scalar K] [Recorder R K] {w : Worker K R} {settings : Settings K}

/-- Every variable that an operation of the run mentions is registered at the time. -/
def MentionsRegistered (w : Worker K R) : List (Operation R) → Prop
  | [] => True
  | op :: ops =>
    (∀ v ∈ op.variables, w.core.registered v = true) ∧ (w.step op).1.MentionsRegistered ops

instance decidableMentionsRegistered (w : Worker K R) :
    (ops : List (Operation R)) → Decidable (w.MentionsRegistered ops)
  | [] => isTrue trivial
  | op :: ops =>
    -- More variables are registered along the run.
    have := decidableMentionsRegistered (w.step op).1 ops
    inferInstanceAs (Decidable (_ ∧ _))

/-- Every literal that an operation of the run leaves unchecked is registered at the time. -/
def AssertsRegistered (w : Worker K R) : List (Operation R) → Prop
  | [] => True
  | op :: ops =>
    (∀ l ∈ op.unchecked, w.core.registered l.var = true) ∧ (w.step op).1.AssertsRegistered ops

instance decidableAssertsRegistered (w : Worker K R) :
    (ops : List (Operation R)) → Decidable (w.AssertsRegistered ops)
  | [] => isTrue trivial
  | op :: ops =>
    have := decidableAssertsRegistered (w.step op).1 ops
    inferInstanceAs (Decidable (_ ∧ _))

theorem MentionsRegistered.assertsRegistered {ops : List (Operation R)}
    (h : w.MentionsRegistered ops) : w.AssertsRegistered ops := by
  induction ops generalizing w with
  | nil => trivial
  | cons op ops ih => exact ⟨fun l hl => h.1 l.var (op.var_mem_variables hl), ih h.2⟩

omit [Recorder R K] in
theorem Evolves.inputsRegistered {op : Operation R} {c : Core} (hevolves : Evolves w op c)
    (hop : ∀ l ∈ op.unchecked, w.core.registered l.var = true) (h : w.core.InputsRegistered) :
    c.InputsRegistered := by
  cases hevolves with
  | stays | renames | forbids | traces => exact h
  | @registers n =>
    have hsize : (w.core.register n).size = w.core.size + n := PerVariable.size_extend ..
    exact h.mono rfl (hsize ▸ Nat.le_add_right ..)
  | retires =>
    exact h.mono (congrArg (·.clauses) (Core.store_retire ..))
      (Nat.le_of_eq (Core.size_retire ..).symm)
  | asserts root known => exact h.assertClause (Core.registered_of_checked known hop)
  | assigns => exact h.assign _ .propagation
  | @decides l =>
    have hsize := Assignment.size_push w.core.assignment.openLevel l .decision
    exact h.mono rfl (Nat.le_of_eq hsize.symm)
  | backjumps => exact h.mono rfl (Nat.le_of_eq (Assignment.size_cut ..).symm)
  | learns => exact h.insertClause nofun
  | passes => exact h.run _ _ _

theorem inputsRegistered_of_asserts (hrecords : w.stability.records.size = w.size)
    (h : w.core.InputsRegistered) {ops : List (Operation R)} (hops : w.Completes ops)
    (hasserts : w.AssertsRegistered ops) : (w.after ops).core.InputsRegistered := by
  induction ops generalizing w with
  | nil => exact h
  | cons op ops ih =>
    obtain ⟨hop, hrest⟩ := completes_cons.mp hops
    rw [after_cons hops]
    exact ih ((effect_step hop).records_size hrecords)
      ((evolves_step hrecords).inputsRegistered hasserts.1 h) hrest hasserts.2

theorem inputsRegistered_after (hrecords : w.stability.records.size = w.size)
    (h : w.core.InputsRegistered) {ops : List (Operation R)} (hops : w.Completes ops)
    (hmentions : w.MentionsRegistered ops) : (w.after ops).core.InputsRegistered :=
  inputsRegistered_of_asserts hrecords h hops hmentions.assertsRegistered

/-! ## Main statement -/

/-- The variable has its records. They are in time, and all their averages have decay rates. -/
def Recorded (w : Worker K R) (v : Variable) : Prop :=
  ∃ r t, w.stability.records.get? v = some r ∧ w.samples.records.get? v = some t ∧
    (0 ≤ r.lastTick ∧ r.lastTick ≤ w.tick) ∧
    ∀ rate ∈ [r.whenTrue.rate, r.whenFalse.rate, t.decision.rate, t.polarity.rate],
      Scalar.isDecayRate rate = true

theorem Reachable.recorded (hw : Reachable settings w) (hvalid : settings.validate = .ok ())
    {v : Variable} (hv : w.core.registered v = true) : w.Recorded v := by
  have htimed := hw.timed
  have hrated := hw.rated
  have hlt : v.index < w.size := PerVariable.has_iff.mp hv
  obtain ⟨r, hr⟩ := PerVariable.exists_get? (PerVariable.has_iff.mpr (hw.records_size ▸ hlt))
  obtain ⟨t, ht⟩ := PerVariable.exists_get? (PerVariable.has_iff.mpr (hrated.size_eq ▸ hlt))
  obtain ⟨hnonneg, hlast, htrue, hfalse⟩ := htimed.records.record v r hr
  obtain ⟨hdecision, hpolarity⟩ := hrated.averages v t ht
  obtain ⟨hstability, hsamples⟩ := isDecayRate_of_validate hvalid
  refine ⟨r, t, hr, ht, ⟨hnonneg, hlast⟩, ?_⟩
  rw [htrue, hfalse, hdecision, hpolarity, htimed.rate_eq]
  simp [hstability, hsamples]

omit [Recorder R K] in
/-- What a pass adds are clauses of two or more registered literals. -/
theorem added_registered (hcore : w.core.WellFormed) (batch : List (List Int32)) :
    ∀ clause ∈ (w.runPass batch).1.core.store.clauses.toList.drop w.core.store.clauses.size,
      2 ≤ clause.literals.length ∧ ∀ l ∈ clause.literals, w.core.registered l.var = true := by
  obtain ⟨consumed, units, added, store, -, hpass, hclauses, hadmits⟩ := runPass_core hcore batch
  rw [hpass]
  intro clause hclause
  dsimp only at hclause
  rw [hclauses, ← Array.length_toList, List.drop_left] at hclause
  obtain ⟨d, hd, rfl⟩ := List.mem_map.mp hclause
  obtain ⟨m, payload, later, -, -, hleaves, ⟨earlier, hearlier⟩, -⟩ := hadmits d hd
  exact hleaves.registered hearlier.names hcore

omit [Recorder R K] in
/-- Where the check of completion answers and all records can be caught up, a pass answers. -/
theorem runPass_answers (hcore : w.core.WellFormed) (hinputs : w.core.InputsRegistered)
    (hcatch : ∃ w', w.catchUpAll = .ok w') (batch : List (List Int32)) :
    (∃ report, (w.runPass batch).2 = .ok report) ∨
    ∃ refusal, (w.runPass batch).2 = .error (.refused refusal) := by
  obtain ⟨w₁, hcatch⟩ := hcatch
  unfold runPass
  split
  · exact .inr ⟨_, rfl⟩
  rw [hcatch]
  obtain ⟨s, -, hw₁⟩ := bind_eq_ok_iff.mp hcatch
  cases hw₁
  dsimp only
  split
  · exact .inl ⟨_, rfl⟩
  · exact .inr ⟨_, rfl⟩
  · next b hbreach =>
    -- The check of completion would have failed on what the pass leaves behind.
    have hstatus := Selector.status_of_breach hbreach
    obtain ⟨status, hanswer⟩ := (hcore.run w.selector s.probabilities batch).exists_status
      (hinputs.run w.selector s.probabilities batch)
    cases hanswer.symm.trans hstatus

/-- Take a worker with checked settings after any run without breach whose operations mentioned
registered variables only, and any batch whatsoever. All tables have one slot for each registered
variable, the records of every registered variable are in time and have decay rates, and all of them
can be caught up. At the root, the state is receptive at every payload that the pass comes to. Every
clause that the pass adds has two or more literals, all registered. And the pass answers with a
report or a refusal, but never with a breach. -/
theorem runPass_never_breaches {w₀ : Worker K R} (h₀ : create settings = .ok w₀)
    {ops : List (Operation R)} (hops : w₀.Completes ops) (hmentions : w₀.MentionsRegistered ops)
    (batch : List (List Int32)) :
    (w₀.after ops).Aligned ∧
    (∀ v, (w₀.after ops).core.registered v = true → (w₀.after ops).Recorded v) ∧
    (∃ w', (w₀.after ops).catchUpAll = .ok w') ∧
    ((w₀.after ops).level = 0 → ∀ (m : Pass Core K) payload rest,
      (Pass.start (w₀.after ops).core).ComesTo batch m payload rest →
      m.recipient.size = (w₀.after ops).size ∧ m.recipient.Receptive) ∧
    (∀ clause ∈ ((w₀.after ops).runPass batch).1.core.store.clauses.toList.drop
        (w₀.after ops).core.store.clauses.size,
      2 ≤ clause.literals.length ∧
        ∀ l ∈ clause.literals, (w₀.after ops).core.registered l.var = true) ∧
    ((∃ report, ((w₀.after ops).runPass batch).2 = .ok report) ∨
      ∃ refusal, ((w₀.after ops).runPass batch).2 = .error (.refused refusal)) := by
  have hw : Reachable settings (w₀.after ops) := ⟨w₀, ops, h₀, hops, rfl⟩
  have hcore := hw.wellFormed
  have hcatch := hw.timed.exists_catchUpAll
  obtain ⟨hvalid, rfl⟩ := create_eq_ok_iff.mp h₀
  have hinputs : ((blank settings).after ops).core.InputsRegistered :=
    inputsRegistered_after rfl .empty hops hmentions
  refine ⟨hw.aligned, fun v => hw.recorded hvalid, hcatch, ?_, added_registered hcore batch,
    runPass_answers hcore hinputs hcatch batch⟩
  intro root m payload rest hcomes
  obtain ⟨units, hunits⟩ := hcomes.fixesUnits hcore root
  exact ⟨hunits.size_eq hcore, hunits.receptive hcore root hw.watchable hinputs⟩

/-- Three variables, one of them retired, a clause of the formula, and a conflict. -/
def clauseAndConflict : List Operation :=
  [.addVariables 3, .assertClause [.ofVariable .first true, .ofVariable .second true],
    .eliminate .third, .conflict]

/-- Duplicates, a complementary pair, unknown and retired variables, the least number, and a glue
that is none. -/
def strangeBatch : List (List Int32) :=
  [[1, 1, 1], [2, 2, -2], [3, 9, 1], [1, 3, 2], [-2147483648], [1, -2147483648, 1], [0, 1, 2]]

theorem runPass_never_breaches_strangeBatch :
    create (.standard : Settings Rat) = .ok (blank .standard : Worker Rat) ∧
    (blank .standard : Worker Rat).Completes clauseAndConflict ∧
    (blank .standard : Worker Rat).MentionsRegistered clauseAndConflict ∧
    ((blank .standard : Worker Rat).after clauseAndConflict).Aligned ∧
    ((blank .standard : Worker Rat).after clauseAndConflict).core.Receptive ∧
    ∃ refusal, (((blank .standard : Worker Rat).after clauseAndConflict).runPass strangeBatch).2 =
      .error (.refused refusal) := by
  have hcreate : create (.standard : Settings Rat) = .ok (blank .standard : Worker Rat) :=
    create_eq_ok_iff.mpr ⟨Settings.validate_standard, rfl⟩
  have hruns : (blank .standard : Worker Rat).Completes clauseAndConflict := by
    decide +kernel
  have hmentions : (blank .standard : Worker Rat).MentionsRegistered clauseAndConflict := by
    decide +kernel
  obtain ⟨haligned, -, -, hreceptive, -, hanswers⟩ :=
    runPass_never_breaches hcreate hruns hmentions strangeBatch
  have hroot : ((blank .standard : Worker Rat).after clauseAndConflict).level = 0 := by
    decide +kernel
  have hstart := hreceptive hroot _ _ _ (Pass.comesTo_head _ _ _)
  refine ⟨hcreate, hruns, hmentions, haligned, hstart.2, ?_⟩
  rcases hanswers with ⟨report, hreport⟩ | hrefusal
  · have hfails : ((((blank .standard : Worker Rat).after clauseAndConflict).runPass
        strangeBatch).2.toOption).isSome = false := by
      decide +kernel
    rw [hreport] at hfails
    cases hfails
  · exact hrefusal

end Worker

end ClauseSharing
