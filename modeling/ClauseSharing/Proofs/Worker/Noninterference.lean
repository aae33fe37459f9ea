import ClauseSharing.Proofs.Import.Safety
import ClauseSharing.Proofs.Worker.Diagnostics

/-!
Diagnostics do not influence the search.

Two workers search as each other if they differ in their diagnostics only, and their samples have
the same rate and the same number of records (`Worker.SolvesAs`). Every operation of the search
gives them the same answer and leaves them so (`Worker.SolvesAs.step`), and a diagnostic operation
over registered variables leaves a worker that searches as before (`Worker.solvesAs_diagnostic`).

So diagnostic operations can be left out of a run anywhere, and the rest of it goes as before
(`Worker.diagnostics_never_steer`). Nothing is assumed of the recorder that the samples go to: its
writes may fail, and may leave it in any state (`Recorder`).
-/

namespace ClauseSharing

/-- Whether the operation is only there for those who watch the worker. -/
def Operation.isDiagnostic {R : Type} : Operation R → Bool
  | .observeTrail => true
  | .noteLearned _ _ => true
  | .noteConflict _ => true
  | .setJournal _ => true
  | .setTracer => true
  | _ => false

namespace Worker

variable {K R : Type} {w w' w'' : Worker K R}

/-! ## Searching as another worker -/

/-- The workers differ in their diagnostics only, and the samples fit both. -/
def SolvesAs (w w' : Worker K R) : Prop :=
  ∃ d, w' = w.withDiagnostics d ∧ w.samples.Alike d.samples

namespace SolvesAs

theorem refl (w : Worker K R) : w.SolvesAs w := ⟨w.diagnostics, rfl, .refl w.samples⟩

theorem symm (h : w.SolvesAs w') : w'.SolvesAs w := by
  obtain ⟨d, rfl, hd⟩ := h
  exact ⟨w.diagnostics, rfl, hd.symm⟩

theorem trans (h : w.SolvesAs w') (h' : w'.SolvesAs w'') : w.SolvesAs w'' := by
  obtain ⟨d, rfl, hd⟩ := h
  obtain ⟨d', rfl, hd'⟩ := h'
  exact ⟨d', rfl, hd.trans hd'⟩

theorem untraced_eq (h : w.SolvesAs w') : w'.core.untraced = w.core.untraced := by
  obtain ⟨d, rfl, -⟩ := h
  rfl

theorem tick_eq (h : w.SolvesAs w') : w'.tick = w.tick := by
  obtain ⟨d, rfl, -⟩ := h
  rfl

theorem stability_eq (h : w.SolvesAs w') : w'.stability = w.stability := by
  obtain ⟨d, rfl, -⟩ := h
  rfl

/-- Such workers look the same from outside. -/
theorem summary_eq (h : w.SolvesAs w') : w'.summary = w.summary := by
  obtain ⟨d, rfl, -⟩ := h
  rfl

end SolvesAs

/-- Whatever a write does to the recorder, and whether it fails, the worker searches as before. -/
theorem solvesAs_record (w : Worker K R) (write : R → R × Except StreamFault Unit) :
    w.SolvesAs (w.record write) :=
  ⟨(w.record write).diagnostics, rfl, .refl w.samples⟩

/-- The two outcomes of an operation differ in the diagnostics that it leaves behind only. -/
inductive SameOutcome {α : Type} :
    Except Breach (Worker K R × α) → Except Breach (Worker K R × α) → Prop
  | error (b : Breach) : SameOutcome (.error b) (.error b)
  | ok {w w' : Worker K R} (a : α) (h : w.SolvesAs w') : SameOutcome (.ok (w, a)) (.ok (w', a))

/-- What is left of two workers has the same answer and differs in the diagnostics only. -/
def SameStep {α : Type} (outcome outcome' : Worker K R × α) : Prop :=
  outcome'.2 = outcome.2 ∧ outcome.1.SolvesAs outcome'.1

theorem sameStep_settle (h : w.SolvesAs w') {α : Type} (answer : α → Answer K)
    {x x' : Except Breach (Worker K R × Except Refusal α)} (hx : SameOutcome x x') :
    SameStep (w.settle answer x) (w'.settle answer x') := by
  cases hx with
  | error b => exact ⟨rfl, h⟩
  | ok r h => cases r <;> exact ⟨rfl, h⟩

theorem sameStep_finish (h : w.SolvesAs w') {α : Type} (answer : α → Answer K)
    {x x' : Except Breach (Worker K R × α)} (hx : SameOutcome x x') :
    SameStep (w.finish answer x) (w'.finish answer x') := by
  cases hx with
  | error b => exact ⟨rfl, h⟩
  | ok a h => exact ⟨rfl, h⟩

variable [Scalar K]

/-! ## Operations of the search -/

theorem SolvesAs.addVariables (h : w.SolvesAs w') (n : Nat) :
    SameOutcome (w.addVariables n) (w'.addVariables n) := by
  obtain ⟨d, rfl, hd⟩ := h
  unfold Worker.addVariables
  show SameOutcome (if Variable.maxCount < min (w.size + n) maxRequest then _ else _)
    (if Variable.maxCount < min (w.size + n) maxRequest then _ else _)
  split
  · exact .ok _ ⟨d, rfl, hd⟩
  show SameOutcome (w.stability.register n w.tick >>= _) (w.stability.register n w.tick >>= _)
  cases w.stability.register n w.tick with
  | error b => exact .error b
  | ok s =>
    show SameOutcome (w.samples.register n >>= _) (d.samples.register n >>= _)
    rcases hd.register n with ⟨b, hb, hb'⟩ | ⟨t, t', ht, ht', halike⟩
    · rw [hb, hb']
      exact .error b
    · rw [ht, ht']
      exact .ok _ ⟨{ d with samples := t' }, rfl, halike⟩

/-- A pass asks for nothing but the state of the search. -/
theorem SolvesAs.runPass (h : w.SolvesAs w') (batch : List (List Int32)) :
    SameStep (w.runPass batch) (w'.runPass batch) := by
  obtain ⟨d, rfl, hd⟩ := h
  unfold Worker.runPass
  show SameStep (if w.level ≠ 0 then _ else _) (if w.level ≠ 0 then _ else _)
  split
  · exact ⟨rfl, d, rfl, hd⟩
  rw [catchUpAll_withDiagnostics]
  cases hcatch : w.catchUpAll with
  | error b => exact ⟨rfl, d, rfl, hd⟩
  | ok caught =>
    obtain ⟨s, -, hcaught⟩ := bind_eq_ok_iff.mp hcatch
    cases hcaught
    obtain ⟨trace, hrun⟩ :=
      Core.run_withTrace w.selector s.probabilities w.core d.trace batch
    dsimp only [Except.map, withDiagnostics, selector] at hrun ⊢
    rw [hrun]
    exact ⟨rfl, { d with trace := trace }, rfl, hd⟩

variable [Recorder R K]

/-- What does not touch the diagnostics does not depend on them. -/
theorem sameStep_of_carries (h : w.SolvesAs w') {op : Operation R}
    (hop : ∀ d, (w.withDiagnostics d).step op = carry d (w.step op)) :
    SameStep (w.step op) (w'.step op) := by
  obtain ⟨d, rfl, hd⟩ := h
  have hown : (w.step op).1.samples = w.samples :=
    congrArg (fun outcome : Worker K R × Answer K => outcome.1.samples) (hop w.diagnostics)
  rw [hop]
  exact ⟨rfl, d, rfl, hown ▸ hd⟩

/-- Recording a learned clause succeeds exactly if all literals have samples. -/
theorem noteLearned_eq (w : Worker K R) (literals : List Literal) (glue : Nat) :
    ∃ noted, w.SolvesAs noted ∧ w.noteLearned literals glue =
      if w.samples.hasAll literals then .ok noted else .error .unregistered := by
  obtain ⟨fuzzy, hfuzzy⟩ := w.samples.fuzzyGlue_eq literals
  let counted := { w with glue := w.glue.record (w.core.externalImage literals) glue }
  have hcounted : w.SolvesAs counted := ⟨counted.diagnostics, rfl, .refl w.samples⟩
  refine ⟨_, hcounted.trans (counted.solvesAs_record fun r =>
    Recorder.writeGlue r (⟨fuzzy, glue, literals.length⟩ : GlueSample K)), ?_⟩
  unfold noteLearned
  rw [hfuzzy]
  split <;> rfl

theorem noteConflict_eq (w : Worker K R) (literals : List Literal) :
    ∃ noted, w.SolvesAs noted ∧ w.noteConflict literals =
      if w.samples.hasAll literals then .ok noted else .error .unregistered := by
  obtain ⟨probability, hprobability⟩ := w.samples.falsityProbability_eq literals
  obtain ⟨sum, hsum⟩ := w.samples.satisfactionSum_eq literals
  refine ⟨_, w.solvesAs_record fun r =>
    Recorder.writeConflict r (⟨probability, sum, literals.length⟩ : ConflictEstimate K), ?_⟩
  unfold noteConflict
  rw [hprobability, hsum]
  split <;> rfl

/-- Learning asks the samples for the records of all literals, and for nothing else. -/
theorem SolvesAs.learn (h : w.SolvesAs w') (literals : List Literal) (glue : Nat) :
    SameOutcome (w.learn literals glue) (w'.learn literals glue) := by
  obtain ⟨noted, hnoted, hnote⟩ := w.noteLearned_eq literals glue
  obtain ⟨noted', hnoted', hnote'⟩ := w'.noteLearned_eq literals glue
  obtain ⟨d, hd, halike⟩ := (hnoted.symm.trans h).trans hnoted'
  have hhas : w'.samples.hasAll literals = w.samples.hasAll literals := by
    obtain ⟨_, rfl, hsamples⟩ := h
    exact hsamples.hasAll_eq literals
  rw [hhas] at hnote'
  unfold Worker.learn
  rw [hnote, hnote', hd]
  split
  · show SameOutcome (if literals.length < 2 then _ else _) (if literals.length < 2 then _ else _)
    split
    · exact .ok _ ⟨d, rfl, halike⟩
    · obtain ⟨trace, htrace⟩ :=
        noted.core.insertClause_withTrace d.trace ⟨literals, glue, .learned⟩
      refine .ok _ ⟨{ d with trace := trace }, ?_, halike⟩
      exact congrArg (fun core => { noted.withDiagnostics d with core := core }) htrace
  · exact .error _

/-- Every operation of the search gives workers that differ in their diagnostics the same answer,
and leaves them so. -/
theorem SolvesAs.step (h : w.SolvesAs w') {op : Operation R} (hop : op.isDiagnostic = false) :
    SameStep (w.step op) (w'.step op) := by
  cases op with
  | addVariables n => exact sameStep_settle h _ (h.addVariables n)
  | learn literals glue => exact sameStep_finish h _ (h.learn literals glue)
  | runPass batch =>
    obtain ⟨hresult, hworker⟩ := h.runPass batch
    simp only [Worker.step]
    generalize w.runPass batch = outcome, w'.runPass batch = outcome' at hresult hworker
    obtain ⟨w₁, result⟩ := outcome
    obtain ⟨w₁', _⟩ := outcome'
    cases hresult
    rcases result with (_ | _) | _ <;> exact ⟨rfl, hworker⟩
  | renameVariable external v =>
    refine sameStep_of_carries h fun d => ?_
    simp only [Worker.step, renameVariable_withDiagnostics, settle_carry]
  | forbid external => exact sameStep_of_carries h fun d => rfl
  | eliminate v | substitute v =>
    refine sameStep_of_carries h fun d => ?_
    simp only [Worker.step, eliminate, substitute, retire_withDiagnostics, settle_carry]
  | assertClause literals =>
    refine sameStep_of_carries h fun d => ?_
    simp only [Worker.step, assertClause_withDiagnostics, settle_carry]
  | decide l =>
    refine sameStep_of_carries h fun d => ?_
    simp only [Worker.step, decide_withDiagnostics, settle_carry]
  | assign l =>
    refine sameStep_of_carries h fun d => ?_
    simp only [Worker.step, assign_withDiagnostics]
    rcases w.assign l with _ | ⟨_, _ | _⟩ <;> rfl
  | backtrack level =>
    refine sameStep_of_carries h fun d => ?_
    simp only [Worker.step, backtrack_withDiagnostics, change_carry]
  | conflict =>
    refine sameStep_of_carries h fun d => ?_
    simp only [Worker.step, conflict_withDiagnostics, finish_carry]
  | catchUpAll =>
    refine sameStep_of_carries h fun d => ?_
    simp only [Worker.step, catchUpAll_withDiagnostics, change_carry]
  | observeTrail | noteLearned | noteConflict | setJournal | setTracer => cases hop

/-! ## Diagnostic operations -/

/-- All that diagnostic operations ask of a worker: there are as many samples as variables, and
the variables on the trail are registered. -/
structure Sampled (w : Worker K R) : Prop where
  size_eq : w.samples.records.size = w.size
  trail : ∀ e ∈ w.core.assignment.trail.toList, w.core.registered e.literal.var = true

omit [Scalar K] [Recorder R K] in
theorem Sampled.has (h : w.Sampled) {v : Variable} (hv : w.core.registered v = true) :
    w.samples.records.has v = true := by
  have hlt := PerVariable.has_iff.mp hv
  rw [PerVariable.has_iff, h.size_eq]
  exact hlt

omit [Scalar K] [Recorder R K] in
theorem SolvesAs.sampled (h : w.SolvesAs w') (hw : w.Sampled) : w'.Sampled := by
  obtain ⟨d, rfl, hd⟩ := h
  exact ⟨hd.size_eq.trans hw.size_eq, hw.trail⟩

theorem Reachable.sampled {settings : Settings K} (hw : Reachable settings w) : w.Sampled where
  size_eq := hw.rated.size_eq
  trail _ he := Assignment.has_of_value
    (hw.wellFormed.assignment.value_of_mem (Array.mem_toList_iff.mp he))

/-- A diagnostic operation over registered variables is done, and the worker searches as before. -/
theorem solvesAs_diagnostic (hw : w.Sampled) {op : Operation R} (hop : op.isDiagnostic = true)
    (hknown : ∀ v ∈ op.variables, w.core.registered v = true) :
    (w.step op).2 = .done ∧ w.SolvesAs (w.step op).1 := by
  have hhas {literals : List Literal}
      (h : ∀ v ∈ literals.map (·.var), w.core.registered v = true) :
      w.samples.hasAll literals = true :=
    List.all_eq_true.mpr fun l hl => hw.has (h l.var (List.mem_map_of_mem hl))
  cases op with
  | observeTrail =>
    obtain ⟨s, hs, halike⟩ := w.samples.exists_sample fun e he => hw.has (hw.trail e he)
    have hstep : w.step .observeTrail = ({ w with samples := s }, .done) := by
      rw [Worker.step, Worker.observeTrail, hs]
      rfl
    rw [hstep]
    exact ⟨rfl, ⟨{ w.diagnostics with samples := s }, rfl, halike⟩⟩
  | noteLearned literals glue =>
    obtain ⟨noted, hnoted, hnote⟩ := w.noteLearned_eq literals glue
    rw [hhas hknown, if_pos rfl] at hnote
    rw [Worker.step, hnote]
    exact ⟨rfl, hnoted⟩
  | noteConflict literals =>
    obtain ⟨noted, hnoted, hnote⟩ := w.noteConflict_eq literals
    rw [hhas hknown, if_pos rfl] at hnote
    rw [Worker.step, hnote]
    exact ⟨rfl, hnoted⟩
  | setJournal r => exact ⟨rfl, ⟨{ w.diagnostics with journal := some r }, rfl, .refl _⟩⟩
  | setTracer => exact ⟨rfl, ⟨{ w.diagnostics with trace := some #[] }, rfl, .refl _⟩⟩
  | _ => cases hop

/-! ## Runs -/

/-- The second list is the first one without some of its diagnostic operations. -/
inductive Thins : List (Operation R) → List (Operation R) → Prop
  | nil : Thins [] []
  | keep (op : Operation R) {ops ops' : List (Operation R)} (h : Thins ops ops') :
      Thins (op :: ops) (op :: ops')
  | drop {op : Operation R} {ops ops' : List (Operation R)} (diagnostic : op.isDiagnostic = true)
      (h : Thins ops ops') : Thins (op :: ops) ops'

/-- All diagnostic operations can be left out. -/
theorem thins_filter (ops : List (Operation R)) :
    Thins ops (ops.filter fun op => !op.isDiagnostic) := by
  induction ops with
  | nil => exact .nil
  | cons op ops ih =>
    cases hop : op.isDiagnostic with
    | true =>
      rw [List.filter_cons_of_neg (by simp [hop])]
      exact .drop hop ih
    | false =>
      rw [List.filter_cons_of_pos (by simp [hop])]
      exact .keep op ih

/-- Every variable that a diagnostic operation of the run mentions is registered at the time. A
breach ends the run. -/
def DiagnosesRegistered (w : Worker K R) : List (Operation R) → Prop
  | [] => True
  | op :: ops =>
    (op.isDiagnostic = true → ∀ v ∈ op.variables, w.core.registered v = true) ∧
    ((w.step op).2.isBreach = false → (w.step op).1.DiagnosesRegistered ops)

instance decidableDiagnosesRegistered (w : Worker K R) :
    (ops : List (Operation R)) → Decidable (w.DiagnosesRegistered ops)
  | [] => isTrue trivial
  | op :: ops =>
    have := decidableDiagnosesRegistered (w.step op).1 ops
    inferInstanceAs (Decidable (_ ∧ _))

/-- The operations of the search in a run, with what they answer. -/
def searchAnswers (w : Worker K R) (ops : List (Operation R)) : List (Operation R × Answer K) :=
  (ops.zip (w.run ops).2).filter fun entry => !entry.1.isDiagnostic

theorem searchAnswers_of_breach {op : Operation R} (h : (w.step op).2.isBreach = true)
    (hop : op.isDiagnostic = false) (ops : List (Operation R)) :
    w.searchAnswers (op :: ops) = [(op, (w.step op).2)] := by
  rw [searchAnswers, run_cons_of_breach h, List.zip_cons_cons, List.zip_nil_right]
  exact List.filter_cons_of_pos (by simp [hop])

theorem searchAnswers_cons {op : Operation R} (h : (w.step op).2.isBreach = false)
    (ops : List (Operation R)) :
    w.searchAnswers (op :: ops) =
      if op.isDiagnostic then (w.step op).1.searchAnswers ops
      else (op, (w.step op).2) :: (w.step op).1.searchAnswers ops := by
  rw [searchAnswers, run_cons h, List.zip_cons_cons]
  split
  · next hop => exact List.filter_cons_of_neg (by simp [hop])
  · next hop => exact List.filter_cons_of_pos (by simp [hop])

theorem after_of_breach {op : Operation R} (h : (w.step op).2.isBreach = true)
    (ops : List (Operation R)) : w.after (op :: ops) = (w.step op).1 :=
  congrArg Prod.fst (run_cons_of_breach h ops)

theorem after_of_go {op : Operation R} (h : (w.step op).2.isBreach = false)
    (ops : List (Operation R)) : w.after (op :: ops) = (w.step op).1.after ops := by
  rw [after, run_cons h]

/-- Workers that differ in their diagnostics go through a run in the same way, wherever diagnostic
operations are left out of it. -/
theorem SolvesAs.run {settings : Settings K} (h : w.SolvesAs w') (hw : Reachable settings w)
    {ops ops' : List (Operation R)} (hthins : Thins ops ops') (hknown : w.DiagnosesRegistered ops) :
    w'.searchAnswers ops' = w.searchAnswers ops ∧ (w.after ops).SolvesAs (w'.after ops') := by
  induction hthins generalizing w w' with
  | nil => exact ⟨rfl, h⟩
  | @drop op ops ops' hop _ ih =>
    -- The operation that is left out in `w'` leaves `w` such that it still searches as `w'`.
    obtain ⟨hdone, hsolves⟩ := solvesAs_diagnostic hw.sampled hop (hknown.1 hop)
    have hgo : (w.step op).2.isBreach = false := by rw [hdone]; rfl
    rw [searchAnswers_cons hgo, if_pos hop, after_of_go hgo]
    exact ih (hsolves.symm.trans h) (hw.step hgo) (hknown.2 hgo)
  | @keep op ops ops' _ ih =>
    cases hop : op.isDiagnostic with
    | true =>
      have hknown' : ∀ v ∈ op.variables, w'.core.registered v = true := by
        obtain ⟨_, rfl, -⟩ := h
        exact hknown.1 hop
      obtain ⟨hdone, hsolves⟩ := solvesAs_diagnostic hw.sampled hop (hknown.1 hop)
      obtain ⟨hdone', hsolves'⟩ := solvesAs_diagnostic (h.sampled hw.sampled) hop hknown'
      have hgo : (w.step op).2.isBreach = false := by rw [hdone]; rfl
      have hgo' : (w'.step op).2.isBreach = false := by rw [hdone']; rfl
      rw [searchAnswers_cons hgo, searchAnswers_cons hgo', if_pos hop, if_pos hop,
        after_of_go hgo, after_of_go hgo']
      exact ih ((hsolves.symm.trans h).trans hsolves') (hw.step hgo) (hknown.2 hgo)
    | false =>
      obtain ⟨hanswer, hstep⟩ := h.step hop
      cases hbreach : (w.step op).2.isBreach with
      | true =>
        have hbreach' : (w'.step op).2.isBreach = true := hanswer ▸ hbreach
        rw [searchAnswers_of_breach hbreach hop, searchAnswers_of_breach hbreach' hop,
          after_of_breach hbreach, after_of_breach hbreach', hanswer]
        exact ⟨rfl, hstep⟩
      | false =>
        have hgo' : (w'.step op).2.isBreach = false := hanswer ▸ hbreach
        obtain ⟨hanswers, hafter⟩ := ih hstep (hw.step hbreach) (hknown.2 hbreach)
        rw [searchAnswers_cons hbreach, searchAnswers_cons hgo', hop, hanswer, hanswers,
          after_of_go hbreach, after_of_go hgo']
        exact ⟨rfl, hafter⟩

/-! ## Main statement -/

/-- Take any reachable worker, and one that differs from it in its diagnostics at most: in its
trace, its recorder, its glue statistics, and the averages of its samples. Let both go through a run
whose diagnostic operations mention registered variables, and leave any of these operations out for
the second one. The other operations answer the same, up to and including a breach that ends the
run. Afterwards the two workers agree on the trail, values, variable states, names, clauses and
watchers, on the tick and on the records of the polarities, and on whether the formula is known to
be satisfied or refuted. As a part of a run is a run, this holds at all times of it. -/
theorem diagnostics_never_steer {settings : Settings K} (hw : Reachable settings w)
    (hsame : w.SolvesAs w') {ops ops' : List (Operation R)} (hthins : Thins ops ops')
    (hknown : w.DiagnosesRegistered ops) :
    w'.searchAnswers ops' = w.searchAnswers ops ∧
    (w'.after ops').core.untraced = (w.after ops).core.untraced ∧
    (w'.after ops').tick = (w.after ops).tick ∧
    (w'.after ops').stability = (w.after ops).stability ∧
    (w'.after ops').summary = (w.after ops).summary := by
  obtain ⟨hanswers, hafter⟩ := hsame.run hw hthins hknown
  exact ⟨hanswers, hafter.untraced_eq, hafter.tick_eq, hafter.stability_eq, hafter.summary_eq⟩

/-- A journal that takes part of a row of a learned clause, and nothing of any other row. -/
def fullJournal : Journal := ⟨.ofCapacity (some 7) true, .ofCapacity (some 0) true⟩

/-- A search that ends with a pass, with a diagnostic operation of every kind in between. -/
def watchedSearch : List Operation :=
  [.setJournal fullJournal, .setTracer, .decide (.ofVariable .first true), .observeTrail,
    .assign (.ofVariable .second false), .conflict,
    .noteConflict [.ofVariable .second true, .ofVariable .first false], .backtrack 0,
    .learn [.ofVariable .second true, .ofVariable .first false] 2,
    .noteLearned [.ofVariable .third true] 1, .assign (.ofVariable .third true), .observeTrail,
    .runPass [[2, 1, 2, -3], [4]]]

/-- The search with a full journal, and without any diagnostics on a worker that has a tracer. -/
theorem diagnostics_never_steer_watchedSearch :
    let w := (blank .standard : Worker Rat).after [.addVariables 4]
    let plain := watchedSearch.filter fun op => !op.isDiagnostic
    Reachable .standard w ∧ w.SolvesAs w.setTracer ∧ w.DiagnosesRegistered watchedSearch ∧
    w.Completes watchedSearch ∧ plain.length = 7 ∧ (w.after watchedSearch).journal.isSome = true ∧
    (w.setTracer.after plain).journal.isSome = false ∧
    w.setTracer.searchAnswers plain = w.searchAnswers watchedSearch ∧
    (w.setTracer.after plain).core.untraced = (w.after watchedSearch).core.untraced := by
  intro w plain
  have hw : Reachable .standard w := reachable_standard (by decide +kernel)
  have hsame : w.SolvesAs w.setTracer := ⟨w.setTracer.diagnostics, rfl, .refl w.samples⟩
  have hknown : w.DiagnosesRegistered watchedSearch := by decide +kernel
  obtain ⟨hanswers, hcore, -⟩ :=
    diagnostics_never_steer hw hsame (thins_filter watchedSearch) hknown
  exact ⟨hw, hsame, hknown, by decide +kernel, by decide +kernel, by decide +kernel,
    by decide +kernel, hanswers, hcore⟩

end Worker

end ClauseSharing
