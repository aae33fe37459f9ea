import ClauseSharing.Proofs.Import.Projection
import ClauseSharing.Proofs.Worker.Store

/-!
What a worker keeps for those who watch it.

A worker keeps its trace, its trail samples, its glue statistics and its recorder next to the state
that it searches with (`Diagnostics`). They can be replaced by others (`Worker.withDiagnostics`).
The operations of the search that do not touch them commute with that, one lemma for each of them.
A run of a selector on the shared state commutes with it up to the trace (`Core.run_withTrace`).

Three operations need the samples. Registering variables asks for their rate, and learning and
recording ask for a record of every literal of a clause. So samples that have the same rate and the
same number of records do as well (`TrailSamples.Alike`).
-/

namespace ClauseSharing

/-! ## The trace -/

namespace Core

def withTrace (c : Core) (trace : Option (Array (List Int32))) : Core := { c with trace := trace }

/-- The shared state without a tracer. -/
def untraced (c : Core) : Core := c.withTrace none

theorem assign_withTrace (c : Core) (trace : Option (Array (List Int32))) (l : Literal)
    (reason : Reason) : (c.withTrace trace).assign l reason =
      ((c.assign l reason).1.withTrace trace, (c.assign l reason).2) := by
  simp only [assign, withTrace]
  split <;> rfl

theorem retire_withTrace (c : Core) (trace : Option (Array (List Int32))) (v : Variable)
    (state : Participation) :
    (c.withTrace trace).retire v state = (c.retire v state).withTrace trace := by
  unfold retire
  show (if c.stateOf v = .active then _ else _) = _
  split <;> rfl

/-- The interface that a pass uses cannot tell whether there is a tracer. -/
theorem projects_untraced : Recipient.Projects untraced where
  forbids _ _ := rfl
  resolve _ _ := rfl
  standing _ _ := rfl
  fix c l := by
    show (c.withTrace none).fix l = (c.fix l).withTrace none
    rw [fix, assign_withTrace]
    rfl
  adopt c d := by
    show (c.withTrace none).insertClause _ = (c.insertClause _).withTrace none
    unfold insertClause
    split <;> rfl
  refuted _ := rfl
  isComplete _ := rfl

theorem insertClause_withTrace (c : Core) (trace : Option (Array (List Int32)))
    (clause : StoredClause) :
    ∃ trace', (c.withTrace trace).insertClause clause =
      (c.insertClause clause).withTrace trace' := by
  unfold insertClause
  split
  · exact ⟨_, rfl⟩
  · exact ⟨_, rfl⟩

/-- A tracer has no influence on a run of a selector. -/
theorem run_withTrace {K : Type} [Scalar K] (s : Selector K) (probabilities : LiteralLikelihood K)
    (c : Core) (trace : Option (Array (List Int32))) (batch : List (List Int32)) :
    ∃ trace', s.run probabilities (c.withTrace trace) batch =
      ((s.run probabilities c batch).1.withTrace trace', (s.run probabilities c batch).2) := by
  have hplain := s.run_map projects_untraced probabilities c batch
  have htraced := s.run_map projects_untraced probabilities (c.withTrace trace) batch
  -- Both projections are the run on the state without a tracer.
  obtain ⟨hcore, hresult⟩ := Prod.ext_iff.mp (htraced.symm.trans hplain)
  let final := (s.run probabilities (c.withTrace trace) batch).1.trace
  have hfinal : (s.run probabilities (c.withTrace trace) batch).1.untraced.withTrace final =
      (s.run probabilities c batch).1.untraced.withTrace final :=
    congrArg (withTrace · final) hcore
  exact ⟨final, Prod.ext hfinal hresult⟩

end Core

/-! ## The samples -/

namespace TrailSamples

variable {K : Type}

/-- The samples have the same rate and the same number of records. -/
structure Alike (s s' : TrailSamples K) : Prop where
  rate_eq : s'.rate = s.rate
  size_eq : s'.records.size = s.records.size

variable {s s' s'' : TrailSamples K}

theorem Alike.refl (s : TrailSamples K) : s.Alike s := ⟨rfl, rfl⟩

theorem Alike.symm (h : s.Alike s') : s'.Alike s := ⟨h.rate_eq.symm, h.size_eq.symm⟩

theorem Alike.trans (h : s.Alike s') (h' : s'.Alike s'') : s.Alike s'' :=
  ⟨h'.rate_eq.trans h.rate_eq, h'.size_eq.trans h.size_eq⟩

theorem Alike.has_eq (h : s.Alike s') (v : Variable) : s'.records.has v = s.records.has v := by
  rw [PerVariable.has, PerVariable.has, h.size_eq]

/-- Whether every literal of the clause has a record. -/
def hasAll (s : TrailSamples K) (clause : List Literal) : Bool :=
  clause.all fun l => s.records.has l.var

theorem Alike.hasAll_eq (h : s.Alike s') (clause : List Literal) :
    s'.hasAll clause = s.hasAll clause := by
  simp only [hasAll, PerVariable.has, h.size_eq]

theorem mapM_fetch_eq {β : Type} (s : TrailSamples K) (read : Literal → SampleRecord K → β)
    (clause : List Literal) :
    ∃ ys, clause.mapM (fun l => return read l (← s.records.fetch l.var)) =
      if s.hasAll clause then .ok ys else .error Breach.unregistered := by
  induction clause with
  | nil => exact ⟨[], rfl⟩
  | cons l clause ih =>
    obtain ⟨ys, hys⟩ := ih
    have hsplit : s.hasAll (l :: clause) = ((s.records.get? l.var).isSome && s.hasAll clause) := by
      rw [PerVariable.isSome_get?]
      rfl
    rw [List.mapM_cons, hys, hsplit, PerVariable.fetch]
    cases s.records.get? l.var with
    | none => exact ⟨[], rfl⟩
    | some record =>
      refine ⟨read l record :: ys, ?_⟩
      rw [Option.isSome_some, Bool.true_and]
      cases s.hasAll clause <;> rfl

variable [Scalar K]

/-- Whether variables can be registered is seen from the rate. -/
theorem Alike.register (h : s.Alike s') (n : Nat) :
    (∃ b, s.register n = .error b ∧ s'.register n = .error b) ∨
    ∃ t t', s.register n = .ok t ∧ s'.register n = .ok t' ∧ t.Alike t' := by
  unfold TrailSamples.register
  rw [h.rate_eq]
  split
  · refine .inr ⟨_, _, rfl, rfl, rfl, ?_⟩
    rw [PerVariable.size_extend, PerVariable.size_extend, h.size_eq]
  · exact .inl ⟨_, rfl, rfl⟩

/-! What is measured of a clause takes a record of each literal, and nothing else. -/

theorem fuzzyGlue_eq (s : TrailSamples K) (clause : List Literal) :
    ∃ glue, s.fuzzyGlue clause = if s.hasAll clause then .ok glue else .error .unregistered := by
  obtain ⟨shares, hshares⟩ := s.mapM_fetch_eq (fun _ r => r.decision.value) clause
  refine ⟨Scalar.sum shares, ?_⟩
  show (clause.mapM s.decisionShare >>= fun shares => pure (Scalar.sum shares)) = _
  rw [show clause.mapM s.decisionShare = _ from hshares]
  split <;> rfl

theorem falsityProbability_eq (s : TrailSamples K) (clause : List Literal) :
    ∃ probability, s.falsityProbability clause =
      if s.hasAll clause then .ok probability else .error .unregistered := by
  obtain ⟨ps, hps⟩ := s.mapM_fetch_eq (fun l r => r.satisfied l.isPositive) clause
  refine ⟨Scalar.product (ps.map fun p => Scalar.one - p), ?_⟩
  unfold falsityProbability
  rw [show clause.mapM s.satisfied = _ from hps]
  split <;> rfl

theorem satisfactionSum_eq (s : TrailSamples K) (clause : List Literal) :
    ∃ sum, s.satisfactionSum clause =
      if s.hasAll clause then .ok sum else .error .unregistered := by
  obtain ⟨ps, hps⟩ := s.mapM_fetch_eq (fun l r => r.satisfied l.isPositive) clause
  refine ⟨Scalar.one + Scalar.sum ps, ?_⟩
  unfold satisfactionSum
  rw [show clause.mapM s.satisfied = _ from hps]
  split <;> rfl

theorem exists_observe (s : TrailSamples K) {e : TrailItem}
    (he : s.records.has e.literal.var = true) : ∃ s', s.observe e = .ok s' ∧ s.Alike s' := by
  obtain ⟨record, hrecord⟩ := PerVariable.exists_get? he
  have hobserve : s.observe e =
      .ok { s with records := s.records.set e.literal.var (record.observe e) } := by
    unfold observe
    rw [PerVariable.fetch_eq_ok_iff.mpr hrecord]
    rfl
  exact ⟨_, hobserve, rfl, PerVariable.size_set ..⟩

theorem exists_observeEach (s : TrailSamples K) {trail : List TrailItem}
    (htrail : ∀ e ∈ trail, s.records.has e.literal.var = true) :
    ∃ s', trail.foldlM observe s = .ok s' ∧ s.Alike s' := by
  induction trail generalizing s with
  | nil => exact ⟨s, rfl, .refl s⟩
  | cons e trail ih =>
    obtain ⟨he, htrail⟩ := List.forall_mem_cons.mp htrail
    obtain ⟨s₁, hs₁, hfirst⟩ := s.exists_observe he
    obtain ⟨s₂, hs₂, hrest⟩ := ih s₁ fun e' he' => (hfirst.has_eq _).trans (htrail e' he')
    exact ⟨s₂, by rw [List.foldlM_cons, hs₁]; exact hs₂, hfirst.trans hrest⟩

/-- A trail of variables with records can be sampled, and this leaves as many records. -/
theorem exists_sample (s : TrailSamples K) {trail : List TrailItem}
    (htrail : ∀ e ∈ trail, s.records.has e.literal.var = true) :
    ∃ s', s.sample trail = .ok s' ∧ s.Alike s' := by
  obtain ⟨s', hs', halike⟩ := s.exists_observeEach htrail
  refine ⟨{ s' with samples := s'.samples + 1 }, ?_, halike.rate_eq, halike.size_eq⟩
  rw [sample, hs']
  rfl

end TrailSamples

/-! ## Workers with other diagnostics -/

/-- What a worker keeps for those who watch it. -/
structure Diagnostics (K R : Type) where
  trace : Option (Array (List Int32))
  samples : TrailSamples K
  glue : GlueStatistics K
  journal : Option R

namespace Worker

variable {K R α : Type}

def diagnostics (w : Worker K R) : Diagnostics K R := ⟨w.core.trace, w.samples, w.glue, w.journal⟩

def withDiagnostics (w : Worker K R) (d : Diagnostics K R) : Worker K R :=
  { w with
    core := w.core.withTrace d.trace
    samples := d.samples
    glue := d.glue
    journal := d.journal }

/-- An outcome with other diagnostics. -/
def carry (d : Diagnostics K R) (outcome : Worker K R × α) : Worker K R × α :=
  (outcome.1.withDiagnostics d, outcome.2)

variable (w : Worker K R) (d : Diagnostics K R)

theorem settle_carry (answer : α → Answer K) (x : Except Breach (Worker K R × Except Refusal α)) :
    (w.withDiagnostics d).settle answer (x.map (carry d)) = carry d (w.settle answer x) := by
  rcases x with _ | ⟨_, _ | _⟩ <;> rfl

theorem finish_carry (answer : α → Answer K) (x : Except Breach (Worker K R × α)) :
    (w.withDiagnostics d).finish answer (x.map (carry d)) = carry d (w.finish answer x) := by
  cases x <;> rfl

theorem change_carry (x : Except Breach (Worker K R)) :
    (w.withDiagnostics d).change (x.map (·.withDiagnostics d)) = carry d (w.change x) := by
  cases x <;> rfl

/-! ## Operations that do not touch them -/

theorem renameVariable_withDiagnostics (external : Nat) (v : Variable) :
    (w.withDiagnostics d).renameVariable external v =
      (w.renameVariable external v).map (carry d) := by
  unfold renameVariable
  show (w.core.names.rename external v >>= _) = _
  cases w.core.names.rename external v <;> rfl

theorem retire_withDiagnostics (v : Variable) (state : Participation) :
    (w.withDiagnostics d).retire v state = (w.retire v state).map (carry d) := by
  have hretire := Core.retire_withTrace w.core d.trace v state
  unfold retire
  show (w.core.require v >>= fun _ => if (w.core.assignment.value v).isSome then _
    else pure ({ w.withDiagnostics d with core := (w.core.withTrace d.trace).retire v state }, _)) =
      Except.map _ (w.core.require v >>= _)
  rw [hretire]
  cases w.core.require v with
  | error b => rfl
  | ok _ =>
    show (if (w.core.assignment.value v).isSome then _ else _) =
      Except.map _ (if (w.core.assignment.value v).isSome then _ else _)
    split <;> rfl

theorem conflict_withDiagnostics :
    (w.withDiagnostics d).conflict = w.conflict.map (carry d) := by
  unfold conflict
  show (inWord64 (w.tick + 1) >>= _) = _
  cases inWord64 (w.tick + 1) <;> rfl

variable [Scalar K]

theorem catchUp_withDiagnostics (v : Variable) :
    (w.withDiagnostics d).catchUp v = (w.catchUp v).map (·.withDiagnostics d) := by
  unfold catchUp
  show (w.stability.catchUp v w.tick (w.core.assignment.value v) >>= _) = _
  cases w.stability.catchUp v w.tick (w.core.assignment.value v) <;> rfl

theorem catchUpAll_withDiagnostics :
    (w.withDiagnostics d).catchUpAll = w.catchUpAll.map (·.withDiagnostics d) := by
  unfold catchUpAll
  show (w.stability.catchUpAll w.tick w.core.assignment.value >>= _) = _
  cases w.stability.catchUpAll w.tick w.core.assignment.value <;> rfl

theorem assign_withDiagnostics (l : Literal) :
    (w.withDiagnostics d).assign l = (w.assign l).map (carry d) := by
  unfold assign
  rw [catchUp_withDiagnostics]
  cases w.catchUp l.var with
  | error b => rfl
  | ok w₁ =>
    have hassign := Core.assign_withTrace w₁.core d.trace l .propagation
    show Except.ok ({ w₁.withDiagnostics d with
      core := ((w₁.core.withTrace d.trace).assign l .propagation).1 },
      ((w₁.core.withTrace d.trace).assign l .propagation).2) = _
    rw [hassign]
    rfl

theorem backtrack_withDiagnostics (level : Nat) :
    (w.withDiagnostics d).backtrack level = (w.backtrack level).map (·.withDiagnostics d) := by
  unfold backtrack
  show (w.core.assignment.startOf level >>= _) = _
  cases w.core.assignment.startOf level with
  | error b => rfl
  | ok start =>
    let above := (w.core.assignment.trail.toList.drop start).map (·.literal.var)
    show (w.stability.catchUpEach above w.tick w.core.assignment.value >>= _) =
      Except.map _ (w.stability.catchUpEach above w.tick w.core.assignment.value >>= _)
    cases w.stability.catchUpEach above w.tick w.core.assignment.value <;> rfl

theorem decide_withDiagnostics (l : Literal) :
    (w.withDiagnostics d).decide l = (w.decide l).map (carry d) := by
  unfold decide
  show (w.core.require l.var >>= _) = Except.map _ (w.core.require l.var >>= _)
  cases w.core.require l.var with
  | error b => rfl
  | ok _ =>
    show (if w.core.stateOf l.var ≠ .active then _ else _) =
      Except.map _ (if w.core.stateOf l.var ≠ .active then _ else _)
    split
    · rfl
    show (if (w.core.assignment.value l.var).isSome then _ else _) =
      Except.map _ (if (w.core.assignment.value l.var).isSome then _ else _)
    split
    · rfl
    next hassigned =>
    have hfree : w.core.assignment.value l.var = none := by simpa using hassigned
    rw [catchUp_withDiagnostics]
    cases hcatch : w.catchUp l.var with
    | error b => rfl
    | ok w₁ =>
      obtain ⟨s, -, hw⟩ := bind_eq_ok_iff.mp hcatch
      cases hw
      -- The literal is free, so neither side comes to the clash that would be a breach.
      simp only [Except.map, bind, Except.bind, withDiagnostics, assign_openLevel hfree,
        assign_openLevel (c := w.core.withTrace d.trace) hfree]
      rfl

theorem assertClause_withDiagnostics (literals : List Literal) :
    (w.withDiagnostics d).assertClause literals = (w.assertClause literals).map (carry d) := by
  unfold assertClause
  show (if w.level ≠ 0 then _ else _) = Except.map _ (if w.level ≠ 0 then _ else _)
  split
  · rfl
  match literals with
  | [] => rfl
  | [l] =>
    show ((w.withDiagnostics d).assign l >>= _) = Except.map _ (w.assign l >>= _)
    rw [assign_withDiagnostics]
    cases w.assign l <;> rfl
  | first :: second :: rest =>
    show (w.core.require first.var >>= _) = Except.map _ (w.core.require first.var >>= _)
    cases w.core.require first.var with
    | error b => rfl
    | ok _ =>
      show (w.core.require second.var >>= _) = Except.map _ (w.core.require second.var >>= _)
      cases w.core.require second.var <;> rfl

end Worker

end ClauseSharing
