import ClauseSharing.Proofs.Worker.WellFormed

/-!
The tables of a worker fit together.

Every table that is indexed by variables has one slot for each registered variable
(`Worker.Reachable.aligned`). Of the tables of the shared state most have it as part of its being
well formed; the watchers and the samples are added here. The averages of the samples all have the
rate of the settings (`Worker.Reachable.rated`).
-/

namespace ClauseSharing

variable {K R : Type}

/-! ## Tables of the shared state -/

namespace ClauseStore

@[simp] theorem size_watch (s : ClauseStore) (l : Literal) (watcher : Watcher) :
    (s.watch l watcher).watchers.size = s.watchers.size :=
  PerVariable.size_modify ..

theorem size_add (s : ClauseStore) (clause : StoredClause) :
    (s.add clause).watchers.size = s.watchers.size := by
  unfold add
  dsimp only
  split
  · rw [size_watch, size_watch]
  · rfl

end ClauseStore

namespace Core

/-- Every table of the shared state has one slot for each registered variable. -/
structure Aligned (c : Core) : Prop where
  size_le : c.size ≤ Variable.maxCount
  levels : c.assignment.levels.size = c.size
  states : c.states.size = c.size
  names : c.names.external.size = c.size
  watchers : c.store.watchers.size = c.size

variable {c : Core}

theorem store_assign (c : Core) (l : Literal) (reason : Reason) :
    (c.assign l reason).1.store = c.store := by
  rcases c.assign_cases l reason with ⟨-, h⟩ | ⟨-, h⟩ | ⟨-, h⟩
  all_goals rw [h]

theorem store_retire (c : Core) (v : Variable) (state : Participation) :
    (c.retire v state).store = c.store := by
  unfold retire
  split <;> rfl

theorem store_insertClause (c : Core) (clause : StoredClause) :
    (c.insertClause clause).store = c.store.add clause := by
  unfold insertClause
  split <;> rfl

theorem size_retire (c : Core) (v : Variable) (state : Participation) :
    (c.retire v state).size = c.size :=
  congrArg (·.values.size) (assignment_retire c v state)

/-- There is a place for the watchers of every registered variable. -/
def Watchable (c : Core) : Prop := c.store.watchers.size = c.size

theorem Watchable.assign (h : c.Watchable) (l : Literal) (reason : Reason) :
    (c.assign l reason).1.Watchable := by
  rw [Watchable, store_assign, size_assign]
  exact h

theorem Watchable.insertClause (h : c.Watchable) (clause : StoredClause) :
    (c.insertClause clause).Watchable := by
  rw [Watchable, store_insertClause, ClauseStore.size_add, size_insertClause]
  exact h

theorem Watchable.run [Scalar K] (h : c.Watchable) (s : Selector K)
    (probabilities : LiteralLikelihood K) (batch : List (List Int32)) :
    (s.run probabilities c batch).1.Watchable :=
  Selector.run_induction (P := Watchable) (fun _ _ l _ h => h.assign l .propagation)
    (fun _ _ h => h.insertClause _) s probabilities h batch

theorem WellFormed.aligned (h : c.WellFormed) (hwatchers : c.Watchable) : c.Aligned where
  size_le := h.size_le
  levels := h.assignment.levels_size
  states := h.states_size
  names := h.names_size
  watchers := hwatchers

end Core

/-! ## Averages -/

section Averages

variable [Scalar K]

namespace TrailSamples

/-- There are `n` records, the averages of which have the given rate. -/
structure Rated (s : TrailSamples K) (rate : K) (n : Nat) : Prop where
  rate_eq : s.rate = rate
  size_eq : s.records.size = n
  averages : ∀ v r, s.records.get? v = some r → r.decision.rate = rate ∧ r.polarity.rate = rate

variable {s s' : TrailSamples K} {rate : K} {n : Nat}

theorem Rated.register (h : s.Rated rate n) {k : Nat} (hs : s.register k = .ok s') :
    s'.Rated rate (n + k) := by
  unfold TrailSamples.register at hs
  split at hs
  · cases hs
    refine ⟨h.rate_eq, (PerVariable.size_extend ..).trans (congrArg (· + k) h.size_eq), ?_⟩
    intro v r hr
    rw [PerVariable.get?_extend] at hr
    split at hr
    · exact h.averages v r hr
    split at hr
    · cases hr
      exact ⟨h.rate_eq, h.rate_eq⟩
    · cases hr
  · cases hs

theorem Rated.observe (h : s.Rated rate n) {e : TrailItem} (hs : s.observe e = .ok s') :
    s'.Rated rate n := by
  obtain ⟨r₀, hr₀, hs⟩ := bind_eq_ok_iff.mp hs
  cases hs
  refine ⟨h.rate_eq, (PerVariable.size_set ..).trans h.size_eq, ?_⟩
  intro v r hr
  obtain ⟨hdecision, hpolarity⟩ := h.averages _ r₀ (PerVariable.fetch_eq_ok_iff.mp hr₀)
  rw [PerVariable.get?_set] at hr
  split at hr
  · cases hr
    exact ⟨(MovingAverage.rate_advance ..).trans hdecision,
      (MovingAverage.rate_advance ..).trans hpolarity⟩
  · exact h.averages v r hr

theorem Rated.observeEach (h : s.Rated rate n) {trail : List TrailItem}
    (hs : trail.foldlM TrailSamples.observe s = .ok s') : s'.Rated rate n := by
  induction trail generalizing s with
  | nil =>
    cases hs
    exact h
  | cons e trail ih =>
    obtain ⟨s₁, hhead, htail⟩ := bind_eq_ok_iff.mp hs
    exact ih (h.observe hhead) htail

theorem Rated.sample (h : s.Rated rate n) {trail : List TrailItem}
    (hs : s.sample trail = .ok s') : s'.Rated rate n := by
  obtain ⟨s₁, hfold, hs⟩ := bind_eq_ok_iff.mp hs
  cases hs
  have hobserved := h.observeEach hfold
  exact ⟨hobserved.rate_eq, hobserved.size_eq, hobserved.averages⟩

end TrailSamples

end Averages

/-! ## Workers -/

namespace Worker

variable [Scalar K] {w w' : Worker K R} {settings : Settings K}

/-- Every table of the worker that is indexed by variables has one slot for each registered
variable. -/
structure Aligned (w : Worker K R) : Prop where
  core : w.core.Aligned
  records : w.stability.records.size = w.size
  samples : w.samples.records.size = w.size

/-- The samples of `w'` are those of `w`, or come from them by sampling a trail. -/
def Resamples (w w' : Worker K R) : Prop :=
  w'.samples = w.samples ∨ ∃ trail, w.samples.sample trail = .ok w'.samples

theorem samples_assign {l : Literal} {r : Except Clash Unit} (h : w.assign l = .ok (w', r)) :
    w'.samples = w.samples := by
  obtain ⟨_, -, rfl⟩ := assign_eq_ok h
  rfl

theorem samples_assertClause {literals : List Literal} {r : Except Refusal (Option Nat)}
    (h : w.assertClause literals = .ok (w', r)) : w'.samples = w.samples := by
  unfold assertClause at h
  split at h
  · cases h
    rfl
  split at h
  · cases h
    rfl
  · obtain ⟨⟨w₁, _⟩, hassign, h⟩ := bind_eq_ok_iff.mp h
    cases h
    exact samples_assign hassign
  · obtain ⟨_, -, h⟩ := bind_eq_ok_iff.mp h
    obtain ⟨_, -, h⟩ := bind_eq_ok_iff.mp h
    cases h
    rfl

theorem samples_runPass (w : Worker K R) (batch : List (List Int32)) :
    (w.runPass batch).1.samples = w.samples := by
  unfold runPass
  split
  · rfl
  split
  · rfl
  · next w₁ hcatch =>
    obtain ⟨_, -, hw⟩ := bind_eq_ok_iff.mp hcatch
    cases hw
    rfl

variable [Recorder R K]

theorem samples_noteLearned {literals : List Literal} {glue : Nat}
    (h : w.noteLearned literals glue = .ok w') : w'.samples = w.samples := by
  obtain ⟨_, -, h⟩ := bind_eq_ok_iff.mp h
  cases h
  rfl

theorem samples_learn {literals : List Literal} {glue : Nat} {r : Option Nat}
    (h : w.learn literals glue = .ok (w', r)) : w'.samples = w.samples := by
  obtain ⟨w₁, hnote, h⟩ := bind_eq_ok_iff.mp h
  have hnoted : w₁.samples = w.samples := samples_noteLearned hnote
  split at h
  · cases h
    exact hnoted
  · cases h
    exact hnoted

/-- Apart from registering variables and sampling, no operation touches the samples. -/
theorem samples_step (w : Worker K R) {op : Operation R} (hadd : ∀ n, op ≠ .addVariables n)
    (hobserve : op ≠ .observeTrail) : (w.step op).1.samples = w.samples := by
  let P (w' : Worker K R) : Prop := w'.samples = w.samples
  have hself : P w := rfl
  cases op with
  | addVariables n => exact absurd rfl (hadd n)
  | observeTrail => exact absurd rfl hobserve
  | renameVariable external v =>
    refine settle_fst (P := P) hself ?_
    intro _ _ h
    obtain ⟨_, -, h⟩ := bind_eq_ok_iff.mp h
    cases h
    exact hself
  | eliminate v | substitute v =>
    refine settle_fst (P := P) hself ?_
    intro _ _ h
    rcases retire_cases h with rfl | ⟨-, -, rfl⟩
    · exact hself
    · exact hself
  | forbid | setJournal | setTracer => rfl
  | assertClause literals => exact settle_fst (P := P) hself fun _ _ => samples_assertClause
  | decide l =>
    refine settle_fst (P := P) hself ?_
    intro _ _ h
    rcases decide_cases h with rfl | ⟨-, -, -, _, -, rfl⟩
    · exact hself
    · exact hself
  | assign l =>
    rcases hassign : w.assign l with b | ⟨w', r⟩
    · simp only [step, hassign]
    · have h : P w' := samples_assign hassign
      cases r <;> simp only [step, hassign] <;> exact h
  | backtrack level =>
    refine change_fst (P := P) hself ?_
    intro _ h
    obtain ⟨_, -, h⟩ := bind_eq_ok_iff.mp h
    obtain ⟨_, -, h⟩ := bind_eq_ok_iff.mp h
    cases h
    exact hself
  | conflict =>
    refine finish_fst (P := P) hself ?_
    intro _ _ h
    obtain ⟨_, -, h⟩ := bind_eq_ok_iff.mp h
    cases h
    exact hself
  | catchUpAll =>
    refine change_fst (P := P) hself ?_
    intro _ h
    obtain ⟨_, -, h⟩ := bind_eq_ok_iff.mp h
    cases h
    exact hself
  | runPass batch =>
    rw [step_runPass_fst]
    exact samples_runPass w batch
  | learn literals glue => exact finish_fst (P := P) hself fun _ _ => samples_learn
  | noteLearned literals glue => exact change_fst (P := P) hself fun _ => samples_noteLearned
  | noteConflict literals =>
    refine change_fst (P := P) hself ?_
    intro _ h
    obtain ⟨_, -, h⟩ := bind_eq_ok_iff.mp h
    obtain ⟨_, -, h⟩ := bind_eq_ok_iff.mp h
    cases h
    exact hself

/-- Apart from registering variables, nothing but sampling touches the samples. -/
theorem resamples_step (w : Worker K R) {op : Operation R} (hop : ∀ n, op ≠ .addVariables n) :
    w.Resamples (w.step op).1 := by
  by_cases hobserve : op = .observeTrail
  · subst hobserve
    refine change_fst (.inl rfl) ?_
    intro _ h
    obtain ⟨_, hsample, h⟩ := bind_eq_ok_iff.mp h
    cases h
    exact .inr ⟨_, hsample⟩
  · exact .inl (w.samples_step hop hobserve)

omit [Recorder R K] in
/-- Only registering variables changes their number. -/
theorem Effect.size_eq {op : Operation R} (h : Effect w op w') (hop : ∀ n, op ≠ .addVariables n) :
    w'.size = w.size := by
  cases h with
  | still _ _ _ hassignment => exact congrArg (·.values.size) hassignment
  | counts | catchesUp => rfl
  | registers => exact absurd rfl (hop _)
  | assigns => exact Core.size_assign ..
  | decides => exact Assignment.size_push ..
  | backjumps => exact Assignment.size_cut ..
  | passes => exact size_run ..

theorem rated_step {rate : K} (h : w.samples.Rated rate w.size) {op : Operation R}
    (hop : (w.step op).2.isBreach = false) :
    (w.step op).1.samples.Rated rate (w.step op).1.size := by
  by_cases hregisters : ∃ n, op = .addVariables n
  · obtain ⟨n, rfl⟩ := hregisters
    refine settle_fst (P := fun w' : Worker K R => w'.samples.Rated rate w'.size) h ?_
    intro w' r hadd
    rcases addVariables_cases hadd with rfl | ⟨-, samples, hsamples, rfl⟩
    · exact h
    · have hsize : (w.core.register n).size = w.size + n := PerVariable.size_extend ..
      show samples.Rated rate (w.core.register n).size
      rw [hsize]
      exact h.register hsamples
  · have hother (n : Nat) : op ≠ .addVariables n := fun e => hregisters ⟨n, e⟩
    rw [(effect_step hop).size_eq hother]
    rcases w.resamples_step hother with hsame | ⟨trail, hsample⟩
    · rw [hsame]
      exact h
    · exact h.sample hsample

/-- The samples of every reachable worker have one record for each registered variable, with the
rate of the settings. -/
theorem Reachable.rated (h : Reachable settings w) :
    w.samples.Rated settings.trailSampleRate w.size := by
  refine h.induction (P := fun w => w.samples.Rated settings.trailSampleRate w.size)
    (fun w hw => ?_) fun w op hw hop => rated_step hw hop
  obtain ⟨-, rfl⟩ := create_eq_ok_iff.mp hw
  refine ⟨rfl, rfl, ?_⟩
  intro v r hr
  exact absurd (PerVariable.has_iff.mp (PerVariable.has_of_get? hr)) (Nat.not_lt_zero _)

theorem Reachable.watchable (h : Reachable settings w) : w.core.Watchable := by
  refine h.core_induction (P := Core.Watchable) rfl ?_
  intro w op c hevolves hcore
  cases hevolves with
  | stays | renames | forbids | traces => exact hcore
  | registers =>
    refine (PerVariable.size_extend ..).trans ((congrArg (· + _) hcore).trans ?_)
    exact (PerVariable.size_extend ..).symm
  | retires =>
    rw [Core.Watchable, Core.store_retire, Core.size_retire]
    exact hcore
  | @asserts literals =>
    match literals with
    | [] => exact hcore
    | [l] => exact hcore.assign l .propagation
    | _ :: _ :: _ => exact hcore.insertClause _
  | @assigns l => exact hcore.assign l .propagation
  | @decides l =>
    exact hcore.trans (Assignment.size_push w.core.assignment.openLevel l .decision).symm
  | @backjumps level start =>
    exact hcore.trans (Assignment.size_cut w.core.assignment level start).symm
  | learns => exact hcore.insertClause _
  | passes => exact hcore.run _ _ _

theorem Reachable.records_size (h : Reachable settings w) :
    w.stability.records.size = w.size := by
  refine h.induction (P := fun w => w.stability.records.size = w.size) (fun w hw => ?_)
    fun w op hw hop => (effect_step hop).records_size hw
  obtain ⟨-, rfl⟩ := create_eq_ok_iff.mp hw
  rfl

/-- All tables of every reachable worker have one slot for each registered variable. -/
theorem Reachable.aligned (h : Reachable settings w) : w.Aligned where
  core := h.wellFormed.aligned h.watchable
  records := h.records_size
  samples := h.rated.size_eq

end Worker

end ClauseSharing
