import ClauseSharing.Proofs.Estimate.WeightedMean
import ClauseSharing.Proofs.Score.Norms
import ClauseSharing.Proofs.Worker.Noninterference

/-!
Trail samples are averages over the samplings of a run.

Sampling visits the trail entry by entry. The record of a variable observes exactly the entries of
that variable (`TrailSamples.get?_observeEach`). In a consistent assignment this is one entry if the
variable is assigned, and none otherwise (`Assignment.Consistent.filter_of_value`,
`Assignment.Consistent.filter_of_free`). So after every run, a record holds the averages of one
observation for each sampling at which its variable was assigned (`Shown.run`).

On exact fractions, the averages are shares of one by themselves, and the measures of a clause are
within the bounds that this gives. Both are said in `Worker.samples_follow_trails`.
-/

namespace ClauseSharing

open Scalar

/-! ## What a sampling shows -/

/-- Why a variable is on the trail, if it is. -/
def Assignment.reasonOf (a : Assignment) (v : Variable) : Option Reason :=
  (a.trail.toList.find? (·.literal.var = v)).map (·.reason)

namespace Worker

variable {K R : Type}

/-- The assignment that an operation samples, if it does sample. -/
def sampling (w : Worker K R) : Operation R → List Assignment
  | .observeTrail => [w.core.assignment]
  | _ => []

theorem sampling_eq_nil (w : Worker K R) {op : Operation R} (h : op ≠ .observeTrail) :
    w.sampling op = [] := by
  cases op with
  | observeTrail => exact absurd rfl h
  | _ => rfl

/-- The assignments that the operations of a run sample, oldest first. -/
def samplings [Scalar K] [Recorder R K] (w : Worker K R) : List (Operation R) → List Assignment
  | [] => []
  | op :: ops => w.sampling op ++ (w.step op).1.samplings ops

end Worker

variable {K R : Type} [Scalar K]

namespace SampleRecord

/-- For each assignment in which the variable has a value, whether it was a decision. -/
def decisionsOf (history : List Assignment) (v : Variable) : List K :=
  history.filterMap fun a =>
    (a.value v).map fun _ => if a.reasonOf v = some .decision then one else zero

/-- For each assignment in which the variable has a value, whether it was true. -/
def truthsOf (history : List Assignment) (v : Variable) : List K :=
  history.filterMap fun a => (a.value v).map fun b => if b then one else zero

/-- The record of a variable that was sampled in the given assignments. -/
def ofHistory (rate : K) (history : List Assignment) (v : Variable) : SampleRecord K where
  decision := .ofObservations rate (decisionsOf history v)
  polarity := .ofObservations rate (truthsOf history v)

theorem ofHistory_of_free {history : List Assignment} {v : Variable}
    (free : ∀ a ∈ history, a.value v = none) (rate : K) :
    ofHistory rate history v = .fresh rate := by
  have hnone {f : Assignment → Bool → K} :
      history.filterMap (fun a => (a.value v).map (f a)) = [] := by
    refine List.filterMap_eq_nil_iff.mpr fun a ha => ?_
    rw [free a ha, Option.map_none]
  rw [ofHistory, decisionsOf, truthsOf, hnone, hnone]
  rfl

end SampleRecord

namespace Assignment

/-- An unregistered variable has no value. -/
theorem value_of_size_le {a : Assignment} {v : Variable} (h : a.values.size ≤ v.index) :
    a.value v = none := by
  rw [value, PerVariable.getD, PerVariable.get?_eq_none_of_size_le h]
  rfl

namespace Consistent

variable {a : Assignment} {v : Variable}

theorem filter_of_free (h : a.Consistent) (free : a.value v = none) :
    a.trail.toList.filter (·.literal.var = v) = [] := by
  refine List.filter_eq_nil_iff.mpr fun e he => ?_
  simpa using h.ne_var_of_free free (Array.mem_toList_iff.mp he)

/-- An assigned variable has one entry, which tells its value and its reason. -/
theorem filter_of_value (h : a.Consistent) {b : Bool} (hv : a.value v = some b) :
    ∃ e, a.trail.toList.filter (·.literal.var = v) = [e] ∧ e.literal.isPositive = b ∧
      a.reasonOf v = some e.reason := by
  obtain ⟨e, he, hlit⟩ := h.backed v b hv
  obtain ⟨before, after, hsplit⟩ := List.append_of_mem (Array.mem_toList_iff.mpr he)
  have hvar : e.literal.var = v := by rw [hlit, Literal.var_ofVariable]
  -- No other entry has the variable, since none has it twice.
  have hnodup := h.nodup
  rw [hsplit, List.map_append, List.map_cons, List.nodup_append, List.nodup_cons] at hnodup
  obtain ⟨-, ⟨hafter, -⟩, hbefore⟩ := hnodup
  have hnone : before.filter (·.literal.var = v) = [] := by
    refine List.filter_eq_nil_iff.mpr fun f hf => ?_
    have hne := hbefore _ (List.mem_map_of_mem hf) _ List.mem_cons_self
    simpa [hvar] using hne
  have hnone' : after.filter (·.literal.var = v) = [] := by
    refine List.filter_eq_nil_iff.mpr fun f hf heq => hafter ?_
    rw [hvar, ← of_decide_eq_true heq]
    exact List.mem_map_of_mem hf
  have hfilter : a.trail.toList.filter (·.literal.var = v) = [e] := by
    rw [hsplit, List.filter_append, hnone, List.nil_append,
      List.filter_cons_of_pos (by simpa using hvar), hnone']
  refine ⟨e, hfilter, by rw [hlit, Literal.isPositive_ofVariable], ?_⟩
  rw [reasonOf, ← List.head?_filter, hfilter]
  rfl

end Consistent

end Assignment

namespace TrailSamples

variable {s s' : TrailSamples K}

/-! ## One sampling -/

theorem observe_eq_ok {e : TrailItem} (h : s.observe e = .ok s') :
    s'.samples = s.samples ∧ ∀ v, s'.records.get? v =
      (s.records.get? v).map fun r => if e.literal.var = v then r.observe e else r := by
  obtain ⟨r, hr, h⟩ := bind_eq_ok_iff.mp h
  cases h
  have hget := PerVariable.fetch_eq_ok_iff.mp hr
  refine ⟨rfl, fun v => ?_⟩
  rw [PerVariable.get?_set]
  by_cases hv : e.literal.var = v
  · subst hv
    simp [PerVariable.has_of_get? hget, hget]
  · simp [hv]

/-- The record of a variable observes the entries of the variable, and no others. -/
theorem get?_observeEach {trail : List TrailItem} (h : trail.foldlM observe s = .ok s') :
    s'.samples = s.samples ∧ ∀ v, s'.records.get? v =
      (s.records.get? v).map fun r =>
        (trail.filter (·.literal.var = v)).foldl SampleRecord.observe r := by
  induction trail generalizing s with
  | nil =>
    cases h
    exact ⟨rfl, fun v => by simp⟩
  | cons e trail ih =>
    obtain ⟨s₁, hhead, htail⟩ := bind_eq_ok_iff.mp h
    obtain ⟨hsamples, hget⟩ := ih htail
    obtain ⟨hsamples₁, hget₁⟩ := observe_eq_ok hhead
    refine ⟨hsamples.trans hsamples₁, fun v => ?_⟩
    rw [hget, hget₁, Option.map_map]
    congr 1
    funext r
    by_cases hv : e.literal.var = v <;> simp [hv]

/-- Sampling a consistent assignment adds it to the history of every record. -/
theorem eq_ofHistory_of_sample {a : Assignment} (ha : a.Consistent)
    (h : s.sample a.trail.toList = .ok s') {rate : K} {history : List Assignment} {v : Variable}
    (hs : ∀ r, s.records.get? v = some r → r = .ofHistory rate history v) {r : SampleRecord K}
    (hr : s'.records.get? v = some r) : r = .ofHistory rate (history ++ [a]) v := by
  obtain ⟨s₁, hfold, h⟩ := bind_eq_ok_iff.mp h
  cases h
  rw [(get?_observeEach hfold).2] at hr
  obtain ⟨r₀, hr₀, rfl⟩ := Option.map_eq_some_iff.mp hr
  rw [hs r₀ hr₀]
  cases hvalue : a.value v with
  | none =>
    rw [ha.filter_of_free hvalue]
    simp [SampleRecord.ofHistory, SampleRecord.decisionsOf, SampleRecord.truthsOf, hvalue]
  | some b =>
    obtain ⟨e, hfilter, hpositive, hreason⟩ := ha.filter_of_value hvalue
    rw [hfilter]
    simp [SampleRecord.ofHistory, SampleRecord.decisionsOf, SampleRecord.truthsOf, hvalue, hreason,
      SampleRecord.observe, MovingAverage.ofObservations, hpositive]

end TrailSamples

/-! ## Runs -/

namespace Worker

variable {w w' : Worker K R} {settings : Settings K} {rate : K} {history : List Assignment}

/-- What the samples tell are the samplings of a history, and nothing else. -/
structure Shown (w : Worker K R) (rate : K) (history : List Assignment) : Prop where
  samples_eq : w.samples.samples = history.length
  /-- Variables that were registered stay so. -/
  size_le : ∀ a ∈ history, a.values.size ≤ w.size
  record : ∀ v r, w.samples.records.get? v = some r → r = .ofHistory rate history v

theorem shown_blank (settings : Settings K) :
    (blank settings : Worker K R).Shown rate [] where
  samples_eq := rfl
  size_le := nofun
  record _ _ hr := absurd (PerVariable.has_iff.mp (PerVariable.has_of_get? hr)) (Nat.not_lt_zero _)

variable [Recorder R K]

/-- No sampling has shown a variable that is registered only now. -/
theorem Shown.addVariables (h : w.Shown settings.trailSampleRate history)
    (hw : Reachable settings w) {n : Nat} {r : Except Refusal Unit}
    (hadd : w.addVariables n = .ok (w', r)) : w'.Shown settings.trailSampleRate history := by
  rcases addVariables_cases hadd with rfl | ⟨-, samples, hsamples, rfl⟩
  · exact h
  unfold TrailSamples.register at hsamples
  split at hsamples
  · cases hsamples
    refine ⟨h.samples_eq, fun a ha => ?_, fun v r hr => ?_⟩
    · show a.values.size ≤ (w.core.assignment.values.extend n none).size
      rw [PerVariable.size_extend]
      exact Nat.le_add_right_of_le (h.size_le a ha)
    · rw [PerVariable.get?_extend] at hr
      split at hr
      · exact h.record v r hr
      next hnew =>
      split at hr
      · cases hr
        have hfree (a : Assignment) (ha : a ∈ history) : a.value v = none := by
          refine Assignment.value_of_size_le ((h.size_le a ha).trans ?_)
          rw [← hw.rated.size_eq]
          exact Nat.le_of_not_lt hnew
        rw [SampleRecord.ofHistory_of_free hfree, hw.rated.rate_eq]
      · cases hr
  · cases hsamples

theorem Shown.observeTrail (h : w.Shown rate history) (hw : Reachable settings w)
    (hobserve : w.observeTrail = .ok w') :
    w'.Shown rate (history ++ [w.core.assignment]) := by
  obtain ⟨samples, hsample, hw'⟩ := bind_eq_ok_iff.mp hobserve
  cases hw'
  refine ⟨?_, fun a ha => ?_, fun v r => ?_⟩
  · obtain ⟨s₁, hfold, hsample⟩ := bind_eq_ok_iff.mp hsample
    cases hsample
    rw [List.length_append, ← h.samples_eq, ← (TrailSamples.get?_observeEach hfold).1]
    rfl
  · rcases List.mem_append.mp ha with ha | ha
    · exact h.size_le a ha
    · rw [List.mem_singleton.mp ha]
      exact Nat.le_refl _
  · exact TrailSamples.eq_ofHistory_of_sample hw.wellFormed.assignment hsample (h.record v)

/-- An operation adds what it samples to the history. -/
theorem Shown.step (h : w.Shown settings.trailSampleRate history) (hw : Reachable settings w)
    {op : Operation R} (hop : (w.step op).2.isBreach = false) :
    (w.step op).1.Shown settings.trailSampleRate (history ++ w.sampling op) := by
  by_cases hobserve : op = .observeTrail
  · subst hobserve
    rcases hresult : w.observeTrail with b | w'
    · rw [Worker.step, hresult] at hop
      cases hop
    · rw [Worker.step, hresult]
      exact h.observeTrail hw hresult
  rw [w.sampling_eq_nil hobserve, List.append_nil]
  by_cases hadd : ∃ n, op = .addVariables n
  · obtain ⟨n, rfl⟩ := hadd
    exact settle_fst (P := fun w' : Worker K R => w'.Shown settings.trailSampleRate history) h
      fun _ _ => h.addVariables hw
  · have hother (n : Nat) : op ≠ .addVariables n := fun e => hadd ⟨n, e⟩
    have hsamples := w.samples_step hother hobserve
    refine ⟨by rw [hsamples]; exact h.samples_eq, fun a ha => ?_, by rw [hsamples]; exact h.record⟩
    rw [(effect_step hop).size_eq hother]
    exact h.size_le a ha

/-- A run adds all that it samples to the history. -/
theorem Shown.run (h : w.Shown settings.trailSampleRate history) (hw : Reachable settings w)
    {ops : List (Operation R)} (hops : w.Completes ops) :
    (w.after ops).Shown settings.trailSampleRate (history ++ w.samplings ops) := by
  induction ops generalizing w history with
  | nil =>
    rw [samplings, List.append_nil]
    exact h
  | cons op ops ih =>
    obtain ⟨hop, hrest⟩ := completes_cons.mp hops
    rw [after_cons hops, samplings, ← List.append_assoc]
    exact ih (h.step hw hop) (hw.step hop) hrest

theorem Reachable.exists_shown (hw : Reachable settings w) :
    ∃ history, w.Shown settings.trailSampleRate history := by
  obtain ⟨w₀, ops, hcreate, hops, rfl⟩ := hw
  have hstart : Reachable settings w₀ := ⟨w₀, [], hcreate, nofun, rfl⟩
  obtain ⟨-, rfl⟩ := create_eq_ok_iff.mp hcreate
  exact ⟨_, (shown_blank settings).run hstart hops⟩

end Worker

/-! ## Measures on exact fractions -/

theorem isShare_sub {x : Rat} (h : IsShare x) : IsShare (1 - x) :=
  ⟨sub_nonneg.mpr h.2, sub_le_self 1 h.1⟩

/-- A sum of shares is at most their number. -/
theorem sum_of_shares {xs : List Rat} (h : ∀ x ∈ xs, IsShare x) :
    0 ≤ Scalar.sum xs ∧ Scalar.sum xs ≤ xs.length := by
  rw [Scalar.sum_eq]
  refine ⟨List.sum_nonneg fun x hx => (h x hx).1, ?_⟩
  have hle := List.sum_le_card_nsmul xs 1 fun x hx => (h x hx).2
  rwa [nsmul_one] at hle

theorem isShare_product {xs : List Rat} (h : ∀ x ∈ xs, IsShare x) : IsShare (Scalar.product xs) :=
  triangularNorm_mul.isShare_foldl isShare_one h

/-- If each literal has a share, then a clause has as many shares as literals. -/
theorem exists_mapM_of_shares {read : Literal → Except Breach Rat} {clause : List Literal}
    (h : ∀ l ∈ clause, ∃ x, read l = .ok x ∧ IsShare x) :
    ∃ xs, clause.mapM read = .ok xs ∧ xs.length = clause.length ∧ ∀ x ∈ xs, IsShare x := by
  induction clause with
  | nil => exact ⟨[], rfl, rfl, nofun⟩
  | cons l clause ih =>
    obtain ⟨⟨x, hread, hx⟩, hclause⟩ := List.forall_mem_cons.mp h
    obtain ⟨xs, hmap, hlength, hxs⟩ := ih hclause
    refine ⟨x :: xs, ?_, congrArg (· + 1) hlength, List.forall_mem_cons.mpr ⟨hx, hxs⟩⟩
    rw [List.mapM_cons, hread, hmap]
    rfl

namespace SampleRecord

variable {rate : Rat}

/-- Averages of what is zero or one are shares of one. -/
theorem isShare_ofHistory (hpos : 0 < rate) (hle : rate ≤ 1) (history : List Assignment)
    (v : Variable) : IsShare (ofHistory rate history v).decision.value ∧
      IsShare (ofHistory rate history v).polarity.value := by
  have hbit (p : Prop) [Decidable p] : IsShare (if p then one else zero : Rat) := by
    split
    · exact isShare_one
    · exact ⟨le_refl 0, zero_le_one⟩
  constructor
  all_goals
    refine MovingAverage.value_mem_unit hpos hle fun x hx => ?_
    obtain ⟨a, -, ha⟩ := List.mem_filterMap.mp hx
    obtain ⟨b, -, rfl⟩ := Option.map_eq_some_iff.mp ha
    exact hbit _

variable {r : SampleRecord Rat}

/-- A literal has the average of its variable or what that lacks of one. -/
theorem satisfied_eq (h : IsShare r.polarity.value) (positive : Bool) :
    r.satisfied positive = if positive then r.polarity.value else 1 - r.polarity.value := by
  rw [satisfied, clampUnit_of_mem h.1 h.2]
  rfl

theorem isShare_satisfied (h : IsShare r.polarity.value) (positive : Bool) :
    IsShare (r.satisfied positive) := by
  rw [satisfied_eq h]
  split
  · exact h
  · exact isShare_sub h

theorem satisfied_add_not (h : IsShare r.polarity.value) (positive : Bool) :
    r.satisfied positive + r.satisfied (!positive) = 1 := by
  rw [satisfied_eq h, satisfied_eq h]
  cases positive with
  | true => exact add_sub_cancel _ _
  | false => exact sub_add_cancel _ _

end SampleRecord

namespace Worker

section Exact

variable [Recorder R Rat] {settings : Settings Rat} {w : Worker Rat R} {l : Literal}
  {clause : List Literal}

theorem Reachable.isShare_records (hw : Reachable settings w) {v : Variable}
    {r : SampleRecord Rat} (hr : w.samples.records.get? v = some r) :
    IsShare r.decision.value ∧ IsShare r.polarity.value := by
  obtain ⟨history, h⟩ := hw.exists_shown
  have hrate := (isDecayRate_of_validate hw.validate_eq).2
  simp only [Scalar.isDecayRate, Scalar.lt_eq, Scalar.le_eq, Scalar.zero_eq, Scalar.one_eq,
    Bool.and_eq_true, decide_eq_true_eq] at hrate
  rw [h.record v r hr]
  exact SampleRecord.isShare_ofHistory hrate.1 hrate.2 history v

theorem Reachable.exists_record (hw : Reachable settings w) {v : Variable}
    (known : w.core.registered v = true) : ∃ r, w.samples.records.fetch v = .ok r ∧
      IsShare r.decision.value ∧ IsShare r.polarity.value := by
  obtain ⟨r, hr⟩ := PerVariable.exists_get? (hw.sampled.has known)
  exact ⟨r, PerVariable.fetch_eq_ok_iff.mpr hr, hw.isShare_records hr⟩

theorem Reachable.exists_decisionShare (hw : Reachable settings w)
    (known : w.core.registered l.var = true) :
    ∃ x, w.samples.decisionShare l = .ok x ∧ IsShare x := by
  obtain ⟨r, hr, hdecision, -⟩ := hw.exists_record known
  exact ⟨_, bind_eq_ok_iff.mpr ⟨r, hr, rfl⟩, hdecision⟩

/-- The two literals of a variable share one between them. -/
theorem Reachable.exists_satisfied (hw : Reachable settings w)
    (known : w.core.registered l.var = true) :
    ∃ x, w.samples.satisfied l = .ok x ∧ w.samples.satisfied l.negate = .ok (1 - x) ∧
      IsShare x := by
  obtain ⟨r, hr, -, hpolarity⟩ := hw.exists_record known
  refine ⟨r.satisfied l.isPositive, bind_eq_ok_iff.mpr ⟨r, hr, rfl⟩, ?_,
    SampleRecord.isShare_satisfied hpolarity _⟩
  refine bind_eq_ok_iff.mpr ⟨r, by rwa [Literal.var_negate], ?_⟩
  rw [Literal.isPositive_negate, ← SampleRecord.satisfied_add_not hpolarity l.isPositive,
    add_sub_cancel_left]
  rfl

theorem Reachable.exists_satisfactions (hw : Reachable settings w)
    (known : ∀ l ∈ clause, w.core.registered l.var = true) :
    ∃ xs, clause.mapM w.samples.satisfied = .ok xs ∧ xs.length = clause.length ∧
      ∀ x ∈ xs, IsShare x := by
  refine exists_mapM_of_shares fun l hl => ?_
  obtain ⟨x, hx, -, hshare⟩ := hw.exists_satisfied (known l hl)
  exact ⟨x, hx, hshare⟩

theorem Reachable.exists_fuzzyGlue (hw : Reachable settings w)
    (known : ∀ l ∈ clause, w.core.registered l.var = true) :
    ∃ x, w.samples.fuzzyGlue clause = .ok x ∧ 0 ≤ x ∧ x ≤ clause.length := by
  obtain ⟨xs, hxs, hlength, hshares⟩ :=
    exists_mapM_of_shares fun l hl => hw.exists_decisionShare (known l hl)
  refine ⟨_, bind_eq_ok_iff.mpr ⟨xs, hxs, rfl⟩, ?_⟩
  rw [← hlength]
  exact sum_of_shares hshares

theorem Reachable.exists_falsityProbability (hw : Reachable settings w)
    (known : ∀ l ∈ clause, w.core.registered l.var = true) :
    ∃ x, w.samples.falsityProbability clause = .ok x ∧ IsShare x := by
  obtain ⟨xs, hxs, -, hshares⟩ := hw.exists_satisfactions known
  refine ⟨_, bind_eq_ok_iff.mpr ⟨xs, hxs, rfl⟩, isShare_product fun y hy => ?_⟩
  obtain ⟨x, hx, rfl⟩ := List.mem_map.mp hy
  exact isShare_sub (hshares x hx)

theorem Reachable.exists_satisfactionSum (hw : Reachable settings w)
    (known : ∀ l ∈ clause, w.core.registered l.var = true) :
    ∃ x, w.samples.satisfactionSum clause = .ok x ∧ 1 ≤ x ∧ x ≤ 1 + clause.length := by
  obtain ⟨xs, hxs, hlength, hshares⟩ := hw.exists_satisfactions known
  obtain ⟨hnonneg, hle⟩ := sum_of_shares hshares
  refine ⟨_, bind_eq_ok_iff.mpr ⟨xs, hxs, rfl⟩, le_add_of_nonneg_right hnonneg, ?_⟩
  rw [← hlength]
  exact add_le_add_right hle 1

end Exact

/-! ## Main statement -/

/-- Take any run without breach. Each registered variable has a record that holds the averages of
one observation for each sampling at which it was assigned, in order: whether its entry on the trail
was a decision, and whether it was true. Nothing else is in it, and this holds bit for bit in every
arithmetic.

On exact fractions, the two literals of a variable therefore have shares that sum to one, decisions
have a share of one as well, although nothing clamps it, and the three measures of a clause are
within the bounds that its length gives. -/
theorem samples_follow_trails [Recorder R K] {settings : Settings K} {w₀ : Worker K R}
    (hcreate : create settings = .ok w₀) {ops : List (Operation R)} (hops : w₀.Completes ops) :
    (w₀.after ops).samples.samples = (w₀.samplings ops).length ∧
    (∀ v, (w₀.after ops).core.registered v = true → (w₀.after ops).samples.records.get? v =
      some (.ofHistory settings.trailSampleRate (w₀.samplings ops) v)) ∧
    ∀ {R' : Type} [Recorder R' Rat] {settings : Settings Rat} {w : Worker Rat R'},
      Reachable settings w →
      (∀ l, w.core.registered l.var = true →
        ∃ p q d, w.samples.satisfied l = .ok p ∧ w.samples.satisfied l.negate = .ok q ∧
          w.samples.decisionShare l = .ok d ∧
          (0 ≤ p ∧ p ≤ 1) ∧ (0 ≤ q ∧ q ≤ 1) ∧ p + q = 1 ∧ (0 ≤ d ∧ d ≤ 1)) ∧
      ∀ clause : List Literal, (∀ l ∈ clause, w.core.registered l.var = true) →
        ∃ fuzzy falsity sum, w.samples.fuzzyGlue clause = .ok fuzzy ∧
          w.samples.falsityProbability clause = .ok falsity ∧
          w.samples.satisfactionSum clause = .ok sum ∧
          (0 ≤ fuzzy ∧ fuzzy ≤ clause.length) ∧ (0 ≤ falsity ∧ falsity ≤ 1) ∧
          (1 ≤ sum ∧ sum ≤ 1 + clause.length) := by
  have hstart : Reachable settings w₀ := ⟨w₀, [], hcreate, nofun, rfl⟩
  have hshown : (w₀.after ops).Shown settings.trailSampleRate (w₀.samplings ops) := by
    obtain ⟨-, rfl⟩ := create_eq_ok_iff.mp hcreate
    exact (shown_blank settings).run hstart hops
  refine ⟨hshown.samples_eq, ?_, fun hw => ⟨?_, ?_⟩⟩
  · intro v known
    obtain ⟨r, hr⟩ := PerVariable.exists_get? ((hstart.after hops).sampled.has known)
    rw [hr, hshown.record v r hr]
  · intro l known
    obtain ⟨x, hx, hnegate, hshare⟩ := hw.exists_satisfied known
    obtain ⟨d, hd, hdecision⟩ := hw.exists_decisionShare known
    exact ⟨x, 1 - x, d, hx, hnegate, hd, hshare, isShare_sub hshare, add_sub_cancel _ _, hdecision⟩
  · intro clause known
    obtain ⟨fuzzy, hfuzzy, hglue⟩ := hw.exists_fuzzyGlue known
    obtain ⟨falsity, hfalsity, hshare⟩ := hw.exists_falsityProbability known
    obtain ⟨sum, hsum, hbounds⟩ := hw.exists_satisfactionSum known
    exact ⟨fuzzy, falsity, sum, hfuzzy, hfalsity, hsum, hglue, hshare, hbounds⟩

/-- The second variable is sampled as a propagation, not at all, and as a decision of the other
polarity. The third one is registered between these samplings. -/
def sampledSearch : List Operation :=
  [.addVariables 2, .decide (.ofVariable .first true), .assign (.ofVariable .second false),
    .observeTrail, .addVariables 1, .backtrack 0, .observeTrail,
    .decide (.ofVariable .second true), .assign (.ofVariable .third true), .observeTrail]

theorem samples_follow_trails_sampledSearch :
    (blank .standard : Worker Rat).Completes sampledSearch ∧
    ((blank .standard : Worker Rat).after sampledSearch).samples.samples = 3 ∧
    ((blank .standard : Worker Rat).after sampledSearch).samples.records.get? .second =
      some ⟨.ofObservations (1 / 100) [0, 1], .ofObservations (1 / 100) [0, 1]⟩ ∧
    ((blank .standard : Worker Rat).after sampledSearch).samples.records.get? .third =
      some ⟨.ofObservations (1 / 100) [0], .ofObservations (1 / 100) [1]⟩ ∧
    ∃ x, ((blank .standard : Worker Rat).after sampledSearch).samples.fuzzyGlue
      [.ofVariable .first false, .ofVariable .second false] = .ok x ∧ 0 ≤ x ∧ x ≤ 2 := by
  have hops : (blank .standard : Worker Rat).Completes sampledSearch := by
    unfold Completes
    decide +kernel
  obtain ⟨hsamples, hrecords, hbounds⟩ :=
    samples_follow_trails (create_eq_ok_iff.mpr ⟨Settings.validate_standard, rfl⟩) hops
  obtain ⟨-, hclauses⟩ := hbounds (reachable_standard hops)
  obtain ⟨x, _, _, hx, -, -, hglue, -⟩ :=
    hclauses [.ofVariable .first false, .ofVariable .second false] (by decide +kernel)
  refine ⟨hops, hsamples.trans (by decide +kernel), (hrecords .second (by decide +kernel)).trans ?_,
    (hrecords .third (by decide +kernel)).trans ?_, x, hx, hglue⟩
  · decide +kernel
  · decide +kernel

end Worker

end ClauseSharing
