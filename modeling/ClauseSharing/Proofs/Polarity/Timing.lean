import ClauseSharing.Proofs.Worker.Tables

/-!
The records of a worker are in time.

Ticks are counted from zero and stay within 64 bits. No record was last caught up before the first
tick or after the present one (`Worker.Timed`), so none would have to go back in time, and catching
up answers whenever the variables have records (`Stability.exists_catchUpEach`,
`Worker.Timed.exists_catchUpAll`).
-/

namespace ClauseSharing

variable {K R : Type} [Scalar K]

/-! ## Records -/

namespace Stability

/-- All records have averages of the rate in use and were last caught up between the first tick and
the given one. -/
structure InTime (s : Stability K) (tick : Int) : Prop where
  cacheValid : s.CacheValid
  record : ∀ v r, s.records.get? v = some r → 0 ≤ r.lastTick ∧ r.lastTick ≤ tick ∧
    r.whenTrue.rate = s.rate ∧ r.whenFalse.rate = s.rate

variable {s s' : Stability K} {tick : Int}

theorem InTime.mono (h : s.InTime tick) {later : Int} (hle : tick ≤ later) : s.InTime later where
  cacheValid := h.cacheValid
  record v r hr := by
    obtain ⟨hnonneg, hlast, hrates⟩ := h.record v r hr
    exact ⟨hnonneg, Int.le_trans hlast hle, hrates⟩

theorem InTime.catchesUp (h : s.InTime tick) (htick : 0 ≤ tick) {vs : List Variable}
    {values : Variable → Option Bool} (hs : CatchesUp s s' vs tick values) : s'.InTime tick where
  cacheValid := hs.cacheValid
  record v r hr := by
    rw [hs.rate_eq]
    rw [hs.get?_eq] at hr
    split at hr
    · obtain ⟨r₀, hr₀, rfl⟩ := Option.map_eq_some_iff.mp hr
      obtain ⟨-, -, htrue, hfalse⟩ := h.record v r₀ hr₀
      rw [PolarityRecord.lastTick_caughtUp]
      exact ⟨htick, Int.le_refl tick, (MovingAverage.rate_advance ..).trans htrue,
        (MovingAverage.rate_advance ..).trans hfalse⟩
    · exact h.record v r hr

theorem InTime.register (h : s.InTime tick) (htick : 0 ≤ tick) (n : Nat) :
    InTime { s with records := s.records.extend n (.fresh s.rate tick) } tick where
  cacheValid := h.cacheValid
  record v r hr := by
    rw [PerVariable.get?_extend] at hr
    split at hr
    · exact h.record v r hr
    split at hr
    · cases hr
      exact ⟨htick, Int.le_refl tick, rfl, rfl⟩
    · cases hr

/-- Variables with records in time can be caught up, one after the other. -/
theorem InTime.exists_catchUpEach (h : s.InTime tick) (hbound : tick < 0x8000000000000000)
    {vs : List Variable} (hvs : ∀ v ∈ vs, s.records.has v = true)
    (values : Variable → Option Bool) : ∃ s', s.catchUpEach vs tick values = .ok s' := by
  refine Stability.exists_catchUpEach h.cacheValid (fun v hv => ?_) values
  obtain ⟨r, hr⟩ := PerVariable.exists_get? (hvs v hv)
  obtain ⟨hnonneg, hlast, -⟩ := h.record v r hr
  exact ⟨r, hr, hlast, by omega⟩

end Stability

/-! ## Workers -/

namespace Worker

variable {w w' : Worker K R} {settings : Settings K}

/-- Ticks are within 64 bits and all records are in time. -/
structure Timed (w : Worker K R) (rate : K) : Prop where
  rate_eq : w.stability.rate = rate
  tick_nonneg : 0 ≤ w.tick
  tick_lt : w.tick < 0x8000000000000000
  records : w.stability.InTime w.tick

/-- All records can be caught up to the present tick. -/
theorem Timed.exists_catchUpAll {rate : K} (h : w.Timed rate) : ∃ w', w.catchUpAll = .ok w' := by
  obtain ⟨s, hs⟩ := h.records.exists_catchUpEach h.tick_lt
    (fun _ => PerVariable.has_of_mem_variables) w.core.assignment.value
  exact ⟨_, bind_eq_ok_iff.mpr ⟨s, hs, rfl⟩⟩

variable [Recorder R K]

theorem timed_step {rate : K} (h : w.Timed rate)
    (hsize : w.stability.records.size ≤ Variable.maxCount) {op : Operation R}
    (hop : (w.step op).2.isBreach = false) : (w.step op).1.Timed rate := by
  rcases (effect_step hop).timing h.records.cacheValid hsize with
    ⟨-, vs, hcredits⟩ | ⟨-, hfits, heq⟩ | ⟨n, samples, -, -, heq⟩
  · refine ⟨hcredits.catchesUp.rate_eq.trans h.rate_eq, ?_, ?_, ?_⟩
    all_goals rw [hcredits.tick_eq]
    · exact h.tick_nonneg
    · exact h.tick_lt
    · exact h.records.catchesUp h.tick_nonneg hcredits.catchesUp
  · rw [heq]
    have hnext : w.tick ≤ w.tick + 1 := Int.le_of_lt (Int.lt_succ w.tick)
    exact ⟨h.rate_eq, Int.le_trans h.tick_nonneg hnext, hfits, h.records.mono hnext⟩
  · rw [heq]
    exact ⟨h.rate_eq, h.tick_nonneg, h.tick_lt, h.records.register h.tick_nonneg n⟩

/-- In every reachable worker, the records are in time. -/
theorem Reachable.timed (h : Reachable settings w) : w.Timed settings.stabilityRate := by
  refine (h.induction (P := fun w => (w.stability.records.size = w.size ∧ w.core.WellFormed) ∧
    w.Timed settings.stabilityRate) (fun w hw => ?_) fun w op hw hop => ?_).2
  · obtain ⟨-, rfl⟩ := create_eq_ok_iff.mp hw
    have hstart : (0 : Int) < 0x8000000000000000 := by decide
    refine ⟨⟨rfl, .empty⟩, rfl, Int.le_refl 0, hstart, Stability.cacheValid_empty _,
      fun v r hr => ?_⟩
    exact absurd (PerVariable.has_iff.mp (PerVariable.has_of_get? hr)) (Nat.not_lt_zero _)
  · obtain ⟨⟨hrecords, hcore⟩, htimed⟩ := hw
    have hsize : w.stability.records.size ≤ Variable.maxCount := hrecords ▸ hcore.size_le
    exact ⟨⟨(effect_step hop).records_size hrecords, (evolves_step hrecords).wellFormed hcore⟩,
      timed_step htimed hsize hop⟩

end Worker

end ClauseSharing
