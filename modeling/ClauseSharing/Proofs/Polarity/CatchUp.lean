import ClauseSharing.Polarity.Stability

/-!
What catching up does to the records.

Catching a variable up credits all ticks since its last synchronization to one value. In terms of
the record alone this is `PolarityRecord.caughtUp`, which does not mention the cache of decay
factors: the cache always holds the factor that it would be asked to compute (`CacheValid`). Doing
it twice for one tick is the same as doing it once (`caughtUp_caughtUp`), so catching a list of
variables up changes exactly the records of its members, whatever the order and the repetitions. It
answers if all of them can reach the tick (`Stability.exists_catchUpEach`).
-/

namespace ClauseSharing

open Scalar

variable {K : Type} [Scalar K]

/-! ## One record -/

namespace PolarityRecord

/-- The record after all ticks from its last synchronization up to `tick` were credited to the
given value. -/
def caughtUp (r : PolarityRecord K) (rate : K) (tick : Int) (value : Option Bool) :
    PolarityRecord K :=
  r.advance value (tick - r.lastTick) (retained rate (tick - r.lastTick))

@[simp] theorem lastTick_caughtUp (r : PolarityRecord K) (rate : K) (tick : Int)
    (value : Option Bool) : (r.caughtUp rate tick value).lastTick = tick := by
  simp only [caughtUp, advance]
  omega

theorem caughtUp_of_lastTick_eq {r : PolarityRecord K} {tick : Int} (h : r.lastTick = tick)
    (rate : K) (value : Option Bool) : r.caughtUp rate tick value = r := by
  subst h
  simp [caughtUp, advance, MovingAverage.advance]

@[simp] theorem caughtUp_caughtUp (r : PolarityRecord K) (rate : K) (tick : Int)
    (value value' : Option Bool) :
    (r.caughtUp rate tick value).caughtUp rate tick value' = r.caughtUp rate tick value :=
  caughtUp_of_lastTick_eq (lastTick_caughtUp r rate tick value) rate value'

end PolarityRecord

namespace Stability

/-! ## The cache -/

/-- The cache holds the decay factor for the number of steps it names. -/
def CacheValid (s : Stability K) : Prop := s.cache.factor = retained s.rate s.cache.steps

theorem cacheValid_empty (rate : K) : (empty rate).CacheValid := by
  show one = retained rate 0
  simp [retained, fitsWord32, smallPow, mulPow]

theorem factor_demand {s : Stability K} (h : s.CacheValid) (steps : Int) :
    (s.cache.demand s.rate steps).factor = retained s.rate steps ∧
    (s.cache.demand s.rate steps).factor =
      retained s.rate (s.cache.demand s.rate steps).steps := by
  unfold DecayCache.demand
  split
  · next hs => exact ⟨hs ▸ h, h⟩
  · exact ⟨rfl, rfl⟩

/-! ## Many records -/

/-- `s'` is `s` with the records of the listed variables caught up to the tick. -/
structure CatchesUp (s s' : Stability K) (vs : List Variable) (tick : Int)
    (values : Variable → Option Bool) : Prop where
  rate_eq : s'.rate = s.rate
  size_eq : s'.records.size = s.records.size
  cacheValid : s'.CacheValid
  get?_eq : ∀ u, s'.records.get? u =
    if u ∈ vs then (s.records.get? u).map (·.caughtUp s.rate tick (values u))
    else s.records.get? u

theorem CatchesUp.refl {s : Stability K} (h : s.CacheValid) (tick : Int)
    (values : Variable → Option Bool) : CatchesUp s s [] tick values :=
  ⟨rfl, rfl, h, fun _ => by simp⟩

/-- Catching up one list after another is catching up both. -/
theorem CatchesUp.append {s s' s'' : Stability K} {vs vs' : List Variable} {tick : Int}
    {values : Variable → Option Bool} (h : CatchesUp s s' vs tick values)
    (h' : CatchesUp s' s'' vs' tick values) : CatchesUp s s'' (vs ++ vs') tick values where
  rate_eq := h'.rate_eq.trans h.rate_eq
  size_eq := h'.size_eq.trans h.size_eq
  cacheValid := h'.cacheValid
  get?_eq u := by
    rw [h'.get?_eq, h.get?_eq, h.rate_eq]
    by_cases hu : u ∈ vs <;> by_cases hu' : u ∈ vs' <;>
      simp [hu, hu', Option.map_map, Function.comp_def]

theorem catchesUp_of_catchUp {s s' : Stability K} {v : Variable} {tick : Int}
    {values : Variable → Option Bool} (hc : s.CacheValid)
    (h : s.catchUp v tick (values v) = .ok s') : CatchesUp s s' [v] tick values := by
  unfold catchUp at h
  simp only [bind_eq_ok_iff, PerVariable.fetch_eq_ok_iff, inWord64_eq_ok_iff] at h
  obtain ⟨r, hr, steps, ⟨rfl, _⟩, h⟩ := h
  split at h
  · cases h
  split at h
  · next hzero =>
    cases h
    -- Nothing happens to a record at the present tick, and nothing would have to.
    have hlast : r.lastTick = tick := by omega
    have hidle := PolarityRecord.caughtUp_of_lastTick_eq hlast
    refine ⟨rfl, rfl, hc, fun u => ?_⟩
    by_cases hu : u = v
    · subst hu
      simp [hr, hidle]
    · simp [hu]
  · cases h
    obtain ⟨hfactor, hcache⟩ := factor_demand hc (tick - r.lastTick)
    refine ⟨rfl, PerVariable.size_set .., hcache, fun u => ?_⟩
    rw [PerVariable.get?_set, hfactor]
    by_cases hu : u = v
    · subst hu
      simp [hr, PerVariable.has_of_get? hr, PolarityRecord.caughtUp]
    · simp [hu, Ne.symm hu]

theorem catchesUp_of_catchUpEach {s s' : Stability K} {vs : List Variable} {tick : Int}
    {values : Variable → Option Bool} (hc : s.CacheValid)
    (h : s.catchUpEach vs tick values = .ok s') : CatchesUp s s' vs tick values := by
  induction vs generalizing s with
  | nil =>
    cases h
    exact .refl hc tick values
  | cons v vs ih =>
    obtain ⟨s₁, hhead, htail⟩ := bind_eq_ok_iff.mp h
    have hv := catchesUp_of_catchUp hc hhead
    exact hv.append (ih hv.cacheValid htail)

/-- Catching all records up changes every record. There are never more records than variables that
can be counted. -/
theorem get?_of_catchUpAll {s s' : Stability K} {tick : Int} {values : Variable → Option Bool}
    (hc : s.CacheValid) (hsize : s.records.size ≤ Variable.maxCount)
    (h : s.catchUpAll tick values = .ok s') (u : Variable) :
    s'.records.get? u = (s.records.get? u).map (·.caughtUp s.rate tick (values u)) := by
  rw [(catchesUp_of_catchUpEach hc h).get?_eq]
  split
  · rfl
  · next hu =>
    cases hr : s.records.get? u with
    | none => rfl
    | some r => exact absurd (PerVariable.mem_variables hsize (PerVariable.has_of_get? hr)) hu

/-! ## Answers -/

/-- The record can be caught up to the tick: the tick is not before its last one, and the number of
ticks in between fits into 64 bits. -/
def Reaches (r : PolarityRecord K) (tick : Int) : Prop :=
  r.lastTick ≤ tick ∧ tick - r.lastTick < 0x8000000000000000

/-- A variable can be caught up if its record can. -/
theorem exists_catchUp {s : Stability K} {v : Variable} {r : PolarityRecord K}
    (hr : s.records.get? v = some r) {tick : Int} (h : Reaches r tick) (value : Option Bool) :
    ∃ s', s.catchUp v tick value = .ok s' := by
  obtain ⟨hlast, hfits⟩ := h
  have hfetch : s.records.fetch v = .ok r := PerVariable.fetch_eq_ok_iff.mpr hr
  have hsteps : inWord64 (tick - r.lastTick) = .ok (tick - r.lastTick) :=
    inWord64_eq_ok_iff.mpr ⟨rfl, by omega, hfits⟩
  have hforward : ¬ tick - r.lastTick < 0 := Int.not_lt.mpr (Int.sub_nonneg_of_le hlast)
  unfold catchUp
  rw [hfetch]
  simp only [bind, Except.bind, hsteps, hforward, if_false]
  split
  · exact ⟨s, rfl⟩
  · exact ⟨_, rfl⟩

/-- So can variables one after the other. A record that was caught up stays where it is. -/
theorem exists_catchUpEach {s : Stability K} (hc : s.CacheValid) {vs : List Variable} {tick : Int}
    (hvs : ∀ v ∈ vs, ∃ r, s.records.get? v = some r ∧ Reaches r tick)
    (values : Variable → Option Bool) : ∃ s', s.catchUpEach vs tick values = .ok s' := by
  induction vs generalizing s with
  | nil => exact ⟨s, rfl⟩
  | cons v vs ih =>
    obtain ⟨r, hr, hreaches⟩ := hvs v List.mem_cons_self
    obtain ⟨s₁, hhead⟩ := exists_catchUp hr hreaches (values v)
    have hcatches := catchesUp_of_catchUp hc hhead
    obtain ⟨s', htail⟩ := ih hcatches.cacheValid fun u hu => by
      obtain ⟨r, hr, hreaches⟩ := hvs u (List.mem_cons_of_mem v hu)
      rw [hcatches.get?_eq, hr]
      split
      · refine ⟨_, rfl, ?_⟩
        simp [Reaches]
      · exact ⟨r, rfl, hreaches⟩
    exact ⟨s', bind_eq_ok_iff.mpr ⟨s₁, hhead, htail⟩⟩

end Stability

end ClauseSharing
