import ClauseSharing.Proofs.Polarity.CatchUp

/-!
Calls to the estimates, made one after the other.

A call registers variables or catches records up. Whatever it is, it appends fresh records or
catches some records up (`Stability.perform_cases`), so what fresh records have and catching up
keeps is true of all records that are reached (`Stability.Keeps.performAll`). A call answers if it
asks no record to go back (`Stability.exists_perform`).
-/

namespace ClauseSharing

open Scalar

namespace Stability

/-- A call that registers variables or catches records up. -/
inductive Call where
  | register (n : Nat) (tick : Int)
  | catchUp (v : Variable) (tick : Int) (values : Variable → Option Bool)
  | catchUpAll (tick : Int) (values : Variable → Option Bool)

variable {K : Type} [Scalar K] {s s' : Stability K}

def perform (s : Stability K) : Call → Except Breach (Stability K)
  | .register n tick => s.register n tick
  | .catchUp v tick values => s.catchUp v tick (values v)
  | .catchUpAll tick values => s.catchUpAll tick values

/-- Performs the calls one after the other, up to the first breach. -/
def performAll (s : Stability K) (calls : List Call) : Except Breach (Stability K) :=
  calls.foldlM perform s

/-- The call asks no record to go back. -/
def Onward (s : Stability K) : Call → Prop
  | .register _ _ => True
  | .catchUp v tick _ => ∃ r, s.records.get? v = some r ∧ Reaches r tick
  | .catchUpAll tick _ => ∀ v r, s.records.get? v = some r → Reaches r tick

/-- A call appends fresh records or catches records up. -/
theorem perform_cases (hc : s.CacheValid) {call : Call} (h : s.perform call = .ok s') :
    (∃ n tick, s' = { s with records := s.records.extend n (.fresh s.rate tick) }) ∨
    ∃ vs tick values, CatchesUp s s' vs tick values := by
  cases call with
  | register n tick =>
    simp only [perform, register] at h
    split at h <;> cases h
    exact .inl ⟨n, tick, rfl⟩
  | catchUp v tick values => exact .inr ⟨[v], tick, values, catchesUp_of_catchUp hc h⟩
  | catchUpAll tick values => exact .inr ⟨_, tick, values, catchesUp_of_catchUpEach hc h⟩

theorem exists_perform (hrate : isDecayRate s.rate = true) (hc : s.CacheValid) {call : Call}
    (honward : s.Onward call) : ∃ s', s.perform call = .ok s' := by
  cases call with
  | register n tick => exact ⟨_, if_pos (.inr hrate)⟩
  | catchUp v tick values =>
    obtain ⟨r, hr, hreaches⟩ := honward
    exact exists_catchUp hr hreaches (values v)
  | catchUpAll tick values =>
    refine exists_catchUpEach hc (fun v hv => ?_) values
    obtain ⟨r, hr⟩ := PerVariable.exists_get? (PerVariable.has_of_mem_variables hv)
    exact ⟨r, hr, honward v r hr⟩

/-! ## What holds of all records -/

/-- The estimates have the rate, the cache holds a decay factor of it, and all records have the
property. -/
structure Keeps (s : Stability K) (rate : K) (P : PolarityRecord K → Prop) : Prop where
  rate_eq : s.rate = rate
  cacheValid : s.CacheValid
  record : ∀ v r, s.records.get? v = some r → P r

namespace Keeps

variable {rate : K} {P : PolarityRecord K → Prop}

theorem empty (rate : K) (P : PolarityRecord K → Prop) : (empty rate).Keeps rate P := by
  refine ⟨rfl, cacheValid_empty rate, fun v r hr => ?_⟩
  exact absurd (PerVariable.has_iff.mp (PerVariable.has_of_get? hr)) (Nat.not_lt_zero _)

theorem register (h : s.Keeps rate P) {tick : Int} (hfresh : P (.fresh rate tick)) (n : Nat) :
    Keeps { s with records := s.records.extend n (.fresh s.rate tick) } rate P := by
  refine ⟨h.rate_eq, h.cacheValid, fun v r hr => ?_⟩
  rw [PerVariable.get?_extend, h.rate_eq] at hr
  split at hr
  · exact h.record v r hr
  split at hr
  · cases hr
    exact hfresh
  · cases hr

theorem catchesUp (h : s.Keeps rate P) {vs : List Variable} {tick : Int}
    {values : Variable → Option Bool}
    (hcaught : ∀ r value, P r → P (r.caughtUp rate tick value))
    (hs : CatchesUp s s' vs tick values) : s'.Keeps rate P := by
  refine ⟨hs.rate_eq.trans h.rate_eq, hs.cacheValid, fun v r hr => ?_⟩
  rw [hs.get?_eq, h.rate_eq] at hr
  split at hr
  · obtain ⟨r₀, hr₀, rfl⟩ := Option.map_eq_some_iff.mp hr
    exact hcaught r₀ (values v) (h.record v r₀ hr₀)
  · exact h.record v r hr

section Calls

variable (hfresh : ∀ tick, P (.fresh rate tick))
  (hcaught : ∀ r tick value, P r → P (r.caughtUp rate tick value))
include hfresh hcaught

theorem perform (h : s.Keeps rate P) {call : Call} (hs : s.perform call = .ok s') :
    s'.Keeps rate P := by
  obtain ⟨n, tick, rfl⟩ | ⟨vs, tick, values, hcatches⟩ := perform_cases h.cacheValid hs
  · exact h.register (hfresh tick) n
  · exact h.catchesUp (fun r value => hcaught r tick value) hcatches

theorem performAll (h : s.Keeps rate P) {calls : List Call} (hs : s.performAll calls = .ok s') :
    s'.Keeps rate P := by
  induction calls generalizing s with
  | nil =>
    cases hs
    exact h
  | cons call calls ih =>
    obtain ⟨s₁, hhead, htail⟩ := bind_eq_ok_iff.mp hs
    exact ih (h.perform hfresh hcaught hhead) htail

end Calls

end Keeps

end Stability

end ClauseSharing
