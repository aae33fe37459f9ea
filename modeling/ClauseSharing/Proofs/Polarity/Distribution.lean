import ClauseSharing.Proofs.Estimate.WeightedMean
import ClauseSharing.Proofs.Polarity.Calls

/-!
The estimates of a literal are a distribution.

On exact fractions, every record is fed from one list of values (`PolarityRecord.ofValues`,
`Stability.Observed`): its two averages observe the same ticks, and no tick shows a variable both
true and false. Averages of the same ticks add up to the average of the sums, so the two estimates
are shares of one, and what they leave is the share of being unassigned
(`Stability.probabilities_are_distribution`).
-/

namespace ClauseSharing

open Scalar

/-! ## One record -/

namespace PolarityRecord

/-- The record of a variable that had the given values, one at each tick up to the last
synchronization. -/
def ofValues (rate : Rat) (values : List (Option Bool)) (tick : Int) : PolarityRecord Rat where
  whenTrue := .ofObservations rate (values.map fun value => (observations value).1)
  whenFalse := .ofObservations rate (values.map fun value => (observations value).2)
  lastTick := tick

/-- Catching a record up appends its value once for each tick. -/
theorem caughtUp_ofValues (rate : Rat) (values : List (Option Bool)) (last tick : Int)
    (value : Option Bool) :
    (ofValues rate values last).caughtUp rate tick value =
      ofValues rate (values ++ List.replicate (tick - last).toNat value) tick := by
  have hadvance (f : Option Bool → Rat) :
      (MovingAverage.ofObservations rate (values.map f)).advance (f value) (tick - last)
          (retained rate (tick - last)) =
        .ofObservations rate ((values ++ List.replicate (tick - last).toNat value).map f) := by
    rw [MovingAverage.advance_ofObservations_toNat, List.map_append, List.map_replicate]
  have hlast : last + (tick - last) = tick := by omega
  simp only [caughtUp, advance, ofValues, hadvance, hlast]

/-- The estimates of a record are shares of one, and so is their sum. -/
theorem estimate_ofValues {rate : Rat} (hpos : 0 < rate) (hle : rate ≤ 1)
    (values : List (Option Bool)) (tick : Int) :
    (∀ positive, 0 ≤ (ofValues rate values tick).estimate positive) ∧
      (ofValues rate values tick).estimate true + (ofValues rate values tick).estimate false ≤
        1 := by
  have hshare (f : Option Bool → Rat) (hf : ∀ value, 0 ≤ f value ∧ f value ≤ 1) :
      0 ≤ (MovingAverage.ofObservations rate (values.map f)).value ∧
        (MovingAverage.ofObservations rate (values.map f)).value ≤ 1 :=
    MovingAverage.value_mem_unit hpos hle (List.forall_mem_map.mpr fun value _ => hf value)
  constructor
  · rintro (_ | _)
    · exact (hshare _ (by decide +kernel)).1
    · exact (hshare _ (by decide +kernel)).1
  · -- At each tick, a variable is true, or false, or neither.
    show MovingAverage.value _ + MovingAverage.value _ ≤ 1
    rw [ofValues, MovingAverage.value_map_add]
    exact (hshare _ (by decide +kernel)).2

end PolarityRecord

namespace Stability

/-! ## Reached records -/

/-- Every record is fed from one list of values. -/
structure Observed (rate : Rat) (s : Stability Rat) : Prop where
  rate_eq : s.rate = rate
  cacheValid : s.CacheValid
  record : ∀ v r, s.records.get? v = some r →
    ∃ values, r = .ofValues rate values r.lastTick

theorem Observed.of_performAll {rate : Rat} {calls : List Call} {s : Stability Rat}
    (hs : (empty rate).performAll calls = .ok s) : Observed rate s := by
  let P (r : PolarityRecord Rat) : Prop := ∃ values, r = .ofValues rate values r.lastTick
  have hfresh (tick : Int) : P (.fresh rate tick) := ⟨[], rfl⟩
  have hcaught (r : PolarityRecord Rat) (tick : Int) (value : Option Bool) (hr : P r) :
      P (r.caughtUp rate tick value) := by
    obtain ⟨values, hvalues⟩ := hr
    refine ⟨values ++ List.replicate (tick - r.lastTick).toNat value, ?_⟩
    rw [PolarityRecord.lastTick_caughtUp, ← PolarityRecord.caughtUp_ofValues, ← hvalues]
  have hkeeps := (Keeps.empty rate P).performAll hfresh hcaught hs
  exact ⟨hkeeps.rate_eq, hkeeps.cacheValid, hkeeps.record⟩

/-! ## Main statement -/

/-- Take the estimates of a decay rate that any calls have reached, in which no record went back and
the values were whatever they were. A further call that asks no record to go back answers. For every
registered literal, the estimates of both polarities are shares of one as they are, so clamping them
changes nothing. Being true, being false and being unassigned are probabilities that sum to one, and
a literal is as likely true as its negation is false. -/
theorem probabilities_are_distribution {rate : Rat} (hpos : 0 < rate) (hle : rate ≤ 1)
    {calls : List Call} {s : Stability Rat} (hrun : (empty rate).performAll calls = .ok s) :
    (∀ call, s.Onward call → ∃ s', s.perform call = .ok s') ∧
    ∀ l : Literal, s.records.has l.var = true →
      (∀ positive, 0 ≤ s.estimate l.var positive ∧ s.estimate l.var positive ≤ 1) ∧
      s.probabilities.isTrue l = s.estimate l.var l.isPositive ∧
      s.probabilities.isFalse l = s.estimate l.var (!l.isPositive) ∧
      s.probabilities.isUnassigned l =
        1 - s.probabilities.isTrue l - s.probabilities.isFalse l ∧
      s.probabilities.isTrue l + s.probabilities.isFalse l ≤ 1 ∧
      s.probabilities.isTrue l + s.probabilities.isFalse l + s.probabilities.isUnassigned l = 1 ∧
      s.probabilities.isTrue l = s.probabilities.isFalse l.negate := by
  have hobserved := Observed.of_performAll hrun
  have hrate : isDecayRate s.rate = true := by
    rw [hobserved.rate_eq]
    simp [isDecayRate, hpos, hle]
  refine ⟨fun call => exists_perform hrate hobserved.cacheValid, fun l hl => ?_⟩
  obtain ⟨r, hr⟩ := PerVariable.exists_get? hl
  obtain ⟨values, hvalues⟩ := hobserved.record l.var r hr
  have hestimate (positive : Bool) : s.estimate l.var positive = r.estimate positive := by
    rw [estimate, hr]
  obtain ⟨hnonneg, hsum⟩ := PolarityRecord.estimate_ofValues hpos hle values r.lastTick
  rw [← hvalues] at hnonneg hsum
  have hunit (positive : Bool) :
      0 ≤ s.estimate l.var positive ∧ s.estimate l.var positive ≤ 1 := by
    rw [hestimate]
    have htrue := hnonneg true
    have hfalse := hnonneg false
    cases positive <;> constructor <;> linarith
  have htrue : s.probabilities.isTrue l = s.estimate l.var l.isPositive :=
    clampUnit_of_mem (hunit _).1 (hunit _).2
  have hfalse : s.probabilities.isFalse l = s.estimate l.var (!l.isPositive) :=
    clampUnit_of_mem (hunit _).1 (hunit _).2
  have hboth : s.probabilities.isTrue l + s.probabilities.isFalse l ≤ 1 := by
    rw [htrue, hfalse, hestimate, hestimate]
    cases l.isPositive
    · exact (add_comm _ _).trans_le hsum
    · exact hsum
  have hrest : s.probabilities.isUnassigned l =
      1 - s.probabilities.isTrue l - s.probabilities.isFalse l := by
    refine clampUnit_of_mem ?_ ?_
    · show 0 ≤ 1 - s.probabilities.isTrue l - s.probabilities.isFalse l
      linarith
    · show 1 - s.probabilities.isTrue l - s.probabilities.isFalse l ≤ 1
      linarith [(hunit l.isPositive).1, (hunit !l.isPositive).1]
  refine ⟨hunit, htrue, hfalse, hrest, hboth, by rw [hrest]; ring, ?_⟩
  simp [probabilities]

/-- The positive literal of the variable that is registered first. -/
def firstLiteral : Literal := ⟨0⟩

/-- The first variable is true, then unassigned, then false, and is caught up at uneven gaps. -/
def unevenCalls : List Call :=
  [.register 2 0, .catchUp firstLiteral.var 3 fun _ => some true, .catchUpAll 5 fun _ => none,
    .register 1 5, .catchUp firstLiteral.var 9 fun _ => some false,
    .catchUpAll 9 fun _ => some true]

theorem probabilities_are_distribution_unevenCalls :
    (0 : Rat) < 1 / 3 ∧ (1 / 3 : Rat) ≤ 1 ∧
    ∃ s : Stability Rat, (empty (1 / 3)).performAll unevenCalls = .ok s ∧
      s.records.has firstLiteral.var = true ∧
      s.probabilities.isTrue firstLiteral = 4160 / 59049 ∧
      s.probabilities.isTrue firstLiteral + s.probabilities.isFalse firstLiteral +
        s.probabilities.isUnassigned firstLiteral = 1 := by
  have hpos : (0 : Rat) < 1 / 3 := by norm_num
  have hle : (1 / 3 : Rat) ≤ 1 := by norm_num
  have hseen : ((empty (1 / 3 : Rat)).performAll unevenCalls).map (fun s =>
      (s.records.has firstLiteral.var, s.probabilities.isTrue firstLiteral)) =
        .ok (true, 4160 / 59049) := by
    decide +kernel
  cases hrun : (empty (1 / 3 : Rat)).performAll unevenCalls with
  | error b =>
    rw [hrun] at hseen
    cases hseen
  | ok s =>
    rw [hrun] at hseen
    obtain ⟨hhas, htrue⟩ := Prod.mk.inj (Except.ok.inj hseen)
    obtain ⟨-, hdistribution⟩ := probabilities_are_distribution hpos hle hrun
    obtain ⟨-, -, -, -, -, hsum, -⟩ := hdistribution firstLiteral hhas
    exact ⟨hpos, hle, s, rfl, hhas, htrue, hsum⟩

end Stability

end ClauseSharing
