import ClauseSharing.Proofs.Estimate.Repetition
import ClauseSharing.Proofs.Polarity.Credit

/-!
Lazy tracking of polarities is eager tracking.

A chronicle notes, beside a run, the values at each conflict and the tick at which each variable was
registered. On exact fractions every record is, at every moment of every run, the pair of averages
that one observation for each conflict gives: from the registration of its variable up to the last
synchronization, and at all conflicts since then the variable had its present value
(`Worker.records_follow_conflicts`).
-/

namespace ClauseSharing

variable {K R : Type} [Scalar K] [Recorder R K]

/-! ## Chronicles -/

/-- What a run has shown so far. -/
structure Chronicle where
  /-- The values of the variables when each conflict was counted, oldest first. -/
  conflicts : List (Variable → Option Bool)
  /-- The tick at which each variable was registered. -/
  births : PerVariable Int

namespace Chronicle

/-- The chronicle of a worker without variables. -/
def empty : Chronicle := ⟨[], .empty⟩

/-- The number of conflicts so far. -/
def now (c : Chronicle) : Int := c.conflicts.length

/-- The values of a variable at the conflicts numbered `first + 1` to `last`. -/
def seen (c : Chronicle) (v : Variable) (first last : Int) : List (Option Bool) :=
  ((c.conflicts.take last.toNat).drop first.toNat).map (· v)

/-- The chronicle after one more conflict. -/
def addConflict (c : Chronicle) (values : Variable → Option Bool) : Chronicle :=
  { c with conflicts := c.conflicts ++ [values] }

/-- The chronicle after an operation on the worker. -/
def note (c : Chronicle) (w : Worker K R) (op : Operation R) : Chronicle :=
  match op with
  | .conflict => c.addConflict w.core.assignment.value
  | _ => { c with births := c.births.extend ((w.step op).1.size - w.size) w.tick }

theorem note_of_timeless {op : Operation R} (h : op.isConflict = false) (c : Chronicle)
    (w : Worker K R) :
    c.note w op =
      { c with births := c.births.extend ((w.step op).1.size - w.size) w.tick } := by
  cases op with
  | conflict => cases h
  | _ => rfl

/-- One for the value that is looked for, and zero for all else. -/
def indicator (positive : Bool) (value : Option Bool) : Rat :=
  if value = some positive then 1 else 0

end Chronicle

/-- The chronicle of a run, begun with what was noted before it. -/
def Worker.chronicle (w : Worker K R) (c : Chronicle) : List (Operation R) → Chronicle
  | [] => c
  | op :: ops => (w.step op).1.chronicle (c.note w op) ops

namespace Chronicle

theorem seen_self (c : Chronicle) (v : Variable) (a : Int) : c.seen v a a = [] := by
  simp [seen]

theorem seen_append (c : Chronicle) (v : Variable) {a b d : Int} (hab : a ≤ b) (hbd : b ≤ d) :
    c.seen v a b ++ c.seen v b d = c.seen v a d := by
  have hsum : d.toNat - a.toNat = (b.toNat - a.toNat) + (d.toNat - b.toNat) := by omega
  have hdrop : a.toNat + (b.toNat - a.toNat) = b.toNat := by omega
  rw [seen, seen, seen, ← List.map_append]
  simp only [List.drop_take, hsum, List.take_add, List.drop_drop, hdrop]

theorem seen_now (c : Chronicle) (v : Variable) (a : Int) :
    c.seen v a c.now = (c.conflicts.drop a.toNat).map (· v) := by
  simp [seen, now]

theorem length_seen_now (c : Chronicle) (v : Variable) (a : Int) :
    (c.seen v a c.now).length = c.conflicts.length - a.toNat := by
  rw [seen_now, List.length_map, List.length_drop]

theorem seen_addConflict (c : Chronicle) (values : Variable → Option Bool) (v : Variable)
    {a b : Int} (hb : b ≤ c.now) : (c.addConflict values).seen v a b = c.seen v a b := by
  have h : b.toNat ≤ c.conflicts.length := by unfold now at hb; omega
  simp [seen, addConflict, List.take_append_of_le_length h]

/-- The values at all conflicts since `a`, after one more conflict. -/
theorem seen_addConflict_now (c : Chronicle) (values : Variable → Option Bool) (v : Variable)
    {a : Int} (ha : a ≤ c.now) :
    (c.addConflict values).seen v a (c.addConflict values).now =
      c.seen v a c.now ++ [values v] := by
  have h : a.toNat ≤ c.conflicts.length := by unfold now at ha; omega
  rw [seen_now, seen_now]
  simp [addConflict, List.drop_append_of_le_length h]

end Chronicle

/-! ## One record -/

/-- The record of a variable is what the conflicts up to its last synchronization give, and at the
conflicts since then the variable had its present value. -/
structure Follows (c : Chronicle) (rate : Rat) (v : Variable) (born : Int) (value : Option Bool)
    (r : PolarityRecord Rat) : Prop where
  born_nonneg : 0 ≤ born
  born_le : born ≤ r.lastTick
  lastTick_le : r.lastTick ≤ c.now
  whenTrue_eq : r.whenTrue =
    .ofObservations rate ((c.seen v born r.lastTick).map (Chronicle.indicator true))
  whenFalse_eq : r.whenFalse =
    .ofObservations rate ((c.seen v born r.lastTick).map (Chronicle.indicator false))
  idle : ∀ x ∈ c.seen v r.lastTick c.now, x = value

namespace Follows

variable {c : Chronicle} {rate : Rat} {v : Variable} {born : Int} {value : Option Bool}
  {r : PolarityRecord Rat}

/-- A new record follows no conflict. -/
theorem fresh (c : Chronicle) (rate : Rat) (v : Variable) (value : Option Bool) :
    Follows c rate v c.now value (.fresh rate c.now) := by
  have hlast : (PolarityRecord.fresh rate c.now).lastTick = c.now := rfl
  refine ⟨Int.natCast_nonneg _, hlast.ge, hlast.le, ?_, ?_, ?_⟩
  · rw [hlast, Chronicle.seen_self]
    rfl
  · rw [hlast, Chronicle.seen_self]
    rfl
  · rw [hlast, Chronicle.seen_self]
    intro x hx
    cases hx

/-- The conflicts since the last synchronization all show the present value. -/
theorem seen_eq_replicate (h : Follows c rate v born value r) :
    c.seen v r.lastTick c.now = List.replicate (c.now - r.lastTick).toNat value := by
  refine List.eq_replicate_iff.mpr ⟨?_, h.idle⟩
  have h₀ := h.born_nonneg
  have h₁ := h.born_le
  rw [Chronicle.length_seen_now, Chronicle.now]
  omega

/-- Catching one average up appends the conflicts since the last synchronization. -/
theorem advance_eq (h : Follows c rate v born value r) (positive : Bool) :
    (MovingAverage.ofObservations rate
        ((c.seen v born r.lastTick).map (Chronicle.indicator positive))).advance
      (Chronicle.indicator positive value) (c.now - r.lastTick)
      (Scalar.retained rate (c.now - r.lastTick)) =
    .ofObservations rate ((c.seen v born c.now).map (Chronicle.indicator positive)) := by
  -- These conflicts show one value, so that one step covers them.
  obtain ⟨n, hn⟩ := Int.eq_ofNat_of_zero_le (Int.sub_nonneg.mpr h.lastTick_le)
  rw [← c.seen_append v h.born_le h.lastTick_le, h.seen_eq_replicate, hn, List.map_append,
    List.map_replicate]
  exact MovingAverage.advance_ofObservations ..

/-- A record that is caught up follows all conflicts, whatever value the variable takes next. -/
theorem caughtUp (h : Follows c rate v born value r) (value' : Option Bool) :
    Follows c rate v born value' (r.caughtUp rate c.now value) := by
  have hlast := r.lastTick_caughtUp rate c.now value
  refine ⟨h.born_nonneg, ?_, ?_, ?_, ?_, ?_⟩
  · rw [hlast]
    exact h.born_le.trans h.lastTick_le
  · exact hlast.le
  · rw [hlast, ← h.advance_eq true, ← h.whenTrue_eq]
    cases value with
    | none => rfl
    | some b => cases b <;> rfl
  · rw [hlast, ← h.advance_eq false, ← h.whenFalse_eq]
    cases value with
    | none => rfl
    | some b => cases b <;> rfl
  · rw [hlast, Chronicle.seen_self]
    exact fun x hx => (List.not_mem_nil hx).elim

/-- A conflict shows the present value once more. -/
theorem addConflict (h : Follows c rate v born value r) {values : Variable → Option Bool}
    (hv : values v = value) : Follows (c.addConflict values) rate v born value r where
  born_nonneg := h.born_nonneg
  born_le := h.born_le
  lastTick_le := by
    have hle := h.lastTick_le
    simp only [Chronicle.now, Chronicle.addConflict, List.length_append] at *
    omega
  whenTrue_eq := by rw [c.seen_addConflict values v h.lastTick_le, ← h.whenTrue_eq]
  whenFalse_eq := by rw [c.seen_addConflict values v h.lastTick_le, ← h.whenFalse_eq]
  idle x hx := by
    rw [c.seen_addConflict_now values v h.lastTick_le, hv] at hx
    rcases List.mem_append.mp hx with hx | hx
    · exact h.idle x hx
    · exact List.mem_singleton.mp hx

/-- Registrations are no conflicts. -/
theorem setBirths (h : Follows c rate v born value r) (births : PerVariable Int) :
    Follows { c with births := births } rate v born value r :=
  ⟨h.born_nonneg, h.born_le, h.lastTick_le, h.whenTrue_eq, h.whenFalse_eq, h.idle⟩

end Follows

/-! ## All records -/

/-- Every record of the worker follows the chronicle. -/
structure Tracks (rate : Rat) (c : Chronicle) (w : Worker Rat R) : Prop where
  tick_eq : w.tick = c.now
  records_size : w.stability.records.size = w.size
  births_size : c.births.size = w.size
  size_le : w.size ≤ Variable.maxCount
  rate_eq : w.stability.rate = rate
  cacheValid : w.stability.CacheValid
  follows : ∀ v r born, w.stability.records.get? v = some r → c.births.get? v = some born →
    Follows c rate v born (w.core.assignment.value v) r

namespace Tracks

variable {rate : Rat} {c : Chronicle} {w w' : Worker Rat R}

theorem start {settings : Settings Rat} (h : Worker.create settings = .ok w) :
    Tracks settings.stabilityRate .empty w := by
  obtain ⟨-, rfl⟩ := Worker.create_eq_ok_iff.mp h
  refine ⟨rfl, rfl, rfl, Nat.zero_le _, rfl, Stability.cacheValid_empty _, fun v r born hr => ?_⟩
  have hlt := PerVariable.has_iff.mp (PerVariable.has_of_get? hr)
  exact absurd hlt (Nat.not_lt_zero _)

theorem credits (h : Tracks rate c w) {vs : List Variable} (hw : Worker.Credits w w' vs) :
    Tracks rate c w' where
  tick_eq := hw.tick_eq.trans h.tick_eq
  records_size := hw.catchesUp.size_eq.trans (h.records_size.trans hw.size_eq.symm)
  births_size := h.births_size.trans hw.size_eq.symm
  size_le := hw.size_eq ▸ h.size_le
  rate_eq := hw.catchesUp.rate_eq.trans h.rate_eq
  cacheValid := hw.catchesUp.cacheValid
  follows v r' born hr' hborn := by
    rw [hw.catchesUp.get?_eq] at hr'
    split at hr'
    · obtain ⟨r, hr, rfl⟩ := Option.map_eq_some_iff.mp hr'
      rw [h.rate_eq, h.tick_eq]
      exact (h.follows v r born hr hborn).caughtUp _
    · next hv =>
      -- A record that is left behind belongs to a variable that keeps its value.
      rw [hw.value_eq v (PerVariable.has_of_get? hr') hv]
      exact h.follows v r' born hr' hborn

theorem counts (h : Tracks rate c w) :
    Tracks rate (c.addConflict w.core.assignment.value) { w with tick := w.tick + 1 } where
  tick_eq := by
    rw [h.tick_eq]
    simp [Chronicle.now, Chronicle.addConflict]
  records_size := h.records_size
  births_size := h.births_size
  size_le := h.size_le
  rate_eq := h.rate_eq
  cacheValid := h.cacheValid
  follows v r born hr hborn := (h.follows v r born hr hborn).addConflict rfl

theorem registers (h : Tracks rate c w) {n : Nat} {samples : TrailSamples Rat}
    (hfits : w.size + n ≤ Variable.maxCount) :
    Tracks rate { c with births := c.births.extend n w.tick }
      { w with
        core := w.core.register n
        stability := { w.stability with
          records := w.stability.records.extend n (.fresh w.stability.rate w.tick) }
        samples := samples } := by
  have hsize : (w.core.register n).size = w.size + n := PerVariable.size_extend ..
  refine ⟨h.tick_eq, ?_, ?_, ?_, h.rate_eq, h.cacheValid, fun v r born hr hborn => ?_⟩
  · exact (PerVariable.size_extend ..).trans ((congrArg (· + n) h.records_size).trans hsize.symm)
  · exact (PerVariable.size_extend ..).trans ((congrArg (· + n) h.births_size).trans hsize.symm)
  · exact hsize.trans_le hfits
  · dsimp only at hr hborn ⊢
    rw [Core.register, Assignment.value_register]
    rw [PerVariable.get?_extend, h.records_size] at hr
    rw [PerVariable.get?_extend, h.births_size] at hborn
    -- The tables have the same size, so a record and its birth are both old or both new.
    split at hr
    · next hold =>
      rw [if_pos hold] at hborn
      exact (h.follows v r born hr hborn).setBirths _
    · next hnew =>
      rw [if_neg hnew] at hborn
      split at hr
      · next hlt =>
        rw [if_pos hlt] at hborn
        cases hr
        cases hborn
        rw [h.tick_eq, h.rate_eq]
        exact (Follows.fresh c rate v _).setBirths _
      · cases hr

variable [Recorder R Rat]

/-- What is noted of an operation that only credits. -/
theorem note (h : Tracks rate c w) {op : Operation R} (timeless : op.isConflict = false)
    (hw' : (w.step op).1 = w') {vs : List Variable} (hcredits : Worker.Credits w w' vs) :
    Tracks rate (c.note w op) w' := by
  rw [Chronicle.note_of_timeless timeless, hw', hcredits.size_eq, Nat.sub_self,
    PerVariable.extend_zero]
  exact h.credits hcredits

/-- Every operation keeps the records in step with the chronicle. -/
theorem step (h : Tracks rate c w) {op : Operation R} (hop : (w.step op).2.isBreach = false) :
    Tracks rate (c.note w op) (w.step op).1 := by
  have hc := h.cacheValid
  have hrecords : w.stability.records.size ≤ Variable.maxCount := h.records_size ▸ h.size_le
  have heffect := Worker.effect_step hop
  generalize hw' : (w.step op).1 = w' at heffect ⊢
  rcases heffect.timing hc hrecords with
    ⟨timeless, vs, hcredits⟩ | ⟨rfl, -, rfl⟩ | ⟨n, samples, rfl, hfits, rfl⟩
  · exact h.note timeless hw' hcredits
  · exact h.counts
  · have hsize : (w.core.register n).size = w.size + n := PerVariable.size_extend ..
    have timeless : (Operation.addVariables n : Operation R).isConflict = false := rfl
    rw [Chronicle.note_of_timeless timeless, hw', Worker.size, hsize, Nat.add_sub_cancel_left]
    exact h.registers hfits

theorem run (h : Tracks rate c w) {ops : List (Operation R)} (hops : w.Completes ops) :
    Tracks rate (w.chronicle c ops) (w.after ops) := by
  induction ops generalizing w c with
  | nil => exact h
  | cons op ops ih =>
    obtain ⟨hop, hrest⟩ := Worker.completes_cons.mp hops
    rw [Worker.after_cons hops]
    exact ih (h.step hop) hrest

end Tracks

/-! ## Main statement -/

/-- The operation catches up all records of the worker it is performed on. A pass above the root is
refused and does nothing. -/
def Operation.CatchesAllUp (w : Worker K R) : Operation R → Prop
  | .catchUpAll => True
  | .runPass _ => w.level = 0
  | _ => False

namespace Worker

omit [Recorder R K] in
theorem lastTick_of_catchUpAll {w w' : Worker K R} (hc : w.stability.CacheValid)
    (hsize : w.stability.records.size ≤ Variable.maxCount) (h : w.catchUpAll = .ok w')
    {v : Variable} {r : PolarityRecord K} (hr : w'.stability.records.get? v = some r) :
    r.lastTick = w'.tick := by
  obtain ⟨s, hs, h⟩ := bind_eq_ok_iff.mp h
  cases h
  rw [Stability.get?_of_catchUpAll hc hsize hs] at hr
  obtain ⟨r₀, -, rfl⟩ := Option.map_eq_some_iff.mp hr
  exact r₀.lastTick_caughtUp ..

/-- No record is behind after an operation that catches all of them up, not even that of a variable
that a pass has assigned since. -/
theorem lastTick_of_catchesAllUp {w : Worker K R} {op : Operation R} (hc : w.stability.CacheValid)
    (hsize : w.stability.records.size ≤ Variable.maxCount) (hop : op.CatchesAllUp w)
    (hbreach : (w.step op).2.isBreach = false) {v : Variable} {r : PolarityRecord K}
    (hr : (w.step op).1.stability.records.get? v = some r) : r.lastTick = (w.step op).1.tick := by
  cases op with
  | catchUpAll =>
    rcases h : w.catchUpAll with b | w'
    · simp [step, change, h, Answer.isBreach] at hbreach
    · simp only [step, change, h] at hr ⊢
      exact lastTick_of_catchUpAll hc hsize h hr
  | runPass batch =>
    rcases h : w.catchUpAll with b | w'
    · simp [step, runPass_of_error hop h, Answer.isBreach] at hbreach
    · rw [step_runPass_fst, runPass_fst hop h] at hr ⊢
      exact lastTick_of_catchUpAll hc hsize h hr
  | _ => exact hop.elim

/-- After every run without breach of a worker with checked settings, the records are those of eager
tracking. Ticks count conflicts. For every registered variable, the averages of its record are fresh
ones fed one observation for each conflict from its registration up to the last synchronization of
the record, one if the variable had the polarity of the average then and zero otherwise; at each
conflict since then the variable had its present value. Right after a synchronization of all
records, and after a pass with all the units that it assigned, no record is behind. -/
theorem records_follow_conflicts [Recorder R Rat] {settings : Settings Rat} {w₀ : Worker Rat R}
    (h₀ : create settings = .ok w₀) {ops : List (Operation R)} (hops : w₀.Completes ops) :
    (w₀.after ops).tick = (w₀.chronicle .empty ops).now ∧
    (∀ v, (w₀.after ops).core.registered v = true →
      ∃ born r, (w₀.chronicle .empty ops).births.get? v = some born ∧
        (w₀.after ops).stability.records.get? v = some r ∧
        born ≤ r.lastTick ∧ r.lastTick ≤ (w₀.after ops).tick ∧
        r.whenTrue = .ofObservations settings.stabilityRate
          (((w₀.chronicle .empty ops).seen v born r.lastTick).map (Chronicle.indicator true)) ∧
        r.whenFalse = .ofObservations settings.stabilityRate
          (((w₀.chronicle .empty ops).seen v born r.lastTick).map (Chronicle.indicator false)) ∧
        ∀ value ∈ (w₀.chronicle .empty ops).seen v r.lastTick (w₀.after ops).tick,
          value = (w₀.after ops).core.assignment.value v) ∧
    (∀ before op, ops = before ++ [op] → op.CatchesAllUp (w₀.after before) →
      ∀ v r, (w₀.after ops).stability.records.get? v = some r →
        r.lastTick = (w₀.after ops).tick) := by
  have htracks := (Tracks.start h₀).run hops
  refine ⟨htracks.tick_eq, ?_, ?_⟩
  · intro v hv
    have hlt : v.index < (w₀.after ops).size := PerVariable.has_iff.mp hv
    obtain ⟨born, hborn⟩ :=
      PerVariable.exists_get? (PerVariable.has_iff.mpr (htracks.births_size ▸ hlt))
    obtain ⟨r, hr⟩ :=
      PerVariable.exists_get? (PerVariable.has_iff.mpr (htracks.records_size ▸ hlt))
    have h := htracks.follows v r born hr hborn
    rw [htracks.tick_eq]
    exact ⟨born, r, hborn, hr, h.born_le, h.lastTick_le, h.whenTrue_eq, h.whenFalse_eq, h.idle⟩
  · intro before op hsplit hall v r hr
    subst hsplit
    -- The records are tracked before the last operation too, with the cache and size that it needs.
    obtain ⟨hbefore, hop, hafter⟩ := completes_append hops
    have hmoment := (Tracks.start h₀).run hbefore
    rw [hafter, after_cons hop] at hr ⊢
    exact lastTick_of_catchesAllUp hmoment.cacheValid (hmoment.records_size ▸ hmoment.size_le) hall
      (completes_cons.mp hop).1 hr

/-- A variable that is assigned between the first and the second of three conflicts. -/
def lateAssignment : List Operation :=
  [.addVariables 1, .conflict, .assign (.ofVariable .first true), .conflict, .conflict,
    .catchUpAll]

theorem records_follow_conflicts_lateAssignment :
    create (.standard : Settings Rat) = .ok (blank .standard : Worker Rat) ∧
    (blank .standard : Worker Rat).Completes lateAssignment ∧
    ∃ r, ((blank .standard : Worker Rat).after lateAssignment).stability.records.get?
        ⟨0, by decide⟩ = some r ∧
      r.lastTick = 3 ∧ r.whenTrue = .ofObservations (1 / 1000) [0, 1, 1] := by
  have hcreate : create (.standard : Settings Rat) = .ok (blank .standard : Worker Rat) :=
    create_eq_ok_iff.mpr ⟨Settings.validate_standard, rfl⟩
  have hruns : (blank .standard : Worker Rat).Completes lateAssignment := by
    unfold Completes
    decide +kernel
  obtain ⟨-, hrecords, hsync⟩ := records_follow_conflicts hcreate hruns
  obtain ⟨born, r, hborn, hr, -, -, htrue, -, -⟩ :=
    hrecords ⟨0, by decide⟩ (by decide +kernel)
  have hlast : r.lastTick = 3 :=
    (hsync (lateAssignment.take 5) .catchUpAll rfl trivial _ r hr).trans (by decide +kernel)
  have hzero : born = 0 := Option.some.inj (hborn.symm.trans (by decide +kernel))
  refine ⟨hcreate, hruns, r, hr, hlast, ?_⟩
  rw [htrue, hlast, hzero]
  congr 1
  decide +kernel

end Worker

end ClauseSharing
