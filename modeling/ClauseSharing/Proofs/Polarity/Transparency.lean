import ClauseSharing.Proofs.Polarity.Calls
import ClauseSharing.Scalar.Rational

/-!
The cache of decay factors is invisible.

The estimates are given once more, without a cache: catching a record up then has each of its two
averages work its decay factor out (`Uncached.catchUp`). For every type of scalars and all calls,
both ways give the same records and the same breaches (`Stability.Uniform.map_performAll`). So the
records do not depend on which factors were asked for before, and neither on the order in which
records are caught up to one tick, nor on repetitions (`Stability.records_eq_of_catchUpEach`).

Main statement: `Stability.cache_is_invisible`.
-/

namespace ClauseSharing

open Scalar

variable {K : Type} [Scalar K]

/-- A fold that can be followed on what `g` shows of the states. -/
theorem map_foldlM_of_step {ε α σ τ : Type} {step : σ → α → Except ε σ} {step' : τ → α → Except ε τ}
    {g : σ → τ} {Inv : σ → Prop} (hstep : ∀ s a, Inv s → (step s a).map g = step' (g s) a)
    (hinv : ∀ s a s', Inv s → step s a = .ok s' → Inv s') {s : σ} (hs : Inv s) (as : List α) :
    (as.foldlM step s).map g = as.foldlM step' (g s) := by
  induction as generalizing s with
  | nil => rfl
  | cons a as ih =>
    rw [List.foldlM_cons, List.foldlM_cons, ← hstep s a hs]
    cases hhead : step s a with
    | error e => rfl
    | ok s₁ => exact ih (hinv s a s₁ hs hhead)

/-! ## Without a cache -/

/-- Catches the record up by `steps` ticks, where each average works its decay factor out. -/
def PolarityRecord.observeMany (r : PolarityRecord K) (value : Option Bool) (steps : Int) :
    PolarityRecord K where
  whenTrue := r.whenTrue.observeMany (observations value).1 steps
  whenFalse := r.whenFalse.observeMany (observations value).2 steps
  lastTick := r.lastTick + steps

/-- It is the same to give both averages the decay factor of their rate. -/
theorem PolarityRecord.observeMany_eq_advance {r : PolarityRecord K} {rate : K}
    (htrue : r.whenTrue.rate = rate) (hfalse : r.whenFalse.rate = rate) (value : Option Bool)
    (steps : Int) : r.observeMany value steps = r.advance value steps (retained rate steps) := by
  simp only [observeMany, advance, MovingAverage.observeMany_eq_advance, MovingAverage.decay, htrue,
    hfalse]

theorem PolarityRecord.observeMany_zero (r : PolarityRecord K) (value : Option Bool) :
    r.observeMany value 0 = r := by
  simp [observeMany, MovingAverage.observeMany_eq_advance]

namespace Uncached

/-- The records of all variables, without a cache beside them. -/
abbrev Records (K : Type) := PerVariable (PolarityRecord K)

def register (rate : K) (t : Records K) (n : Nat) (tick : Int) : Except Breach (Records K) :=
  if n = 0 ∨ isDecayRate rate then .ok (t.extend n (.fresh rate tick)) else .error .precondition

def catchUp (t : Records K) (v : Variable) (tick : Int) (value : Option Bool) :
    Except Breach (Records K) := do
  let record ← t.fetch v
  let steps ← inWord64 (tick - record.lastTick)
  if steps < 0 then throw (.backdated v.number)
  return t.set v (record.observeMany value steps)

def catchUpEach (t : Records K) (vs : List Variable) (tick : Int)
    (values : Variable → Option Bool) : Except Breach (Records K) :=
  vs.foldlM (fun t v => catchUp t v tick (values v)) t

def perform (rate : K) (t : Records K) : Stability.Call → Except Breach (Records K)
  | .register n tick => register rate t n tick
  | .catchUp v tick values => catchUp t v tick (values v)
  | .catchUpAll tick values =>
    catchUpEach t ((List.range t.size).filterMap Variable.ofIndex?) tick values

def performAll (rate : K) (t : Records K) (calls : List Stability.Call) :
    Except Breach (Records K) :=
  calls.foldlM (perform rate) t

end Uncached

namespace Stability

/-! ## With and without -/

/-- All averages have the rate in use, and the cache holds a decay factor of it. -/
def Uniform (s : Stability K) (rate : K) : Prop :=
  s.Keeps rate fun r => r.whenTrue.rate = rate ∧ r.whenFalse.rate = rate

/-- Averages keep their rate. -/
theorem rates_caughtUp {rate : K} (r : PolarityRecord K) (tick : Int) (value : Option Bool)
    (h : r.whenTrue.rate = rate ∧ r.whenFalse.rate = rate) :
    (r.caughtUp rate tick value).whenTrue.rate = rate ∧
      (r.caughtUp rate tick value).whenFalse.rate = rate :=
  ⟨(MovingAverage.rate_advance ..).trans h.1, (MovingAverage.rate_advance ..).trans h.2⟩

namespace Uniform

variable {s s' : Stability K} {rate : K}

theorem empty (rate : K) : (empty rate).Uniform rate := Keeps.empty rate _

theorem catchesUp (h : s.Uniform rate) {vs : List Variable} {tick : Int}
    {values : Variable → Option Bool} (hs : CatchesUp s s' vs tick values) : s'.Uniform rate :=
  Keeps.catchesUp h (fun r => rates_caughtUp r tick) hs

theorem perform (h : s.Uniform rate) {call : Call} (hs : s.perform call = .ok s') :
    s'.Uniform rate :=
  Keeps.perform (fun _ => ⟨rfl, rfl⟩) rates_caughtUp h hs

theorem performAll (h : s.Uniform rate) {calls : List Call} (hs : s.performAll calls = .ok s') :
    s'.Uniform rate :=
  Keeps.performAll (fun _ => ⟨rfl, rfl⟩) rates_caughtUp h hs

/-- The record gets the factor of its own gap, whether the cache had it or not. -/
theorem map_catchUp (h : s.Uniform rate) (v : Variable) (tick : Int) (value : Option Bool) :
    (s.catchUp v tick value).map (·.records) = Uncached.catchUp s.records v tick value := by
  unfold catchUp Uncached.catchUp
  cases hr : s.records.fetch v with
  | error b => rfl
  | ok r =>
    have hget := PerVariable.fetch_eq_ok_iff.mp hr
    cases hsteps : inWord64 (tick - r.lastTick) with
    | error b =>
      simp only [bind, Except.bind, hsteps]
      rfl
    | ok steps =>
      obtain ⟨htrue, hfalse⟩ := h.record v r hget
      have hfactor := (factor_demand h.cacheValid steps).1
      rw [h.rate_eq] at hfactor
      simp only [bind, Except.bind, hsteps]
      split
      · rfl
      split
      · next hzero =>
        -- Without a cache, a record at the present tick is written back as it is.
        rw [hzero, PolarityRecord.observeMany_zero, PerVariable.set_get? hget]
        rfl
      · rw [PolarityRecord.observeMany_eq_advance htrue hfalse, h.rate_eq, ← hfactor]
        rfl

theorem map_catchUpEach (h : s.Uniform rate) (vs : List Variable) (tick : Int)
    (values : Variable → Option Bool) :
    (s.catchUpEach vs tick values).map (·.records) =
      Uncached.catchUpEach s.records vs tick values := by
  have hkept (s : Stability K) (v : Variable) (s' : Stability K) (hs : s.Uniform rate)
      (hv : s.catchUp v tick (values v) = .ok s') : s'.Uniform rate :=
    hs.catchesUp (catchesUp_of_catchUp hs.cacheValid hv)
  exact map_foldlM_of_step (fun s v hs => hs.map_catchUp v tick (values v)) hkept h vs

theorem map_perform (h : s.Uniform rate) (call : Call) :
    (s.perform call).map (·.records) = Uncached.perform rate s.records call := by
  cases call with
  | register n tick =>
    simp only [Stability.perform, Stability.register, Uncached.perform, Uncached.register,
      h.rate_eq]
    split <;> rfl
  | catchUp v tick values => exact h.map_catchUp v tick (values v)
  | catchUpAll tick values => exact h.map_catchUpEach _ tick values

theorem map_performAll (h : s.Uniform rate) (calls : List Call) :
    (s.performAll calls).map (·.records) = Uncached.performAll rate s.records calls := by
  have hkept (s : Stability K) (call : Call) (s' : Stability K) (hs : s.Uniform rate)
      (hcall : s.perform call = .ok s') : s'.Uniform rate := hs.perform hcall
  exact map_foldlM_of_step (fun s call hs => hs.map_perform call) hkept h calls

end Uniform

/-! ## Orders and repetitions -/

section Orders

variable {s s₁ s₂ : Stability K} {vs vs' : List Variable} {tick : Int}
  {values : Variable → Option Bool}

/-- Slots that belong to no variable are left alone. -/
theorem slots_of_catchUpEach (h : s.catchUpEach vs tick values = .ok s₁) {i : Nat}
    (hi : 0x80000000 ≤ i) : s₁.records.slots[i]? = s.records.slots[i]? := by
  induction vs generalizing s with
  | nil =>
    cases h
    rfl
  | cons v vs ih =>
    obtain ⟨s', hhead, htail⟩ := bind_eq_ok_iff.mp h
    rw [ih htail]
    unfold catchUp at hhead
    simp only [bind_eq_ok_iff] at hhead
    obtain ⟨r, -, steps, -, hhead⟩ := hhead
    split at hhead
    · cases hhead
    split at hhead <;> cases hhead
    · rfl
    · exact Array.getElem?_setIfInBounds_ne (Nat.ne_of_lt (Nat.lt_of_lt_of_le v.index_lt hi))

/-- Which variables are caught up to a tick decides the records, and not in which order or how
often. -/
theorem records_eq_of_catchUpEach (hc : s.CacheValid) (hsame : ∀ v, v ∈ vs ↔ v ∈ vs')
    (h₁ : s.catchUpEach vs tick values = .ok s₁) (h₂ : s.catchUpEach vs' tick values = .ok s₂) :
    s₁.records = s₂.records := by
  refine PerVariable.ext_get? (fun v => ?_) fun i hi => ?_
  · rw [(catchesUp_of_catchUpEach hc h₁).get?_eq, (catchesUp_of_catchUpEach hc h₂).get?_eq]
    simp only [hsame]
  · rw [slots_of_catchUpEach h₁ hi, slots_of_catchUpEach h₂ hi]

end Orders

/-! ## Main statement -/

/-- For every type of scalars and every decay rate, whatever is called: the records, or the breach
that ends the calls, are the same as without a cache. In every state that is reached, the cache
holds the decay factor of the steps that it names, and a further call that asks no record to go back
answers. If variables can be caught up to a tick, this answers in every order and with every
repetition, and the records are the same, then and after any later calls. -/
theorem cache_is_invisible {rate : K} (hrate : isDecayRate rate = true) (calls : List Call) :
    ((empty rate).performAll calls).map (·.records) = Uncached.performAll rate .empty calls ∧
    ∀ s, (empty rate).performAll calls = .ok s →
      s.cache.factor = retained rate s.cache.steps ∧
      (∀ call, s.Onward call → ∃ s', s.perform call = .ok s') ∧
      ∀ vs vs' tick values, (∀ v, v ∈ vs ↔ v ∈ vs') →
        (∀ v ∈ vs, ∃ r, s.records.get? v = some r ∧ Reaches r tick) →
        ∃ s₁ s₂, s.catchUpEach vs tick values = .ok s₁ ∧
          s.catchUpEach vs' tick values = .ok s₂ ∧ s₁.records = s₂.records ∧
          ∀ later, (s₁.performAll later).map (·.records) =
            (s₂.performAll later).map (·.records) := by
  refine ⟨(Uniform.empty rate).map_performAll calls, fun s hs => ?_⟩
  have huniform := (Uniform.empty rate).performAll hs
  have hrate' : isDecayRate s.rate = true := huniform.rate_eq ▸ hrate
  refine ⟨huniform.rate_eq ▸ huniform.cacheValid,
    fun call => exists_perform hrate' huniform.cacheValid, fun vs vs' tick values hsame hvs => ?_⟩
  obtain ⟨s₁, h₁⟩ := exists_catchUpEach huniform.cacheValid hvs values
  obtain ⟨s₂, h₂⟩ := exists_catchUpEach huniform.cacheValid
    (fun v hv => hvs v ((hsame v).mpr hv)) values
  have hrecords := records_eq_of_catchUpEach huniform.cacheValid hsame h₁ h₂
  refine ⟨s₁, s₂, h₁, h₂, hrecords, fun later => ?_⟩
  have huniform₁ := huniform.catchesUp (catchesUp_of_catchUpEach huniform.cacheValid h₁)
  have huniform₂ := huniform.catchesUp (catchesUp_of_catchUpEach huniform.cacheValid h₂)
  rw [huniform₁.map_performAll, huniform₂.map_performAll, hrecords]

/-- The variable that is registered first. -/
def early : Variable := (⟨0⟩ : Literal).var

/-- The variable that is registered next. -/
def late : Variable := (⟨2⟩ : Literal).var

/-- Gaps of three and of five ticks, in turns, so that each variable overwrites the decay factor
that another one has used. -/
def alternatingGaps : List Call :=
  [.register 2 0, .catchUp early 3 fun _ => some true, .catchUp late 5 fun _ => none,
    .register 1 5, .catchUpAll 8 fun _ => some false]

theorem cache_is_invisible_alternatingGaps :
    isDecayRate (1 / 3 : Rat) = true ∧
    ∃ s : Stability Rat, (empty (1 / 3)).performAll alternatingGaps = .ok s ∧
      Uncached.performAll (1 / 3) .empty alternatingGaps = .ok s.records ∧
      s.cache = ⟨3, 8 / 27⟩ ∧
      ∃ s₁ s₂, s.catchUpEach [early, late, early] 10 (fun _ => none) = .ok s₁ ∧
        s.catchUpEach [late, early] 10 (fun _ => none) = .ok s₂ ∧ s₁.records = s₂.records := by
  have hrate : isDecayRate (1 / 3 : Rat) = true := by decide +kernel
  obtain ⟨hrecords, hstate⟩ := cache_is_invisible hrate alternatingGaps
  have hseen : ((empty (1 / 3 : Rat)).performAll alternatingGaps).toOption.map (fun s =>
      (s.cache, (s.records.get? early).map (·.lastTick), (s.records.get? late).map (·.lastTick)))
        = some (⟨3, 8 / 27⟩, some 8, some 8) := by
    decide +kernel
  cases hrun : (empty (1 / 3 : Rat)).performAll alternatingGaps with
  | error b =>
    rw [hrun] at hseen
    cases hseen
  | ok s =>
    rw [hrun] at hseen hrecords
    obtain ⟨hcache, hticks⟩ := Prod.mk.inj (Option.some.inj hseen)
    obtain ⟨hearly, hlate⟩ := Prod.mk.inj hticks
    obtain ⟨-, -, horders⟩ := hstate s hrun
    have hreaches {v : Variable} (hv : (s.records.get? v).map (·.lastTick) = some 8) :
        ∃ r, s.records.get? v = some r ∧ Reaches r 10 := by
      obtain ⟨r, hr, hlast⟩ := Option.map_eq_some_iff.mp hv
      exact ⟨r, hr, by simp [Reaches, hlast]⟩
    have hvs : ∀ v ∈ [early, late, early], ∃ r, s.records.get? v = some r ∧ Reaches r 10 := by
      simp only [List.forall_mem_cons]
      exact ⟨hreaches hearly, hreaches hlate, hreaches hearly, fun _ h => absurd h List.not_mem_nil⟩
    have hmembers (v : Variable) : v ∈ [early, late, early] ↔ v ∈ [late, early] := by grind
    obtain ⟨s₁, s₂, h₁, h₂, hsame, -⟩ := horders _ _ 10 (fun _ => none) hmembers hvs
    exact ⟨hrate, s, rfl, hrecords.symm, hcache, s₁, s₂, h₁, h₂, hsame⟩

end Stability

end ClauseSharing
