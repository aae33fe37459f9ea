import ClauseSharing.Worker.Operation

/-!
Runs of a worker that meet no breach, and the workers that they reach.

`Worker.after_induction` carries a property from the start of a run to its end, step by step. The
lemmas on `settle`, `finish` and `change` reduce a step to the operation behind it: a step that
answers with a breach leaves the worker alone.
-/

namespace ClauseSharing

/-! ## The variables of small runs -/

/-- The first variable that a worker registers. -/
def Variable.first : Variable := ⟨0, by decide⟩

/-- The second variable that a worker registers. -/
def Variable.second : Variable := ⟨1, by decide⟩

/-- The third variable that a worker registers. -/
def Variable.third : Variable := ⟨2, by decide⟩

/-- The fourth variable that a worker registers. -/
def Variable.fourth : Variable := ⟨3, by decide⟩

variable {K R : Type}

/-- Whether the answer is a breach. -/
def Answer.isBreach : Answer K → Bool
  | .breach _ => true
  | _ => false

namespace Worker

/-! ## Single steps -/

theorem settle_fst {α : Type} {P : Worker K R → Prop} {w : Worker K R} {answer : α → Answer K}
    {x : Except Breach (Worker K R × Except Refusal α)} (hw : P w)
    (h : ∀ w' r, x = .ok (w', r) → P w') : P (w.settle answer x).1 := by
  unfold settle
  split
  · exact hw
  · next w' r => exact h w' (.error r) rfl
  · next w' a => exact h w' (.ok a) rfl

theorem finish_fst {α : Type} {P : Worker K R → Prop} {w : Worker K R} {answer : α → Answer K}
    {x : Except Breach (Worker K R × α)} (hw : P w) (h : ∀ w' a, x = .ok (w', a) → P w') :
    P (w.finish answer x).1 := by
  unfold finish
  split
  · exact hw
  · next w' a => exact h w' a rfl

theorem change_fst {P : Worker K R → Prop} {w : Worker K R} {x : Except Breach (Worker K R)}
    (hw : P w) (h : ∀ w', x = .ok w' → P w') : P (w.change x).1 := by
  unfold change
  split
  · exact hw
  · next w' => exact h w' rfl

theorem settle_answer_ne {α : Type} {w : Worker K R} {answer : α → Answer K} {t : Answer K}
    {x : Except Breach (Worker K R × Except Refusal α)} (hbreach : ∀ b, .breach b ≠ t)
    (hrefused : ∀ r, .refused r ≠ t) (h : ∀ a, answer a ≠ t) : (w.settle answer x).2 ≠ t := by
  unfold settle
  split
  · exact hbreach _
  · exact hrefused _
  · exact h _

theorem finish_answer_ne {α : Type} {w : Worker K R} {answer : α → Answer K} {t : Answer K}
    {x : Except Breach (Worker K R × α)} (hbreach : ∀ b, .breach b ≠ t) (h : ∀ a, answer a ≠ t) :
    (w.finish answer x).2 ≠ t := by
  unfold finish
  split
  · exact hbreach _
  · exact h _

theorem change_answer_ne {w : Worker K R} {t : Answer K} {x : Except Breach (Worker K R)}
    (hbreach : ∀ b, .breach b ≠ t) (hdone : .done ≠ t) : (w.change x).2 ≠ t := by
  unfold change
  split
  · exact hbreach _
  · exact hdone

variable [Scalar K]

theorem runPass_of_error {w : Worker K R} {b : Breach} (hroot : w.level = 0)
    (h : w.catchUpAll = .error b) (batch : List (List Int32)) :
    w.runPass batch = (w, .error (.breach b)) := by
  simp [runPass, hroot, h]

/-- A pass at the root catches all records up and then runs the selector. -/
theorem runPass_fst {w w₁ : Worker K R} (hroot : w.level = 0) (h : w.catchUpAll = .ok w₁)
    (batch : List (List Int32)) :
    (w.runPass batch).1 = { w₁ with
      core := (w₁.selector.run w₁.stability.probabilities w₁.core batch).1 } := by
  simp [runPass, hroot, h]

variable [Recorder R K]

theorem step_runPass_fst (w : Worker K R) (batch : List (List Int32)) :
    (w.step (.runPass batch)).1 = (w.runPass batch).1 := by
  simp only [step]
  split <;> next h => rw [h]

/-! ## Runs -/

/-- The worker that a run leaves behind. -/
def after (w : Worker K R) (ops : List (Operation R)) : Worker K R := (w.run ops).1

/-- No operation of the run is a breach. -/
def Completes (w : Worker K R) (ops : List (Operation R)) : Prop :=
  ∀ answer ∈ (w.run ops).2, answer.isBreach = false

instance decidableCompletes (w : Worker K R) (ops : List (Operation R)) :
    Decidable (w.Completes ops) :=
  inferInstanceAs (Decidable (∀ answer ∈ (w.run ops).2, answer.isBreach = false))

theorem run_cons_of_breach {w : Worker K R} {op : Operation R} (h : (w.step op).2.isBreach = true)
    (ops : List (Operation R)) : w.run (op :: ops) = ((w.step op).1, [(w.step op).2]) := by
  rw [run]
  rcases hs : w.step op with ⟨w', answer⟩
  rw [hs] at h
  cases answer <;> first | rfl | cases h

theorem run_cons {w : Worker K R} {op : Operation R} (h : (w.step op).2.isBreach = false)
    (ops : List (Operation R)) :
    w.run (op :: ops) = ((w.step op).1.after ops, (w.step op).2 :: ((w.step op).1.run ops).2) := by
  rw [run]
  rcases hs : w.step op with ⟨w', answer⟩
  rw [hs] at h
  cases answer <;> first | rfl | cases h

theorem completes_cons {w : Worker K R} {op : Operation R} {ops : List (Operation R)} :
    w.Completes (op :: ops) ↔ (w.step op).2.isBreach = false ∧ (w.step op).1.Completes ops := by
  cases h : (w.step op).2.isBreach with
  | true => simp [Completes, run_cons_of_breach h, h]
  | false => simp [Completes, run_cons h, h]

theorem after_cons {w : Worker K R} {op : Operation R} {ops : List (Operation R)}
    (h : w.Completes (op :: ops)) : w.after (op :: ops) = (w.step op).1.after ops := by
  rw [after, run_cons (completes_cons.mp h).1]

/-- A run that completes can be cut anywhere. -/
theorem completes_append {w : Worker K R} {ops ops' : List (Operation R)}
    (h : w.Completes (ops ++ ops')) :
    w.Completes ops ∧ (w.after ops).Completes ops' ∧
    w.after (ops ++ ops') = (w.after ops).after ops' := by
  induction ops generalizing w with
  | nil => exact ⟨fun _ ha => (List.not_mem_nil ha).elim, h, rfl⟩
  | cons op ops ih =>
    obtain ⟨hstep, hrest⟩ := completes_cons.mp h
    obtain ⟨hops, hops', hafter⟩ := ih hrest
    have hcons : w.Completes (op :: ops) := completes_cons.mpr ⟨hstep, hops⟩
    rw [after_cons hcons]
    exact ⟨hcons, hops', (after_cons h).trans hafter⟩

/-- A run that completes can be continued by an operation without breach. -/
theorem completes_concat {w : Worker K R} {ops : List (Operation R)} (hops : w.Completes ops)
    {op : Operation R} (hop : ((w.after ops).step op).2.isBreach = false) :
    w.Completes (ops ++ [op]) ∧ w.after (ops ++ [op]) = ((w.after ops).step op).1 := by
  induction ops generalizing w with
  | nil =>
    have hsingle : w.Completes [op] := completes_cons.mpr ⟨hop, hops⟩
    exact ⟨hsingle, after_cons hsingle⟩
  | cons first ops ih =>
    rw [after_cons hops] at hop ⊢
    obtain ⟨hfirst, hrest⟩ := completes_cons.mp hops
    obtain ⟨hcompletes, hafter⟩ := ih hrest hop
    have hcons : w.Completes (first :: (ops ++ [op])) := completes_cons.mpr ⟨hfirst, hcompletes⟩
    exact ⟨hcons, (after_cons hcons).trans hafter⟩

/-- What every step without breach keeps holds after a run without breach. -/
theorem after_induction {P : Worker K R → Prop}
    (step : ∀ w op, P w → (w.step op).2.isBreach = false → P (w.step op).1) {w : Worker K R}
    {ops : List (Operation R)} (hw : P w) (h : w.Completes ops) : P (w.after ops) := by
  induction ops generalizing w with
  | nil => exact hw
  | cons op ops ih =>
    obtain ⟨hstep, hrest⟩ := completes_cons.mp h
    rw [after_cons h]
    exact ih (step w op hw hstep) hrest

/-! ## Reachable workers -/

/-- Some run without breach leads from a worker without variables to `w`. -/
def Reachable (settings : Settings K) (w : Worker K R) : Prop :=
  ∃ w₀ ops, create settings = .ok w₀ ∧ w₀.Completes ops ∧ w₀.after ops = w

/-- A worker without variables under the given settings. -/
def blank (settings : Settings K) : Worker K R where
  settings := settings
  tick := 0
  core := .empty
  stability := .empty settings.stabilityRate
  samples := .empty settings.trailSampleRate
  glue := .empty
  journal := none

omit [Recorder R K] in
/-- Exactly the settings in range make a worker. -/
theorem create_eq_ok_iff {settings : Settings K} {w : Worker K R} :
    create settings = .ok w ↔ settings.validate = .ok () ∧ w = blank settings := by
  constructor
  · intro h
    obtain ⟨_, hvalid, hw⟩ := bind_eq_ok_iff.mp h
    cases hw
    exact ⟨hvalid, rfl⟩
  · rintro ⟨hvalid, rfl⟩
    exact bind_eq_ok_iff.mpr ⟨(), hvalid, rfl⟩

/-- What holds of a worker without variables and is kept by every step holds of every reachable
worker. -/
theorem Reachable.induction {settings : Settings K} {P : Worker K R → Prop}
    (start : ∀ w, create settings = .ok w → P w)
    (step : ∀ w op, P w → (w.step op).2.isBreach = false → P (w.step op).1) {w : Worker K R}
    (h : Reachable settings w) : P w := by
  obtain ⟨w₀, ops, hcreate, hcompletes, rfl⟩ := h
  exact after_induction step (start w₀ hcreate) hcompletes

/-- Operations without breach lead from reachable workers to reachable workers. -/
theorem Reachable.step {settings : Settings K} {w : Worker K R} (h : Reachable settings w)
    {op : Operation R} (hop : (w.step op).2.isBreach = false) :
    Reachable settings (w.step op).1 := by
  obtain ⟨w₀, ops, hcreate, hcompletes, rfl⟩ := h
  obtain ⟨hcontinued, hafter⟩ := completes_concat hcompletes hop
  exact ⟨w₀, ops ++ [op], hcreate, hcontinued, hafter⟩

theorem Reachable.after {settings : Settings K} {w : Worker K R} (h : Reachable settings w)
    {ops : List (Operation R)} (hops : w.Completes ops) : Reachable settings (w.after ops) :=
  after_induction (fun _ _ hw hop => hw.step hop) h hops

theorem Reachable.validate_eq {settings : Settings K} {w : Worker K R} (h : Reachable settings w) :
    settings.validate = .ok () := by
  obtain ⟨_, _, hcreate, -, -⟩ := h
  exact (create_eq_ok_iff.mp hcreate).1

/-- What an operation leaves behind that was not cut short by a breach is reachable. -/
theorem Reachable.settles {settings : Settings K} {w w' : Worker K R} (h : Reachable settings w)
    (op : Operation R) {α : Type} {answer : α → Answer K}
    (hanswer : ∀ a, (answer a).isBreach = false) {r : Except Refusal α}
    (hstep : w.step op = w.settle answer (.ok (w', r))) :
    Reachable settings w' := by
  have hop : (w.step op).2.isBreach = false := by
    rw [hstep]
    cases r with
    | error _ => rfl
    | ok a => exact hanswer a
  have hnext := h.step hop
  rw [hstep] at hnext
  cases r <;> exact hnext

end Worker

end ClauseSharing
