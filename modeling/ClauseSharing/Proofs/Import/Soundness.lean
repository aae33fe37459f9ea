import ClauseSharing.Proofs.Scalar.Exact
import ClauseSharing.Proofs.Worker.Trail

/-!
Import is sound.

Whatever a pass assigns or adds follows from the literals on the root trail and from the payloads
that it took (`Worker.runPass_sound`). Literals that are false at the root are dropped from a clause
without loss, since their negation is on the trail, and each unit that the pass assigns extends the
trail on which later payloads are judged.
-/

namespace ClauseSharing

/-! ## The filter -/

section Filter

variable {T : Type} [Recipient T] {t : T} {external : Int32} {literal : Literal}

theorem LiteralVerdict.of_eq_falsified (h : of t external = .falsified) :
    ∃ l, Recipient.resolve t external = some l ∧ Recipient.standing t l = .fixed false := by
  unfold of at h
  split at h
  · cases h
  split at h
  · cases h
  · next l hl =>
    split at h <;> cases h
    next hstanding => exact ⟨l, hl, hstanding⟩

theorem LiteralVerdict.of_eq_kept (h : of t external = .kept literal) :
    Recipient.resolve t external = some literal := by
  unfold of at h
  split at h
  · cases h
  split at h
  · cases h
  · next l hl =>
    split at h <;> cases h
    · exact hl
    · exact hl

/-- In a clause that nothing disqualifies, every literal is false at the root or stays. -/
theorem Survey.falsified_or_kept {externals : List Int32}
    (h : (Survey.of t externals).disqualified = none) (hmem : external ∈ externals) :
    LiteralVerdict.of t external = .falsified ∨
    ∃ l, LiteralVerdict.of t external = .kept l ∧ (external, l) ∈ (Survey.of t externals).kept := by
  induction externals with
  | nil => cases hmem
  | cons e rest ih =>
    rw [Survey.of] at h ⊢
    split at h <;> rename_i hverdict
    · cases h
    · rcases List.mem_cons.mp hmem with rfl | hmem
      · exact .inl hverdict
      · exact ih h hmem
    · next l =>
      rcases List.mem_cons.mp hmem with rfl | hmem
      · exact .inr ⟨l, hverdict, List.mem_cons_self⟩
      · refine (ih h hmem).imp id ?_
        rintro ⟨l', hl', hkept⟩
        exact ⟨l', hl', List.mem_cons_of_mem _ hkept⟩

theorem Survey.verdict_eq_unit {s : Survey} (h : s.verdict = .unit external) :
    s.disqualified = none ∧ ∃ l, s.kept = [(external, l)] := by
  unfold verdict at h
  split at h <;> cases h
  next l hd hk => exact ⟨hd, l, hk⟩

theorem Survey.verdict_eq_candidate {s : Survey} {literals : List Literal}
    (h : s.verdict = .candidate literals) :
    s.disqualified = none ∧ literals = s.kept.map (·.2) := by
  unfold verdict at h
  split at h <;> cases h
  next hd _ _ => exact ⟨hd, rfl⟩

end Filter

/-! ## A worker as recipient -/

namespace Core

variable {c : Core} {l : Literal}

/-- Only assigned literals stand fixed, with the value they have. -/
theorem value_of_standing_fixed {b : Bool} (h : c.standingOf l = .fixed b) :
    c.assignment.value l.var = some (l.isPositive == b) := by
  unfold standingOf at h
  split at h
  · cases h
  · cases h
  · split at h
    · next hlevel =>
      cases h
      obtain ⟨value, hvalue, -⟩ := Option.map_eq_some_iff.mp hlevel
      rw [hvalue, Assignment.truth, hvalue]
      cases value <;> cases l.isPositive <;> rfl
    · cases h

end Core

/-! ## One pass -/

/-- What a pass has made of the worker's state, as far as a valuation can tell that makes the trail
before it true: new entries of the trail are true, candidates are satisfied, and nothing else of
concern has changed. -/
structure Pass.Sound (μ : Valuation) (before : Core) (after : Core) (queue : Array Candidate) :
    Prop where
  names_eq : after.names = before.names
  clauses_eq : after.store.clauses = before.store.clauses
  refuted_eq : after.refuted = before.refuted
  backed : after.assignment.Backed
  trail : ∃ entries : List TrailItem,
    after.assignment.trail.toList = before.assignment.trail.toList ++ entries ∧
    ∀ e ∈ entries, μ.MakesTrue e.literal
  queue : ∀ c ∈ queue, μ.Satisfies c.literals

namespace Pass.Sound

variable {μ : Valuation} {before after after' : Core} {queue queue' : Array Candidate}

theorem start (μ : Valuation) {c : Core} (hbacked : c.assignment.Backed) :
    Sound μ c c #[] where
  names_eq := rfl
  clauses_eq := rfl
  refuted_eq := rfl
  backed := hbacked
  trail := ⟨[], (List.append_nil _).symm, nofun⟩
  queue := nofun

theorem trail_true (h : Sound μ before after queue)
    (hbefore : ∀ e ∈ before.assignment.trail, μ.MakesTrue e.literal) :
    ∀ e ∈ after.assignment.trail, μ.MakesTrue e.literal := by
  obtain ⟨entries, htrail, htrue⟩ := h.trail
  intro e he
  rw [← Array.mem_toList_iff, htrail] at he
  rcases List.mem_append.mp he with he | he
  · exact hbefore e (Array.mem_toList_iff.mp he)
  · exact htrue e he

/-- A literal that stands false at the root is false. -/
theorem not_makesTrue (h : Sound μ before after queue)
    (hbefore : ∀ e ∈ before.assignment.trail, μ.MakesTrue e.literal) {l : Literal}
    (hstanding : after.standingOf l = .fixed false) : ¬ μ.MakesTrue l := by
  have hvalue := Core.value_of_standing_fixed hstanding
  rw [beq_false] at hvalue
  exact h.backed.not_makesTrue (h.trail_true hbefore) hvalue

theorem traceDerived (h : Sound μ before after queue) (literals : List Literal) :
    Sound μ before (after.traceDerived literals) queue :=
  ⟨h.names_eq, h.clauses_eq, h.refuted_eq, h.backed, h.trail, h.queue⟩

theorem push (h : Sound μ before after queue) {l : Literal} (hl : μ.MakesTrue l) :
    Sound μ before { after with assignment := after.assignment.push l .propagation } queue := by
  obtain ⟨entries, htrail, htrue⟩ := h.trail
  refine ⟨h.names_eq, h.clauses_eq, h.refuted_eq, h.backed.push l .propagation,
    ⟨entries ++ [⟨l, .propagation⟩], ?_, ?_⟩, h.queue⟩
  · rw [← List.append_assoc, ← htrail]
    exact Array.toList_push
  · intro e he
    rcases List.mem_append.mp he with he | he
    · exact htrue e he
    · rw [List.mem_singleton.mp he]
      exact hl

/-- Assigning a true unit. -/
theorem fix (h : Sound μ before after queue)
    (hbefore : ∀ e ∈ before.assignment.trail, μ.MakesTrue e.literal) {l : Literal}
    (hl : μ.MakesTrue l) : Sound μ before (after.fix l) queue := by
  rw [Core.fix]
  rcases after.assign_cases l .propagation with ⟨-, heq⟩ | ⟨hvalue, -⟩ | ⟨-, heq⟩
  · rw [heq]
    exact h.traceDerived [l]
  · -- An opposing value would be that of the valuation, so the unit would be false.
    exact absurd hl (h.backed.not_makesTrue (h.trail_true hbefore) hvalue)
  · rw [heq]
    exact (h.push hl).traceDerived [l]

/-- Of a clause that holds and that nothing disqualifies, a true literal stays. -/
theorem exists_kept (h : Sound μ before after queue)
    (hbefore : ∀ e ∈ before.assignment.trail, μ.MakesTrue e.literal) {externals : List Int32}
    (hsurvey : (Survey.of after externals).disqualified = none)
    (hholds : μ.SatisfiesThrough before.names externals) :
    ∃ e l, before.names.resolve e = some l ∧ μ.MakesTrue l ∧
      (e, l) ∈ (Survey.of after externals).kept := by
  have hresolve : ∀ e, Recipient.resolve after e = before.names.resolve e := fun e =>
    congrArg (·.resolve e) h.names_eq
  -- A literal that disqualifies nothing is known, so the clause asks for a true one.
  obtain ⟨e, he, l, hl, htrue⟩ := hholds fun e he => by
    rw [← hresolve]
    rcases Survey.falsified_or_kept hsurvey he with hverdict | ⟨l, hverdict, -⟩
    · obtain ⟨l, hl, -⟩ := LiteralVerdict.of_eq_falsified hverdict
      rw [hl, Option.isSome_some]
    · rw [LiteralVerdict.of_eq_kept hverdict, Option.isSome_some]
  refine ⟨e, l, hl, htrue, ?_⟩
  -- That one cannot have been dropped, since only false literals are.
  rcases Survey.falsified_or_kept hsurvey he with hverdict | ⟨l', hverdict, hkept⟩
  · obtain ⟨l', hl', hstanding⟩ := LiteralVerdict.of_eq_falsified hverdict
    rw [hresolve, hl] at hl'
    cases hl'
    exact absurd htrue (h.not_makesTrue hbefore hstanding)
  · have hl' := LiteralVerdict.of_eq_kept hverdict
    rw [hresolve, hl] at hl'
    cases hl'
    exact hkept

/-- Taking an offer that the valuation honors. -/
theorem take (h : Sound μ before after queue)
    (hbefore : ∀ e ∈ before.assignment.trail, μ.MakesTrue e.literal) {offer : Offer}
    (hholds : μ.SatisfiesThrough before.names offer.externals)
    (htakes : Takes after queue offer after' queue') : Sound μ before after' queue' := by
  have hresolve : ∀ e, Recipient.resolve after e = before.names.resolve e := fun e =>
    congrArg (·.resolve e) h.names_eq
  cases htakes with
  | passed => exact h
  | @fixed _ external literal tried taken =>
    have hliteral := (unitToAssign_eq_some taken).1
    rw [hresolve] at hliteral
    refine h.fix hbefore ?_
    cases offer with
    | unit e =>
      cases tried
      obtain ⟨e, he, l, hl, htrue⟩ := hholds fun e he => by
        rw [List.mem_singleton.mp he, hliteral, Option.isSome_some]
      rw [List.mem_singleton.mp he, hliteral] at hl
      cases hl
      exact htrue
    | clause glue externals =>
      obtain ⟨hsurvey, kept, hkept⟩ := Survey.verdict_eq_unit tried
      obtain ⟨e, l, hl, htrue, hmem⟩ := h.exists_kept hbefore hsurvey hholds
      rw [hkept] at hmem
      cases List.mem_singleton.mp hmem
      rw [hliteral] at hl
      cases hl
      exact htrue
  | @queued glue externals literals kept =>
    obtain ⟨hsurvey, rfl⟩ := Survey.verdict_eq_candidate kept
    obtain ⟨e, l, -, htrue, hmem⟩ := h.exists_kept hbefore hsurvey hholds
    refine { h with queue := fun c hc => ?_ }
    rcases Array.mem_push.mp hc with hc | rfl
    · exact h.queue c hc
    · exact ⟨l, List.mem_map.mpr ⟨(e, l), hmem, rfl⟩, htrue⟩

end Pass.Sound

/-! ## The whole pass -/

variable {K : Type}

/-- Consuming payloads that the valuation honors. -/
theorem Pass.sound_consume {μ : Valuation} {c : Core} (hbacked : c.assignment.Backed)
    (htrail : ∀ e ∈ c.assignment.trail, μ.MakesTrue e.literal) [Scalar K]
    {batch : List (List Int32)}
    (hbatch : ∀ payload ∈ (Pass.start c : Pass Core K).consumed batch, μ.Honors c.names payload) :
    Pass.Sound μ c ((Pass.start c : Pass Core K).consume batch).1.recipient
      ((Pass.start c : Pass Core K).consume batch).1.candidates := by
  refine consume_induction (I := fun q => Pass.Sound μ c q.recipient q.candidates)
    (fun q h => h) (fun q payload offer hpayload hoffer h => ?_) (fun q _ h => h)
    (Pass.Sound.start μ hbacked) hbatch
  refine h.take htrail (hpayload offer ?_) (takes_take q offer)
  rw [hoffer]
  rfl

/-- Storing the chosen candidates adds and traces them, in this order, and does nothing else. -/
theorem Core.foldl_adopt (chosen : List Candidate) (c : Core) :
    ∃ store, chosen.foldl Recipient.adopt c = { c with
        store := store
        trace := c.trace.map (· ++ (chosen.map fun d => c.externalImage d.literals).toArray) } ∧
      store.clauses.toList =
        c.store.clauses.toList ++ chosen.map fun d => ⟨d.literals, d.glue, .imported⟩ := by
  induction chosen generalizing c with
  | nil => exact ⟨c.store, by cases c; simp, by simp⟩
  | cons d chosen ih =>
    obtain ⟨store, heq, hclauses⟩ := ih (Recipient.adopt c d)
    have hadopt : Recipient.adopt c d = { c with
        store := c.store.add ⟨d.literals, d.glue, .imported⟩
        trace := c.trace.map (·.push (c.externalImage d.literals)) } := rfl
    refine ⟨store, ?_, ?_⟩
    · rw [List.foldl_cons, heq, hadopt]
      simp only [Option.map_map, List.map_cons]
      congr 2
      funext t
      simp [Core.externalImage]
    · have hadd : (Recipient.adopt c d).store.clauses =
          c.store.clauses.push ⟨d.literals, d.glue, .imported⟩ := Core.clauses_insertClause c _
      rw [hclauses, hadd, List.map_cons, Array.toList_push, List.append_assoc,
        List.singleton_append]

namespace Worker

variable {R : Type} [Scalar K] [Recorder R K]

/-- The payloads that a pass of the worker takes from a batch, also when it ends early or is cut
short. Above the root, it takes none. -/
def consumed (w : Worker K R) (batch : List (List Int32)) : List (List Int32) :=
  if w.level ≠ 0 then []
  else
    match w.catchUpAll with
    | .error _ => []
    | .ok _ => (Pass.start w.core : Pass Core K).consumed batch

/-- From one state to the next, entries were added to the trail and clauses to the store, the
valuation makes all of them true, and the formula was not refuted. -/
structure SoundStep (μ : Valuation) (before after : Core) : Prop where
  trail : ∃ entries : List TrailItem,
    after.assignment.trail.toList = before.assignment.trail.toList ++ entries ∧
    ∀ e ∈ entries, μ.MakesTrue e.literal
  clauses : ∃ added : List StoredClause,
    after.store.clauses.toList = before.store.clauses.toList ++ added ∧
    ∀ c ∈ added, μ.Satisfies c.literals
  refuted_eq : after.refuted = before.refuted

theorem SoundStep.refl (μ : Valuation) (c : Core) : SoundStep μ c c where
  trail := ⟨[], by simp⟩
  clauses := ⟨[], by simp⟩
  refuted_eq := rfl

/-- Running the selector on a worker's state. -/
theorem soundStep_run {μ : Valuation} {c : Core} (hbacked : c.assignment.Backed)
    (htrail : ∀ e ∈ c.assignment.trail, μ.MakesTrue e.literal) {batch : List (List Int32)}
    (hbatch : ∀ payload ∈ (Pass.start c : Pass Core K).consumed batch, μ.Honors c.names payload)
    (s : Selector K) (probabilities : LiteralLikelihood K) :
    SoundStep μ c (s.run probabilities c batch).1 := by
  have hsound := Pass.sound_consume hbacked htrail hbatch
  obtain ⟨chosen, hchosen, hrun⟩ := s.run_recipient probabilities c batch
  obtain ⟨store, hadopt, hclauses⟩ :=
    Core.foldl_adopt chosen ((Pass.start c : Pass Core K).consume batch).1.recipient
  rw [hrun, hadopt]
  refine ⟨hsound.trail, ⟨chosen.map fun d => ⟨d.literals, d.glue, .imported⟩, ?_, fun d hd => ?_⟩,
    hsound.refuted_eq⟩
  · rw [hclauses, hsound.clauses_eq]
  · obtain ⟨candidate, hcandidate, rfl⟩ := List.mem_map.mp hd
    exact hsound.queue candidate (hchosen candidate hcandidate)

/-- Take any valuation that makes the trail of a reachable worker true and satisfies every payload
that a pass takes from its batch, as far as the literals of the payload are known. Then it makes
every literal true that the pass assigns, and satisfies every clause that the pass adds, however the
pass ends. Nor does the pass refute the formula. -/
theorem runPass_sound {settings : Settings K} {w : Worker K R} (hw : Reachable settings w)
    {μ : Valuation} (htrail : ∀ e ∈ w.core.assignment.trail, μ.MakesTrue e.literal)
    {batch : List (List Int32)}
    (hbatch : ∀ payload ∈ w.consumed batch, μ.Honors w.core.names payload) :
    SoundStep μ w.core (w.runPass batch).1.core := by
  by_cases hroot : w.level = 0
  · rcases hcatch : w.catchUpAll with b | w₁
    · rw [runPass_of_error hroot hcatch]
      exact .refl μ w.core
    · obtain ⟨s, -, hw₁⟩ := bind_eq_ok_iff.mp hcatch
      cases hw₁
      rw [runPass_fst hroot hcatch]
      simp only [consumed, hroot, hcatch, ne_eq, not_true_eq_false, if_false] at hbatch
      exact soundStep_run hw.backed htrail hbatch w.selector s.probabilities
  · have hself : w.runPass batch = (w, .error (.refused (.aboveRoot w.level))) := by
      simp [runPass, hroot]
    rw [hself]
    exact .refl μ w.core

/-- A worker of four variables, the first of which is true. -/
def rootUnit : List Operation :=
  [.addVariables 4, .assertClause [.ofVariable .first true]]

/-- The first payload shrinks to a unit, the second one loses the negation of that unit, and the
variable of the last one is not known. -/
def shrinkingBatch : List (List Int32) := [[2, -1, 2], [2, -2, 3, 4], [9]]

theorem runPass_sound_shrinkingBatch :
    Reachable .standard ((blank .standard : Worker Rat).after rootUnit) ∧
    SoundStep (fun v => v.index ≠ 3) ((blank .standard : Worker Rat).after rootUnit).core
      (((blank .standard : Worker Rat).after rootUnit).runPass shrinkingBatch).1.core ∧
    (((blank .standard : Worker Rat).after rootUnit).runPass
      shrinkingBatch).1.core.assignment.trail.size = 2 ∧
    (((blank .standard : Worker Rat).after rootUnit).runPass
      shrinkingBatch).1.core.store.clauses.size = 1 := by
  have hw : Reachable .standard ((blank .standard : Worker Rat).after rootUnit) := by
    refine ⟨_, rootUnit, create_eq_ok_iff.mpr ⟨Settings.validate_standard, rfl⟩, ?_, rfl⟩
    unfold Completes
    decide +kernel
  exact ⟨hw, runPass_sound hw (by decide +kernel) (by decide +kernel), by decide +kernel,
    by decide +kernel⟩

end Worker

end ClauseSharing
