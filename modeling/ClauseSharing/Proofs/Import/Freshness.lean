import ClauseSharing.Proofs.Import.Units

/-!
How fresh the filtering of an added clause is.

A clause is filtered when the pass comes to its payload, and added when the batch is drained. Its
literals are unassigned at the first of these moments. In between, the pass may assign some of them
as units of later payloads, so a watched literal of an added clause can be assigned by the end
(`lateUnit_assigns_watched`). Nothing but later units of the same batch does that
(`added_free_when_consumed`).
-/

namespace ClauseSharing

namespace Core

/-- Whether the watched literals of all clauses stored since `before` are unassigned in `after`. -/
def NewWatchesFree (before after : Core) : Prop :=
  ∀ clause ∈ after.store.clauses.toList.drop before.store.clauses.size,
    ∀ l ∈ clause.literals.take 2, after.assignment.value l.var = none

variable {before c : Core} {units : List Literal} {payload : List Int32} {d : Candidate}

/-- At the root, what the filter leaves of a clause is unassigned, unless the variable has been
retired and was assigned before the pass. -/
theorem FixesUnits.free_of_leaves (h : FixesUnits before c units) (hbefore : before.WellFormed)
    (root : before.assignment.level = 0) (hleaves : Pass.Leaves c payload d) {l : Literal}
    (hl : l ∈ d.literals)
    (hstate : before.stateOf l.var = .active ∨ before.assignment.value l.var = none) :
    c.assignment.value l.var = none := by
  obtain ⟨externals, -, hverdict⟩ := hleaves
  rw [(Survey.verdict_eq_candidate hverdict).2] at hl
  obtain ⟨⟨external, l⟩, hkept, rfl⟩ := List.mem_map.mp hl
  rcases LiteralVerdict.standing_of_eq_kept (Survey.of_mem_kept hkept).2 with hactive | hsubstituted
  · exact (h.wellFormed.free_of_active (h.root_iff.mpr root) hactive).2
  · have hretired : before.stateOf l.var ≠ .active := by
      intro hactive
      rw [← h.stateOf_eq] at hactive
      have hstanding : c.standingOf l = .substituted := hsubstituted
      unfold standingOf at hstanding
      rw [hactive] at hstanding
      dsimp only at hstanding
      split at hstanding <;> cases hstanding
    -- The units of the pass have active variables, so none of them is this one's.
    by_contra hvalue
    rcases (h.value_ne_none_iff hbefore).mp hvalue with hassigned | ⟨u, hu, hvar⟩
    · exact hassigned (hstate.resolve_left hretired)
    · exact hretired (hvar ▸ (h.takeable u hu).2.1)

end Core

namespace Worker

variable {K R : Type} [Scalar K]

/-! ## Main statement -/

variable [Recorder R K]

/-- Every clause that a pass adds has two literals or more and is what the filter left of a payload
when the pass came to it. All of them, those that will be watched included, were unassigned then,
and at the end of the pass exactly those are assigned whose variables have become units since. This
leaves out variables that had been both retired and assigned before the pass. -/
theorem added_free_when_consumed {settings : Settings K} {w : Worker K R}
    (hw : Reachable settings w) (batch : List (List Int32)) :
    ∃ added : List Candidate,
      (w.runPass batch).1.core.store.clauses.toList = w.core.store.clauses.toList ++
        added.map (fun d => ⟨d.literals, d.glue, .imported⟩) ∧
      ∀ d ∈ added, 2 ≤ d.literals.length ∧
        ∃ (m : Pass Core K) (before : List (List Int32)) (payload : List Int32)
          (after : List (List Int32)) (later : List Literal),
          batch = before ++ payload :: after ∧
          (Pass.start w.core : Pass Core K).consume before = (m, .ok false) ∧
          Pass.Leaves m.recipient payload d ∧
          (w.runPass batch).1.core.assignment.trail.toList =
            m.recipient.assignment.trail.toList ++ later.map (⟨·, .propagation⟩) ∧
          ∀ l ∈ d.literals,
            w.core.stateOf l.var = .active ∨ w.core.assignment.value l.var = none →
            m.recipient.assignment.value l.var = none ∧
            ((w.runPass batch).1.core.assignment.value l.var ≠ none ↔
              ∃ u ∈ later, u.var = l.var) := by
  obtain ⟨consumed, units, added, store, -, hcore, hclauses, hadmits⟩ :=
    runPass_core hw.wellFormed batch
  rw [hcore]
  refine ⟨added, hclauses, ?_⟩
  intro d hd
  obtain ⟨m, payload, later, root, ⟨after, before, hbatch, hbefore⟩, hleaves, ⟨earlier, hearlier⟩,
    hlater⟩ := hadmits d hd
  have hlength : 2 ≤ d.literals.length := by
    obtain ⟨_, -, hverdict⟩ := hleaves
    exact Survey.two_le_length_of_candidate hverdict
  refine ⟨hlength, m, before, payload, after, later, hbatch, hbefore, hleaves, hlater.trail, ?_⟩
  intro l hl hstate
  have hfree := hearlier.free_of_leaves hw.wellFormed root hleaves hl hstate
  refine ⟨hfree, (hlater.value_ne_none_iff hearlier.wellFormed).trans ?_⟩
  exact or_iff_right (not_not_intro hfree)

/-- Three variables and nothing known about them. -/
def threeVariables : List Operation := [.addVariables 3]

/-- A clause between a unit that shrinks it and a unit that it has. -/
def clauseBetweenUnits : List (List Int32) := [[-3], [2, 1, 2, 3], [1]]

theorem added_free_when_consumed_clauseBetweenUnits :
    Reachable .standard ((blank .standard : Worker Rat).after threeVariables) ∧
    ∃ added : List Candidate, added.length = 1 ∧
      ∀ d ∈ added, 2 ≤ d.literals.length ∧ ∃ (m : Pass Core Rat) (payload : List Int32),
        payload ∈ clauseBetweenUnits ∧ Pass.Leaves m.recipient payload d ∧
        ∀ l ∈ d.literals, m.recipient.assignment.value l.var = none := by
  have hw : Reachable .standard ((blank .standard : Worker Rat).after threeVariables) :=
    reachable_standard (by decide +kernel)
  obtain ⟨added, hclauses, hadded⟩ := added_free_when_consumed hw clauseBetweenUnits
  have hstored : (((blank .standard : Worker Rat).after threeVariables).runPass
      clauseBetweenUnits).1.core.store.clauses.toList.length = 1 := by
    decide +kernel
  have hempty : ((blank .standard : Worker Rat).after threeVariables).core.store.clauses.toList =
      [] := by
    decide +kernel
  have htrail : ((blank .standard : Worker Rat).after threeVariables).core.assignment.trail.toList =
      [] := by
    decide +kernel
  rw [hclauses, hempty, List.nil_append, List.length_map] at hstored
  refine ⟨hw, added, hstored, ?_⟩
  intro d hd
  obtain ⟨hlength, m, before, payload, after, later, hbatch, -, hleaves, -, hfree⟩ := hadded d hd
  refine ⟨hlength, m, payload, ?_, hleaves, fun l hl => (hfree l hl (.inr ?_)).1⟩
  · rw [hbatch]
    exact List.mem_append_right before List.mem_cons_self
  · apply Option.eq_none_iff_forall_ne_some.mpr
    intro b hb
    obtain ⟨e, he, -⟩ := hw.backed l.var b hb
    rw [← Array.mem_toList_iff, htrail] at he
    cases he

/-- A clause, and then a unit of it. -/
def lateUnit : List (List Int32) := [[2, 1, 2], [1]]

/-- The pass finishes with nothing decided, and yet a watched literal of the clause that it added is
assigned: the unit came after the clause had been filtered. -/
theorem lateUnit_assigns_watched :
    Reachable .standard ((blank .standard : Worker Rat).after threeVariables) ∧
    ((blank .standard : Worker Rat).after threeVariables).level = 0 ∧
    (∃ report, (((blank .standard : Worker Rat).after threeVariables).runPass lateUnit).2 =
      .ok report ∧ report.status = .unknown) ∧
    ¬ Core.NewWatchesFree ((blank .standard : Worker Rat).after threeVariables).core
      (((blank .standard : Worker Rat).after threeVariables).runPass lateUnit).1.core := by
  refine ⟨reachable_standard (by decide +kernel), by decide +kernel, ?_, ?_⟩
  · have hstatus : ((((blank .standard : Worker Rat).after threeVariables).runPass lateUnit).2.map
        (·.status)).toOption = some .unknown := by
      decide +kernel
    rcases hpass : (((blank .standard : Worker Rat).after threeVariables).runPass lateUnit).2 with
      e | report
    · rw [hpass] at hstatus
      cases hstatus
    · rw [hpass] at hstatus
      exact ⟨report, rfl, Option.some.inj hstatus⟩
  · unfold Core.NewWatchesFree
    decide +kernel

end Worker

end ClauseSharing
