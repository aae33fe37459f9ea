import ClauseSharing.Proofs.Worker.Naming
import ClauseSharing.Proofs.Worker.Store

/-!
A pass only appends.

However a pass ends, it leaves behind what it found, in front of what it adds: the trail is continued
by root propagations of variables that were active and unassigned, the clauses by imported ones, and
every list of watchers by new watchers (`Worker.Appends`). Nothing that was added is eliminated or
forbidden. All the rest of the worker but its estimates and its trace is as it was, so no pass makes
a worker unsatisfiable (`Worker.runPass_appends`).

The assignment could refuse a unit, and could find a conflict in it. It does not, since a literal
that takes part and is not fixed has no value at the root.
-/

namespace ClauseSharing

/-! ## What stays of a clause -/

theorem LiteralVerdict.forbids_of_eq_kept {T : Type} [Recipient T] {t : T} {external : Int32}
    {literal : Literal} (h : of t external = .kept literal) :
    Recipient.forbids t external = false := by
  unfold of at h
  split at h
  · cases h
  · next hallowed => exact Bool.eq_false_iff.mpr hallowed

namespace Core

variable {before c : Core} {units : List Literal} {payload : List Int32} {d : Candidate}

/-- The literal may be imported: it is not eliminated, and its name is not forbidden. -/
structure Importable (c : Core) (l : Literal) : Prop where
  present : c.stateOf l.var ≠ .eliminated
  allowed : ∃ external, c.names.nameOf l = some external ∧ c.forbidden.contains external = false

theorem standingOf_of_eliminated {l : Literal} (h : c.stateOf l.var = .eliminated) :
    c.standingOf l = .eliminated := by
  rw [standingOf, h]

/-- What the filter leaves of a clause could be imported from the start. -/
theorem FixesUnits.importable_of_leaves (h : FixesUnits before c units)
    (hnames : before.names.Inverse) (hleaves : Pass.Leaves c payload d) {l : Literal}
    (hl : l ∈ d.literals) : before.Importable l := by
  obtain ⟨externals, -, hverdict⟩ := hleaves
  rw [(Survey.verdict_eq_candidate hverdict).2] at hl
  obtain ⟨⟨external, l⟩, hkept, rfl⟩ := List.mem_map.mp hl
  have hstays := (Survey.of_mem_kept hkept).2
  refine ⟨fun heliminated => ?_, external, ?_, ?_⟩
  · rw [← h.stateOf_eq] at heliminated
    have hstanding : Recipient.standing c l = .eliminated := standingOf_of_eliminated heliminated
    rcases LiteralVerdict.standing_of_eq_kept hstays with hactive | hsubstituted
    · rw [hstanding] at hactive
      cases hactive
    · rw [hstanding] at hsubstituted
      cases hsubstituted
  · have hresolve : c.names.resolve external = some l := LiteralVerdict.of_eq_kept hstays
    rw [h.names] at hresolve
    exact hnames.resolve_eq_some_iff.mp hresolve
  · rw [← h.forbidden]
    exact LiteralVerdict.forbids_of_eq_kept hstays

/-- The units of a pass are assigned at the root. -/
theorem FixesUnits.levelOf_eq (h : FixesUnits before c units) (root : before.assignment.level = 0)
    {l : Literal} (hl : l ∈ units) : c.assignment.levelOf l.var = some 0 := by
  have hentry : (⟨l, .propagation⟩ : TrailItem) ∈ c.assignment.trail := by
    rw [← Array.mem_toList_iff, h.trail]
    exact List.mem_append_right _ (List.mem_map.mpr ⟨l, hl, rfl⟩)
  obtain ⟨p, hp⟩ := Array.mem_iff_getElem?.mp hentry
  have hlevel := h.wellFormed.assignment.levelOf_eq p _ hp
  rwa [Assignment.levelAt_of_root (h.root_iff.mpr root)] at hlevel

end Core

/-- As a store grows, every list of watchers is continued. -/
theorem ClauseStore.Grows.watchersOf_prefix {s t : ClauseStore} (h : s.Grows t) (l : Literal) :
    (s.watchersOf l).toList <+: (t.watchersOf l).toList := by
  induction h with
  | refl => exact List.prefix_rfl
  | register _ n ih =>
    rw [watchersOf_register]
    exact ih
  | add _ accepted ih =>
    rw [watchersOf_add accepted]
    exact ih.trans (List.prefix_append _ _)

namespace Worker

variable {K R : Type} [Scalar K]

/-! ## Whole passes -/

/-- A pass touches the shared state and the estimates at most. -/
theorem runPass_frame (w : Worker K R) (batch : List (List Int32)) :
    ∃ core stability, (w.runPass batch).1 = { w with core := core, stability := stability } := by
  unfold runPass
  split
  · exact ⟨w.core, w.stability, rfl⟩
  split
  · exact ⟨w.core, w.stability, rfl⟩
  · next w₁ hcatch =>
    obtain ⟨s, -, hw⟩ := bind_eq_ok_iff.mp hcatch
    cases hw
    exact ⟨_, s, rfl⟩

/-- From one worker to the next, units have been assigned at the root, clauses of others have been
added, and nothing else has happened that the search could notice. -/
structure Appends (before after : Worker K R) (units : List Literal) (added : List StoredClause) :
    Prop where
  trail : after.core.assignment.trail.toList =
    before.core.assignment.trail.toList ++ units.map (⟨·, .propagation⟩)
  free : ∀ l ∈ units, before.core.stateOf l.var = .active ∧
    before.core.assignment.value l.var = none
  fixed : ∀ l ∈ units, after.core.assignment.levelOf l.var = some 0
  clauses : after.core.store.clauses.toList = before.core.store.clauses.toList ++ added
  foreign : ∀ clause ∈ added, clause.kind = .imported
  importable : ∀ clause ∈ added, ∀ l ∈ clause.literals, before.core.Importable l
  watchers : ∀ l, (before.core.store.watchersOf l).toList <+: (after.core.store.watchersOf l).toList
  refuted : after.core.refuted = before.core.refuted
  states : after.core.states = before.core.states
  inactive : after.core.inactive = before.core.inactive
  names : after.core.names = before.core.names
  forbidden : after.core.forbidden = before.core.forbidden
  starts : after.core.assignment.levelStarts = before.core.assignment.levelStarts
  tick : after.tick = before.tick
  glue : after.glue = before.glue
  samples : after.samples = before.samples
  settings : after.settings = before.settings
  journal : after.journal = before.journal

variable [Recorder R K]

/-- Every pass of a worker at its root only appends, with whatever answer it ends. -/
theorem runPass_appends {settings : Settings K} {w : Worker K R} (hw : Reachable settings w)
    (root : w.level = 0) (batch : List (List Int32)) :
    ∃ units added, w.Appends (w.runPass batch).1 units added := by
  obtain ⟨consumed, units, added, store, hunits, hcore, hclauses, hadmits⟩ :=
    runPass_core hw.wellFormed batch
  have hgrows := grows_runPass hw batch
  obtain ⟨core, stability, hframe⟩ := w.runPass_frame batch
  rw [hframe] at hcore hgrows ⊢
  dsimp only at hcore hgrows
  subst hcore
  refine ⟨units, added.map fun d => ⟨d.literals, d.glue, .imported⟩, ?_⟩
  exact {
    trail := hunits.trail
    free := fun l hl => ⟨(hunits.takeable l hl).2.1, (hunits.takeable l hl).1⟩
    fixed := fun l hl => hunits.levelOf_eq root hl
    clauses := hclauses
    foreign := fun clause hclause => by
      obtain ⟨d, -, rfl⟩ := List.mem_map.mp hclause
      rfl
    importable := fun clause hclause l hl => by
      obtain ⟨d, hd, rfl⟩ := List.mem_map.mp hclause
      obtain ⟨m, payload, later, hadmitted⟩ := hadmits d hd
      obtain ⟨earlier, hearlier⟩ := hadmitted.before
      exact hearlier.importable_of_leaves hw.names.inverse hadmitted.leaves hl
    watchers := hgrows.watchersOf_prefix
    refuted := hunits.refuted
    states := hunits.states
    inactive := hunits.inactive
    names := hunits.names
    forbidden := hunits.forbidden
    starts := hunits.starts
    tick := rfl
    glue := rfl
    samples := rfl
    settings := rfl
    journal := rfl }

/-- A root unit, an eliminated variable and a forbidden literal. -/
def rootWithExclusions : List Operation :=
  [.addVariables 6, .assertClause [.ofVariable .first true], .eliminate .third, .forbid (-2)]

/-- Two clauses that must not be imported, a unit, and a clause with a falsified literal. -/
def mixedBatch : List (List Int32) := [[2, 4, 3], [2, 5, -2], [6], [2, -1, 5, 4]]

/-- A unit, and then a clause whose glue is no glue. -/
def badlyGluedBatch : List (List Int32) := [[2], [0, 4, 5]]

/-- A pass that reports, and one that is cut short after a unit. -/
theorem runPass_appends_rootWithExclusions :
    let w := (blank .standard : Worker Rat).after rootWithExclusions
    Reachable .standard w ∧ w.level = 0 ∧
    (∃ units added, w.Appends (w.runPass mixedBatch).1 units added ∧
      units.length = 1 ∧ added.length = 1) ∧
    (∃ units added, w.Appends (w.runPass badlyGluedBatch).1 units added ∧
      units.length = 1 ∧ added.length = 0) ∧
    ∀ report, (w.runPass badlyGluedBatch).2 ≠ .ok report := by
  intro w
  have hw : Reachable .standard w := reachable_standard (by decide +kernel)
  have root : w.level = 0 := by decide +kernel
  have hlengths {batch : List (List Int32)} {units : List Literal} {added : List StoredClause}
      (h : w.Appends (w.runPass batch).1 units added) :
      (w.runPass batch).1.core.assignment.trail.size = 1 + units.length ∧
      (w.runPass batch).1.core.store.clauses.size = added.length := by
    have htrail := congrArg List.length h.trail
    have hclauses := congrArg List.length h.clauses
    simp only [List.length_append, List.length_map, Array.length_toList] at htrail hclauses
    have hone : w.core.assignment.trail.size = 1 := by decide +kernel
    have hnone : w.core.store.clauses.size = 0 := by decide +kernel
    omega
  obtain ⟨units, added, happends⟩ := runPass_appends hw root mixedBatch
  obtain ⟨units', added', happends'⟩ := runPass_appends hw root badlyGluedBatch
  have hmixed : (w.runPass mixedBatch).1.core.assignment.trail.size = 2 ∧
      (w.runPass mixedBatch).1.core.store.clauses.size = 1 := by decide +kernel
  have hcut : (w.runPass badlyGluedBatch).1.core.assignment.trail.size = 2 ∧
      (w.runPass badlyGluedBatch).1.core.store.clauses.size = 0 := by decide +kernel
  have hcounts := hlengths happends
  have hcounts' := hlengths happends'
  refine ⟨hw, root, ⟨units, added, happends, by omega, by omega⟩,
    ⟨units', added', happends', by omega, by omega⟩, fun report hreport => ?_⟩
  have hended : (w.runPass badlyGluedBatch).2.toOption.isNone = true := by decide +kernel
  rw [hreport] at hended
  cases hended

end Worker

end ClauseSharing
