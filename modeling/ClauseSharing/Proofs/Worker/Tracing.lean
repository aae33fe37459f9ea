import ClauseSharing.Proofs.Import.Units
import ClauseSharing.Proofs.Worker.Naming

/-!
What the tracer sees of the derived clauses.

Every unit that a pass assigns and every clause that a pass or the search stores is handed to the
tracer once, as the list of the external names of its literals. A literal without a name is left out
of that list, so the list stands for the named literals of the clause
(`Core.map_resolve_externalImage`). Imported clauses have names throughout
(`Worker.tracesPass`). A learned clause need not (`Worker.tracesLearned`): with an unnamed literal,
what is traced is a stronger clause (`Worker.learn_traces_stronger`).
-/

namespace ClauseSharing

/-- The external clause is the image of the clause: it has as many literals, in the same order, and
each of them stands for the literal in its place. -/
def Names.Mirrors (names : Names) (externals : List Int32) (literals : List Literal) : Prop :=
  externals.map names.resolve = literals.map some

namespace Core

variable {c : Core}

/-- What is traced of a clause stands for those of its literals that have names. -/
theorem map_resolve_externalImage (h : c.names.Inverse) (literals : List Literal) :
    (c.externalImage literals).map c.names.resolve =
      (literals.filter fun l => (c.names.nameOf l).isSome).map some := by
  induction literals with
  | nil => rfl
  | cons l literals ih =>
    rw [externalImage] at ih ⊢
    cases hname : c.names.nameOf l with
    | none =>
      rw [List.filterMap_cons_none hname, List.filter_cons_of_neg (by simp [hname])]
      exact ih
    | some external =>
      have hresolve := h.resolve_eq_some_iff.mpr hname
      rw [List.filterMap_cons_some hname, List.filter_cons_of_pos (by simp [hname]), List.map_cons,
        List.map_cons, hresolve, ih]

/-- So it is the image of the clause exactly if all literals have names. -/
theorem mirrors_externalImage_iff (h : c.names.Inverse) {literals : List Literal} :
    c.names.Mirrors (c.externalImage literals) literals ↔
      ∀ l ∈ literals, (c.names.nameOf l).isSome = true := by
  rw [Names.Mirrors, map_resolve_externalImage h, ← List.filter_eq_self]
  exact List.map_inj_right fun _ _ => Option.some.inj

end Core

namespace Worker

variable {K R : Type} [Scalar K] {w : Worker K R}

/-- A pass with the batch hands every unit that it assigns and then every clause that it stores to
the tracer, once each, in order, and as full images. -/
def TracesPass (w : Worker K R) (traced : Array (List Int32)) (batch : List (List Int32)) : Prop :=
  ∃ (units : List Literal) (added : List StoredClause) (images : List (List Int32)),
    (w.runPass batch).1.core.assignment.trail.toList =
      w.core.assignment.trail.toList ++ units.map (⟨·, .propagation⟩) ∧
    (w.runPass batch).1.core.store.clauses.toList = w.core.store.clauses.toList ++ added ∧
    (w.runPass batch).1.core.trace = some (traced ++ images.toArray) ∧
    List.Forall₂ w.core.names.Mirrors images (units.map ([·]) ++ added.map (·.literals))

variable [Recorder R K]

/-- Learning a clause of fewer than two literals neither stores nor traces anything. A longer one is
stored and handed to the tracer once. What is handed over stands for the named literals of the
clause, so it is the full image exactly if all of them have names. -/
def TracesLearned (w : Worker K R) (traced : Array (List Int32)) (literals : List Literal)
    (glue : Nat) : Prop :=
  ∀ w' position, w.learn literals glue = .ok (w', position) →
    (literals.length < 2 ∧ w'.core.store.clauses = w.core.store.clauses ∧
      w'.core.trace = some traced) ∨
    (2 ≤ literals.length ∧
      w'.core.store.clauses = w.core.store.clauses.push ⟨literals, glue, .learned⟩ ∧
      ∃ image, w'.core.trace = some (traced.push image) ∧
        image.map w.core.names.resolve =
          (literals.filter fun l => (w.core.names.nameOf l).isSome).map some ∧
        (w.core.names.Mirrors image literals ↔
          ∀ l ∈ literals, (w.core.names.nameOf l).isSome = true))

variable {traced : Array (List Int32)}

omit [Recorder R K] in
theorem tracesPass (hcore : w.core.WellFormed) (hnames : w.core.names.Inverse)
    (htrace : w.core.trace = some traced) (batch : List (List Int32)) :
    w.TracesPass traced batch := by
  obtain ⟨consumed, units, added, store, hunits, hpass, hclauses, hadmits⟩ :=
    runPass_core hcore batch
  rw [TracesPass, hpass]
  refine ⟨units, added.map fun d => ⟨d.literals, d.glue, .imported⟩,
    (units.map ([·]) ++ added.map (·.literals)).map w.core.externalImage, hunits.trail, hclauses,
    ?_, ?_⟩
  · simp only [hunits.trace, htrace, hunits.externalImage_eq, Option.map_some, Array.append_assoc,
      List.append_toArray, List.map_append, List.map_map]
    rfl
  · rw [List.map_map, List.forall₂_map_left_iff]
    refine List.forall₂_same.mpr ?_
    intro literals hliterals
    refine (Core.mirrors_externalImage_iff hnames).mpr ?_
    intro l hl
    have hresolve : ∃ external, w.core.names.resolve external = some l := by
      rcases List.mem_append.mp hliterals with hunit | hcandidate
      · obtain ⟨u, hu, rfl⟩ := List.mem_map.mp hunit
        rw [List.mem_singleton.mp hl]
        exact (hunits.takeable u hu).2.2
      · obtain ⟨d, hd, rfl⟩ := List.mem_map.mp hcandidate
        obtain ⟨m, payload, later, -, -, hleaves, ⟨earlier, hearlier⟩, -⟩ := hadmits d hd
        rw [← hearlier.names]
        exact hleaves.exists_resolve hl
    obtain ⟨external, hresolve⟩ := hresolve
    rw [hnames.resolve_eq_some_iff.mp hresolve]
    rfl

theorem tracesLearned (hnames : w.core.names.Inverse) (htrace : w.core.trace = some traced)
    (literals : List Literal) (glue : Nat) : w.TracesLearned traced literals glue := by
  intro w' position h
  obtain ⟨w₁, hnote, h⟩ := bind_eq_ok_iff.mp h
  obtain ⟨-, -, hcore⟩ := noteLearned_eq_ok hnote
  split at h
  · next hshort =>
    cases h
    rw [hcore]
    exact .inl ⟨hshort, rfl, htrace⟩
  · next hlong =>
    cases h
    rw [hcore]
    refine .inr ⟨Nat.le_of_not_lt hlong, Core.clauses_insertClause ..,
      w.core.externalImage literals, ?_, Core.map_resolve_externalImage hnames literals,
      Core.mirrors_externalImage_iff hnames⟩
    show w.core.trace.map (·.push (w.core.externalImage literals)) = _
    rw [htrace]
    rfl

/-! ## Main statement -/

/-- In every reachable worker with a tracer, passes hand everything that they derive to the tracer,
as full images, and learning hands over what it stores: as a full image exactly if all literals of
the learned clause have names. -/
theorem derived_clauses_traced {settings : Settings K} (hw : Reachable settings w)
    (htrace : w.core.trace = some traced) :
    (∀ batch, w.TracesPass traced batch) ∧
    ∀ literals glue, w.TracesLearned traced literals glue := by
  have hnames := hw.names.inverse
  exact ⟨tracesPass hw.wellFormed hnames htrace, tracesLearned hnames htrace⟩

/-- Two variables under names of their own, one of them not its number, and a tracer. -/
def renamedVariables : List Operation :=
  [.addVariables 2, .renameVariable 7 .second, .setTracer]

/-- A clause and a unit that comes too late to shrink it. -/
def clauseThenUnit : List (List Int32) := [[2, 1, -7], [-1]]

theorem derived_clauses_traced_renamedVariables :
    Reachable .standard ((blank .standard : Worker Rat).after renamedVariables) ∧
    ((blank .standard : Worker Rat).after renamedVariables).core.trace = some #[] ∧
    ∃ (units : List Literal) (added : List StoredClause) (images : List (List Int32)),
      units.length = 1 ∧ added.length = 1 ∧
      (((blank .standard : Worker Rat).after renamedVariables).runPass
        clauseThenUnit).1.core.trace = some images.toArray ∧
      List.Forall₂ ((blank .standard : Worker Rat).after renamedVariables).core.names.Mirrors images
        (units.map ([·]) ++ added.map (·.literals)) := by
  have hw : Reachable .standard ((blank .standard : Worker Rat).after renamedVariables) :=
    reachable_standard (by decide +kernel)
  have htrace : ((blank .standard : Worker Rat).after renamedVariables).core.trace = some #[] := by
    decide +kernel
  obtain ⟨units, added, images, htrail, hclauses, htraced, hmirrors⟩ :=
    (derived_clauses_traced hw htrace).1 clauseThenUnit
  have hunits : (((blank .standard : Worker Rat).after renamedVariables).runPass
      clauseThenUnit).1.core.assignment.trail.toList.length = 1 := by
    decide +kernel
  have hadded : (((blank .standard : Worker Rat).after renamedVariables).runPass
      clauseThenUnit).1.core.store.clauses.toList.length = 1 := by
    decide +kernel
  have hfresh : ((blank .standard : Worker Rat).after renamedVariables).core.assignment.trail.toList
      = [] ∧ ((blank .standard : Worker Rat).after renamedVariables).core.store.clauses.toList
      = [] := by
    decide +kernel
  rw [htrail, hfresh.1, List.nil_append, List.length_map] at hunits
  rw [hclauses, hfresh.2, List.nil_append] at hadded
  rw [Array.empty_append] at htraced
  exact ⟨hw, htrace, units, added, images, hunits, hadded, htraced, hmirrors⟩

/-- The first variable takes the number of the second one, which is then left without a name. -/
def numberTaken : List Operation :=
  [.addVariables 1, .renameVariable 2 .first, .addVariables 1, .setTracer]

/-- Two literals, of which only the first one has a name. -/
def halfNamed : List Literal := [.ofVariable .first true, .ofVariable .second true]

/-- What is stored is the clause, and what is traced is a unit: a stronger clause, which need not
follow from the formula. -/
theorem learn_traces_stronger :
    Reachable .standard ((blank .standard : Worker Rat).after numberTaken) ∧
    ((blank .standard : Worker Rat).after numberTaken).core.trace = some #[] ∧
    (∃ w' position,
      ((blank .standard : Worker Rat).after numberTaken).learn halfNamed 2 = .ok (w', position) ∧
      w'.core.store.clauses = #[⟨halfNamed, 2, .learned⟩] ∧ w'.core.trace = some #[[2]]) ∧
    ¬ ((blank .standard : Worker Rat).after numberTaken).core.names.Mirrors [2] halfNamed := by
  have hlearn : (((blank .standard : Worker Rat).after numberTaken).learn halfNamed 2).toOption.map
      (fun r => (r.1.core.store.clauses, r.1.core.trace)) =
        some (#[⟨halfNamed, 2, .learned⟩], some #[[2]]) := by
    decide +kernel
  refine ⟨reachable_standard (by decide +kernel), by decide +kernel, ?_, ?_⟩
  · rcases h : ((blank .standard : Worker Rat).after numberTaken).learn halfNamed 2 with
      b | ⟨w', position⟩
    · rw [h] at hlearn
      cases hlearn
    · rw [h] at hlearn
      obtain ⟨hclauses, htrace⟩ := Prod.mk.inj (Option.some.inj hlearn)
      exact ⟨w', position, rfl, hclauses, htrace⟩
  · intro h
    have hlength : 1 = 2 := congrArg List.length h
    cases hlength

end Worker

end ClauseSharing
