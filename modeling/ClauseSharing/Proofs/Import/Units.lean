import ClauseSharing.Proofs.Import.Soundness
import ClauseSharing.Proofs.Worker.WellFormed

/-!
What a pass does to the state of a worker at its root.

While a pass consumes its batch, all it does to the state is to assign units and trace them, one
after the other. Each of them is named and has an active variable without value
(`Core.FixesUnits`, `Pass.fixesUnits_consume`). The chosen clauses are stored and traced afterwards,
which leaves the assignment alone. So what a whole pass does is given by the units that it assigned
and the clauses that it added, each of which the filter left of a payload when the pass came to it
(`Worker.runPass_core`).
-/

namespace ClauseSharing

/-! ## What the filter leaves -/

section Filter

variable {T : Type} [Recipient T] {t : T} {external : Int32} {literal : Literal}

theorem LiteralVerdict.standing_of_eq_kept (h : of t external = .kept literal) :
    Recipient.standing t literal = .active ∨ Recipient.standing t literal = .substituted := by
  unfold of at h
  split at h
  · cases h
  split at h
  · cases h
  · split at h <;> cases h
    · exact .inl (by assumption)
    · exact .inr (by assumption)

/-- Whatever stays of a clause was judged to stay. -/
theorem Survey.of_mem_kept {externals : List Int32}
    (h : (external, literal) ∈ (Survey.of t externals).kept) :
    external ∈ externals ∧ LiteralVerdict.of t external = .kept literal := by
  induction externals with
  | nil => cases h
  | cons e rest ih =>
    rw [Survey.of] at h
    split at h
    · cases h
    · exact (ih h).imp (List.mem_cons_of_mem e) id
    · next l hverdict =>
      rcases List.mem_cons.mp h with hhead | h
      · cases hhead
        exact ⟨List.mem_cons_self, hverdict⟩
      · exact (ih h).imp (List.mem_cons_of_mem e) id

/-- A candidate has two literals or more. -/
theorem Survey.two_le_length_of_candidate {s : Survey} {literals : List Literal}
    (h : s.verdict = .candidate literals) : 2 ≤ literals.length := by
  unfold verdict at h
  split at h <;> cases h
  next hempty hunit =>
  rw [List.length_map]
  match hkept : s.kept with
  | [] => exact absurd hkept hempty
  | [(e, l)] => exact absurd hkept (hunit e l)
  | _ :: _ :: _ => exact Nat.le_add_left ..

end Filter

/-! ## Units -/

namespace Core

variable {c before after final : Core} {units later : List Literal}

/-- At the root, a literal that takes part and is not fixed has no value. -/
theorem WellFormed.free_of_active (h : c.WellFormed) (root : c.assignment.level = 0) {l : Literal}
    (hstanding : c.standingOf l = .active) :
    c.stateOf l.var = .active ∧ c.assignment.value l.var = none := by
  unfold standingOf at hstanding
  split at hstanding
  · cases hstanding
  · cases hstanding
  next hactive =>
  refine ⟨hactive, ?_⟩
  split at hstanding
  · cases hstanding
  next hunfixed =>
  apply Option.eq_none_iff_forall_ne_some.mpr
  intro b hb
  obtain ⟨e, he, hlit⟩ := (h.assignment.value_iff l.var b).mp hb
  obtain ⟨p, hp⟩ := Array.mem_iff_getElem?.mp he
  have hlevel := h.assignment.levelOf_eq p e hp
  rw [hlit, Literal.var_ofVariable] at hlevel
  exact hunfixed (hlevel.trans (congrArg some (Assignment.levelAt_of_root root p)))

/-- From a state at the root, units have been assigned and traced, one after the other, and nothing
else has happened. Each of them is named, and had an active variable without value. -/
structure FixesUnits (before after : Core) (units : List Literal) : Prop where
  trail : after.assignment.trail.toList =
    before.assignment.trail.toList ++ units.map (⟨·, .propagation⟩)
  starts : after.assignment.levelStarts = before.assignment.levelStarts
  trace : after.trace =
    before.trace.map (· ++ (units.map fun l => before.externalImage [l]).toArray)
  states : after.states = before.states
  inactive : after.inactive = before.inactive
  names : after.names = before.names
  forbidden : after.forbidden = before.forbidden
  store : after.store = before.store
  refuted : after.refuted = before.refuted
  takeable : ∀ l ∈ units, before.assignment.value l.var = none ∧
    before.stateOf l.var = .active ∧ ∃ external, before.names.resolve external = some l
  wellFormed : after.WellFormed

namespace FixesUnits

theorem refl (h : c.WellFormed) : FixesUnits c c [] where
  trail := by simp
  starts := rfl
  trace := by simp
  states := rfl
  inactive := rfl
  names := rfl
  forbidden := rfl
  store := rfl
  refuted := rfl
  takeable := nofun
  wellFormed := h

theorem stateOf_eq (h : FixesUnits before after units) (v : Variable) :
    after.stateOf v = before.stateOf v :=
  congrArg (·.getD v .active) h.states

theorem externalImage_eq (h : FixesUnits before after units) (literals : List Literal) :
    after.externalImage literals = before.externalImage literals :=
  congrArg (fun names : Names => literals.filterMap names.nameOf) h.names

theorem root_iff (h : FixesUnits before after units) :
    after.assignment.level = 0 ↔ before.assignment.level = 0 := by
  rw [Assignment.level, Assignment.level, h.starts]

/-- A variable has a value exactly if it had one or is that of a unit. -/
theorem value_ne_none_iff (h : FixesUnits before after units) (hbefore : before.WellFormed)
    {v : Variable} : after.assignment.value v ≠ none ↔
      before.assignment.value v ≠ none ∨ ∃ l ∈ units, l.var = v := by
  have hassigned {c : Core} (hc : c.WellFormed) : c.assignment.value v ≠ none ↔
      ∃ e ∈ c.assignment.trail.toList, e.literal.var = v := by
    rw [Option.ne_none_iff_exists']
    constructor
    · rintro ⟨b, hb⟩
      obtain ⟨e, he, hlit⟩ := (hc.assignment.value_iff v b).mp hb
      exact ⟨e, Array.mem_toList_iff.mpr he, by rw [hlit, Literal.var_ofVariable]⟩
    · rintro ⟨e, he, rfl⟩
      exact ⟨_, hc.assignment.value_of_mem (Array.mem_toList_iff.mp he)⟩
  rw [hassigned h.wellFormed, hassigned hbefore, h.trail]
  simp only [List.mem_append, List.mem_map, or_and_right, exists_or]
  refine or_congr Iff.rfl ⟨?_, ?_⟩
  · rintro ⟨_, ⟨l, hl, rfl⟩, hv⟩
    exact ⟨l, hl, hv⟩
  · rintro ⟨l, hl, hv⟩
    exact ⟨_, ⟨l, hl, rfl⟩, hv⟩

/-- Assigning one more unit that can be taken. -/
theorem fix (h : FixesUnits before after units) (hbefore : before.WellFormed)
    (root : before.assignment.level = 0) {external : Int32} {l : Literal}
    (taken : unitToAssign after external = some l) :
    FixesUnits before (after.fix l) (units ++ [l]) := by
  have hwellFormed := h.wellFormed.fix taken
  obtain ⟨hresolve, hstanding⟩ := unitToAssign_eq_some taken
  obtain ⟨hactive, hfree⟩ := h.wellFormed.free_of_active (h.root_iff.mpr root) hstanding
  have hfix : after.fix l = { after with
      assignment := after.assignment.push l .propagation
      trace := after.trace.map (·.push (after.externalImage [l])) } := by
    rw [Core.fix, assign_of_free hfree]
    rfl
  have hunassigned : before.assignment.value l.var = none := by
    by_contra hvalue
    exact (h.value_ne_none_iff hbefore).mpr (.inl hvalue) hfree
  rw [hfix] at hwellFormed ⊢
  refine { h with trail := ?_, trace := ?_, takeable := fun m hm => ?_, wellFormed := hwellFormed }
  · simp only [Assignment.push, Array.toList_push, h.trail, List.map_append, List.append_assoc]
    rfl
  · simp only [h.trace, h.externalImage_eq, Option.map_map, List.map_append]
    congr 1
    funext t
    simp
  · rcases List.mem_append.mp hm with hm | hm
    · exact h.takeable m hm
    · rw [List.mem_singleton.mp hm, ← h.stateOf_eq, ← h.names]
      exact ⟨hunassigned, hactive, external, hresolve⟩

end FixesUnits

end Core

namespace Pass

variable {K : Type}

/-- Consuming a batch at the root assigns some units. -/
theorem fixesUnits_consume {p : Pass Core K} (hcore : p.recipient.WellFormed)
    (root : p.recipient.assignment.level = 0) (batch : List (List Int32)) :
    ∃ units, Core.FixesUnits p.recipient (p.consume batch).1.recipient units := by
  refine consume_induction (I := fun q => ∃ units, Core.FixesUnits p.recipient q.recipient units)
    (P := fun _ => True) (fun _ h => h) (fun q _ offer _ _ h => ?_) (fun _ _ h => h)
    ⟨[], .refl hcore⟩ (fun _ _ => trivial)
  obtain ⟨units, hunits⟩ := h
  have htakes := takes_take q offer
  generalize (q.take offer).recipient = t, (q.take offer).candidates = queue at htakes ⊢
  cases htakes with
  | passed | queued => exact ⟨units, hunits⟩
  | fixed tried taken => exact ⟨_, hunits.fix hcore root taken⟩

/-- Whatever a pass at the root comes to, it has assigned some units. -/
theorem ComesTo.fixesUnits {p m : Pass Core K} {batch rest : List (List Int32)}
    {payload : List Int32} (h : p.ComesTo batch m payload rest) (hcore : p.recipient.WellFormed)
    (root : p.recipient.assignment.level = 0) :
    ∃ units, Core.FixesUnits p.recipient m.recipient units := by
  obtain ⟨before, -, hbefore⟩ := h
  have hunits := fixesUnits_consume hcore root before
  rwa [hbefore] at hunits

/-- All literals that the filter leaves are named. -/
theorem Leaves.exists_resolve {c : Core} {payload : List Int32} {d : Candidate}
    (h : Leaves c payload d) {l : Literal} (hl : l ∈ d.literals) :
    ∃ external, c.names.resolve external = some l := by
  obtain ⟨externals, -, hverdict⟩ := h
  rw [(Survey.verdict_eq_candidate hverdict).2] at hl
  obtain ⟨⟨external, _⟩, hkept, rfl⟩ := List.mem_map.mp hl
  exact ⟨external, LiteralVerdict.of_eq_kept (Survey.of_mem_kept hkept).2⟩

/-- What the filter leaves are clauses of two or more registered literals. -/
theorem Leaves.registered {before c : Core} {payload : List Int32} {d : Candidate}
    (h : Leaves c payload d) (hnames : c.names = before.names) (hbefore : before.WellFormed) :
    2 ≤ d.literals.length ∧ ∀ l ∈ d.literals, before.registered l.var = true := by
  refine ⟨?_, fun l hl => ?_⟩
  · obtain ⟨_, -, hverdict⟩ := h
    exact Survey.two_le_length_of_candidate hverdict
  · obtain ⟨external, hresolve⟩ := h.exists_resolve hl
    rw [hnames] at hresolve
    exact hbefore.registered_of_resolve hresolve

end Pass

/-! ## Whole passes -/

namespace Worker

variable {K R : Type} [Scalar K]

/-- A pass leaves the shared state alone, or runs the selector on it at the root. -/
theorem runPass_core_cases (w : Worker K R) (batch : List (List Int32)) :
    (w.runPass batch).1.core = w.core ∨
    (w.level = 0 ∧ ∃ probabilities,
      (w.runPass batch).1.core = (w.selector.run probabilities w.core batch).1) := by
  unfold runPass
  split
  · exact .inl rfl
  next hroot =>
  split
  · exact .inl rfl
  · next w₁ hcatch =>
    obtain ⟨s, -, hw⟩ := bind_eq_ok_iff.mp hcatch
    cases hw
    exact .inr ⟨Decidable.not_not.mp hroot, s.probabilities, rfl⟩

/-- When a pass of a worker at its root came to the payload as `m`, the filter left the candidate of
it, and `later` are the units that were assigned from then on, up to the state `consumed`. -/
structure Admits (w : Worker K R) (batch : List (List Int32)) (consumed : Core) (d : Candidate)
    (m : Pass Core K) (payload : List Int32) (later : List Literal) : Prop where
  root : w.level = 0
  comes : ∃ rest, (Pass.start w.core).ComesTo batch m payload rest
  leaves : Pass.Leaves m.recipient payload d
  before : ∃ earlier, Core.FixesUnits w.core m.recipient earlier
  after : Core.FixesUnits m.recipient consumed later

/-- However a pass of a worker ends, it has assigned some units and then added some candidates that
the filter left of its payloads. -/
theorem runPass_core {w : Worker K R} (hcore : w.core.WellFormed) (batch : List (List Int32)) :
    ∃ (consumed : Core) (units : List Literal) (added : List Candidate) (store : ClauseStore),
      Core.FixesUnits w.core consumed units ∧
      (w.runPass batch).1.core = { consumed with
        store := store
        trace := consumed.trace.map
          (· ++ (added.map fun d => consumed.externalImage d.literals).toArray) } ∧
      store.clauses.toList = w.core.store.clauses.toList ++
        added.map (fun d => ⟨d.literals, d.glue, .imported⟩) ∧
      ∀ d ∈ added, ∃ m payload later, w.Admits batch consumed d m payload later := by
  rcases w.runPass_core_cases batch with hself | ⟨root, probabilities, hpass⟩
  · refine ⟨w.core, [], [], w.core.store, .refl hcore, ?_, by simp, nofun⟩
    rw [hself]
    cases w.core
    simp
  obtain ⟨units, hunits⟩ :=
    Pass.fixesUnits_consume (p := (Pass.start w.core : Pass Core K)) hcore root batch
  obtain ⟨added, hadded, hrun⟩ := w.selector.run_recipient probabilities w.core batch
  obtain ⟨store, hadopt, hclauses⟩ :=
    Core.foldl_adopt added ((Pass.start w.core : Pass Core K).consume batch).1.recipient
  refine ⟨_, units, added, store, hunits, hpass.trans (hrun.trans hadopt), ?_, fun d hd => ?_⟩
  · rw [hclauses, hunits.store]
    rfl
  · -- The queue was empty at the start, so the candidate came from a payload.
    rcases Pass.mem_candidates_consume (hadded d hd) with
      hqueue | ⟨m, payload, rest, hcomes, hleaves⟩
    · cases (Array.mem_toList_iff.mpr hqueue)
    obtain ⟨earlier, hearlier⟩ := hcomes.fixesUnits hcore root
    obtain ⟨later, hlater⟩ := Pass.fixesUnits_consume hearlier.wellFormed
      (hearlier.root_iff.mpr root) (payload :: rest)
    rw [← hcomes.consume_eq] at hlater
    exact ⟨m, payload, later, root, ⟨rest, hcomes⟩, hleaves, ⟨earlier, hearlier⟩, hlater⟩

end Worker

end ClauseSharing
