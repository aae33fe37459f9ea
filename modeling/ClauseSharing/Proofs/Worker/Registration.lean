import ClauseSharing.Proofs.Import.Safety
import ClauseSharing.Proofs.Worker.Store

/-!
Which literals of a stored clause are registered.

A clause of two literals or more is stored exactly if its first two are registered: these are looked
up for the watchers, and a look-up of an unregistered variable is a breach
(`Worker.assertClause_of_long`). The check of completion looks up every literal of every clause of
the formula. So a literal beyond the first two that is unregistered is stored without a breach, and
the worker breaches later, when all registered variables are assigned (`thirdLiteral_is_stored`).

A variable stays registered (`Worker.registered_after`), and a clause stays as it was stored. If
the literals that asserting leaves unchecked are registered, then nothing that follows can fail on a
stored clause. The main statement is `Worker.stored_clause_is_registered`.
-/

namespace ClauseSharing

namespace ClauseStore.Grows

/-- Places for watchers stay. -/
theorem size_le {s t : ClauseStore} (h : s.Grows t) : s.watchers.size ≤ t.watchers.size := by
  induction h with
  | refl => exact Nat.le_refl _
  | @register t _ n ih =>
    have hsize : (t.register n).watchers.size = t.watchers.size + n := PerVariable.size_extend ..
    exact ih.trans (hsize ▸ Nat.le_add_right ..)
  | add _ _ ih => exact ih.trans (Nat.le_of_eq (size_add ..).symm)

end ClauseStore.Grows

namespace Worker

variable {K R : Type} [Scalar K] {w w' : Worker K R} {settings : Settings K}

/-! ## Long clauses -/

variable {literals : List Literal}

omit [Scalar K] in
/-- The worker with one more stored clause of the formula. -/
def storeInput (w : Worker K R) (literals : List Literal) : Worker K R :=
  { w with core := w.core.insertClause ⟨literals, literals.length, .input⟩ }

/-- At the root, a clause of two literals or more is stored under the next identifier exactly if its
first two literals are registered. -/
theorem assertClause_of_long (root : w.level = 0) (long : 2 ≤ literals.length) :
    w.assertClause literals =
      if ∀ l ∈ literals.take 2, w.core.registered l.var = true then
        .ok (w.storeInput literals, .ok (some w.core.store.clauses.size))
      else .error .unregistered := by
  match literals with
  | [] | [_] => exact absurd long (by simp)
  | first :: second :: rest =>
    have hchecked : (∀ l ∈ (first :: second :: rest).take 2, w.core.registered l.var = true) ↔
        w.core.registered first.var = true ∧ w.core.registered second.var = true := by
      simp
    rw [assertClause, if_neg (not_not_intro root), Core.require, Core.require]
    by_cases hfirst : w.core.registered first.var = true
    · by_cases hsecond : w.core.registered second.var = true
      · rw [if_pos hfirst, if_pos hsecond, if_pos (hchecked.mpr ⟨hfirst, hsecond⟩)]
        rfl
      · rw [if_pos hfirst, if_neg hsecond, if_neg fun h => hsecond (hchecked.mp h).2]
        rfl
    · rw [if_neg hfirst, if_neg fun h => hfirst (hchecked.mp h).1]
      rfl

theorem assertClause_eq_stored_iff (root : w.level = 0) (long : 2 ≤ literals.length) {id : Nat} :
    w.assertClause literals = .ok (w', .ok (some id)) ↔
      (∀ l ∈ literals.take 2, w.core.registered l.var = true) ∧
        id = w.core.store.clauses.size ∧ w' = w.storeInput literals := by
  rw [assertClause_of_long root long]
  split
  · next hchecked =>
    constructor
    · intro h
      cases h
      exact ⟨hchecked, rfl, rfl⟩
    · rintro ⟨-, rfl, rfl⟩
      rfl
  · next hunchecked => exact ⟨nofun, fun h => absurd h.1 hunchecked⟩

variable [Recorder R K]

theorem Reachable.asserted (hw : Reachable settings w) {r : Except Refusal (Option Nat)}
    (h : w.assertClause literals = .ok (w', r)) : Reachable settings w' :=
  hw.settles (.assertClause literals) (fun _ => rfl) (congrArg (w.settle .stored) h)

/-! ## Along a run -/

/-- A variable stays registered. -/
theorem registered_after (hw : Reachable settings w) {ops : List (Operation R)}
    (hops : w.Completes ops) {v : Variable} (hv : w.core.registered v = true) :
    (w.after ops).core.registered v = true := by
  have hbefore : w.core.store.watchers.size = w.core.size := hw.watchable
  have hafter : (w.after ops).core.store.watchers.size = (w.after ops).core.size :=
    (hw.after hops).watchable
  refine Core.registered_of_size_le ?_ hv
  rw [← hbefore, ← hafter]
  exact (grows_after hw hops).size_le

/-! ## Main statement -/

/-- Take any reachable worker at the root and a clause of two literals or more. A literal beyond the
first two may have a variable above those of the first two; let each such literal be registered.
Then the clause is stored exactly if all its literals are registered. Whatever run without breach
follows, the identifier resolves to the clause, its literals are registered, and checking it for
satisfaction answers. If all other clauses of the formula are asserted in the same way, then the
check of completion answers, and passes answer with a report or a refusal. -/
theorem stored_clause_is_registered (hw : Reachable settings w) (root : w.level = 0)
    (long : 2 ≤ literals.length)
    (hrest : ∀ l ∈ uncheckedLiterals literals, w.core.registered l.var = true) :
    ((∃ w' id, w.assertClause literals = .ok (w', .ok (some id))) ↔
      ∀ l ∈ literals, w.core.registered l.var = true) ∧
    ∀ w' id, w.assertClause literals = .ok (w', .ok (some id)) →
      ∀ ops, w'.Completes ops →
        (w'.after ops).core.store.resolve id = some ⟨literals, literals.length, .input⟩ ∧
        (∀ l ∈ literals, (w'.after ops).core.registered l.var = true) ∧
        (∃ b, (w'.after ops).core.clauseSatisfied literals = .ok b) ∧
        (w.core.InputsRegistered → w'.AssertsRegistered ops →
          (w'.after ops).core.InputsRegistered ∧
          (∃ b, (w'.after ops).core.isComplete = .ok b) ∧
          ∀ batch, (∃ report, ((w'.after ops).runPass batch).2 = .ok report) ∨
            ∃ refusal, ((w'.after ops).runPass batch).2 = .error (.refused refusal)) := by
  constructor
  · constructor
    · rintro ⟨w', id, h⟩
      exact Core.registered_of_checked ((assertClause_eq_stored_iff root long).mp h).1 hrest
    · intro hregistered
      exact ⟨_, _, (assertClause_eq_stored_iff root long).mpr
        ⟨fun l hl => hregistered l (List.mem_of_mem_take hl), rfl, rfl⟩⟩
  intro w' id h ops hops
  have hw' : Reachable settings w' := hw.asserted h
  obtain ⟨hchecked, rfl, rfl⟩ := (assertClause_eq_stored_iff root long).mp h
  have hregistered := Core.registered_of_checked hchecked hrest
  have hlater := hw'.after hops
  have hstays : ∀ l ∈ literals,
      ((w.storeInput literals).after ops).core.registered l.var = true := fun l hl =>
    registered_after hw' hops (Core.registered_of_size_le
      (Nat.le_of_eq (Core.size_insertClause ..).symm) (hregistered l hl))
  refine ⟨(grows_after hw' hops).resolve ?_, hstays,
    hlater.wellFormed.exists_clauseSatisfied_eq_ok hstays, fun hinputs hasserts => ?_⟩
  · show (w.core.insertClause ⟨literals, literals.length, .input⟩).store.clauses[_]? = _
    rw [Core.clauses_insertClause, Array.getElem?_push_size]
  have hnow : (w.storeInput literals).core.InputsRegistered :=
    hinputs.insertClause fun _ => hregistered
  have hafter := inputsRegistered_of_asserts hw'.records_size hnow hops hasserts
  exact ⟨hafter, hlater.wellFormed.exists_isComplete_eq_ok hafter,
    runPass_answers hlater.wellFormed hafter hlater.timed.exists_catchUpAll⟩

/-- A worker that has just registered its variables. -/
def withVariables (n : Nat) : Worker Rat := (blank .standard).after [.addVariables n]

/-- Three literals, and the last one is left unchecked. -/
def firstThree : List Literal :=
  [.ofVariable .first true, .ofVariable .second true, .ofVariable .third true]

/-- The first two of the literals are made false. -/
def falsifyTwo : List Operation :=
  [.assign (.ofVariable .first false), .assign (.ofVariable .second false)]

theorem stored_clause_is_registered_firstThree :
    Reachable .standard (withVariables 3) ∧
    uncheckedLiterals firstThree = [.ofVariable .third true] ∧
    (withVariables 3).assertClause firstThree =
      .ok ((withVariables 3).storeInput firstThree, .ok (some 0)) ∧
    (∀ l ∈ firstThree,
      (((withVariables 3).storeInput firstThree).after falsifyTwo).core.registered l.var = true) ∧
    ∃ b, (((withVariables 3).storeInput firstThree).after falsifyTwo).core.isComplete = .ok b := by
  have hw : Reachable .standard (withVariables 3) := reachable_standard (by decide +kernel)
  have hroot : (withVariables 3).level = 0 := by decide +kernel
  have hlong : 2 ≤ firstThree.length := by decide
  have hstored : (withVariables 3).assertClause firstThree =
      .ok ((withVariables 3).storeInput firstThree, .ok (some 0)) :=
    (assertClause_eq_stored_iff hroot hlong).mpr ⟨by decide +kernel, by decide +kernel, rfl⟩
  obtain ⟨-, hlater⟩ := stored_clause_is_registered hw hroot hlong (by decide +kernel)
  obtain ⟨-, hregistered, -, hothers⟩ := hlater _ _ hstored falsifyTwo (by decide +kernel)
  have hnone : (withVariables 3).core.InputsRegistered :=
    inputsRegistered_of_asserts rfl .empty (by decide +kernel) (by decide +kernel)
  obtain ⟨-, hcomplete, -⟩ := hothers hnone (by decide +kernel)
  exact ⟨hw, by decide +kernel, hstored, hregistered, hcomplete⟩

/-- An unregistered literal beyond the first two is stored. When all registered variables are
assigned, the check of completion and a pass breach on it. -/
theorem thirdLiteral_is_stored :
    Reachable .standard (withVariables 2) ∧ (withVariables 2).level = 0 ∧
    (withVariables 2).assertClause firstThree =
      .ok ((withVariables 2).storeInput firstThree, .ok (some 0)) ∧
    (withVariables 2).core.registered .third = false ∧
    ((withVariables 2).storeInput firstThree).Completes falsifyTwo ∧
    (((withVariables 2).storeInput firstThree).after falsifyTwo).core.isComplete =
      .error .unregistered ∧
    ((((withVariables 2).storeInput firstThree).after falsifyTwo).runPass []).2 =
      .error (.breach .unregistered) := by
  have hroot : (withVariables 2).level = 0 := by decide +kernel
  exact ⟨reachable_standard (by decide +kernel), hroot,
    (assertClause_eq_stored_iff hroot (by decide)).mpr ⟨by decide +kernel, by decide +kernel, rfl⟩,
    by decide +kernel, by decide +kernel, by decide +kernel, by decide +kernel⟩

end Worker

end ClauseSharing
