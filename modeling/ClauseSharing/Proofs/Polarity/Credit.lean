import ClauseSharing.Proofs.Import.Consumption
import ClauseSharing.Proofs.Polarity.CatchUp
import ClauseSharing.Proofs.Worker.Effect

/-!
Which ticks the operations of a worker credit to which values.

A conflict moves the tick on and a registration adds records. Every other operation catches up the
records of some variables and changes the values of these variables only (`Worker.Credits`), so no
tick is ever credited to a value that the variable did not have.
-/

namespace ClauseSharing

variable {K R : Type} [Scalar K]

namespace Worker

/-- From `w` to `w'`, time stands still, the records of `vs` are caught up, and no other variable
that has a record changes its value. -/
structure Credits (w w' : Worker K R) (vs : List Variable) : Prop where
  tick_eq : w'.tick = w.tick
  size_eq : w'.size = w.size
  catchesUp : Stability.CatchesUp w.stability w'.stability vs w.tick w.core.assignment.value
  value_eq : ∀ v, w.stability.records.has v = true → v ∉ vs →
    w'.core.assignment.value v = w.core.assignment.value v

variable {w w' : Worker K R} {s : Stability K}

/-- An operation that touches neither the assignment nor the records credits nothing. -/
theorem credits_nil (hc : w.stability.CacheValid) (htick : w'.tick = w.tick)
    (hstability : w'.stability = w.stability)
    (hassignment : w'.core.assignment = w.core.assignment) : Credits w w' [] where
  tick_eq := htick
  size_eq := congrArg (·.values.size) hassignment
  catchesUp := hstability ▸ .refl hc w.tick _
  value_eq v _ _ := congrArg (·.value v) hassignment

theorem credits_decide (hc : w.stability.CacheValid) {l : Literal}
    (caught : w.stability.catchUp l.var w.tick (w.core.assignment.value l.var) = .ok s) :
    Credits w
      { w with core.assignment := w.core.assignment.openLevel.push l .decision, stability := s }
      [l.var] where
  tick_eq := rfl
  size_eq := Assignment.size_push ..
  catchesUp := Stability.catchesUp_of_catchUp hc caught
  value_eq _ _ hv :=
    Assignment.value_push_of_ne (a := w.core.assignment.openLevel)
      (fun e => hv (List.mem_singleton.mpr e)) .decision

theorem credits_assign (hc : w.stability.CacheValid) {l : Literal}
    (caught : w.stability.catchUp l.var w.tick (w.core.assignment.value l.var) = .ok s) :
    Credits w { w with core := (w.core.assign l .propagation).1, stability := s } [l.var] := by
  refine ⟨rfl, Core.size_assign .., Stability.catchesUp_of_catchUp hc caught, fun v _ hv => ?_⟩
  have hne : v ≠ l.var := fun e => hv (List.mem_singleton.mpr e)
  rcases w.core.assign_cases l .propagation with ⟨-, heq⟩ | ⟨-, heq⟩ | ⟨-, heq⟩
  · rw [heq]
  · rw [heq]
  · rw [heq]
    exact Assignment.value_push_of_ne hne .propagation

/-- Unassigning the entries of the trail above a level, all of which were caught up. -/
theorem credits_backtrack (hc : w.stability.CacheValid) {level start : Nat}
    (caught : w.stability.catchUpEach ((w.core.assignment.above start).map (·.literal.var)) w.tick
      w.core.assignment.value = .ok s) :
    Credits w { w with core.assignment := w.core.assignment.cut level start, stability := s }
      ((w.core.assignment.above start).map (·.literal.var)) where
  tick_eq := rfl
  size_eq := Assignment.size_cut ..
  catchesUp := Stability.catchesUp_of_catchUpEach hc caught
  value_eq _ _ hv := (Assignment.value_cut ..).trans (if_neg hv)

/-- Whatever becomes of the values after all records were caught up. -/
theorem credits_all (hc : w.stability.CacheValid)
    (hsize : w.stability.records.size ≤ Variable.maxCount) (core : Core)
    (hcore : core.size = w.core.size)
    (caught : w.stability.catchUpAll w.tick w.core.assignment.value = .ok s) :
    ∃ vs, Credits w { w with core := core, stability := s } vs := by
  refine ⟨_, rfl, hcore, Stability.catchesUp_of_catchUpEach hc caught, ?_⟩
  intro v hr hv
  exact absurd (PerVariable.mem_variables hsize hr) hv

/-- A pass registers no variables. -/
theorem size_run (s : Selector K) (probabilities : LiteralLikelihood K) (c : Core)
    (batch : List (List Int32)) : (s.run probabilities c batch).1.size = c.size :=
  Selector.run_induction (P := fun d : Core => d.size = c.size)
    (fun d _ l _ h => (Core.size_fix d l).trans h)
    (fun d _ h => (Core.size_insertClause d _).trans h) s probabilities rfl batch

/-- An operation without breach counts a conflict, registers variables, or credits. -/
theorem Effect.timing {op : Operation R} (h : Effect w op w') (hc : w.stability.CacheValid)
    (hsize : w.stability.records.size ≤ Variable.maxCount) :
    (op.isConflict = false ∧ ∃ vs, Credits w w' vs) ∨
    (op = .conflict ∧ w.tick + 1 < 0x8000000000000000 ∧ w' = { w with tick := w.tick + 1 }) ∨
    ∃ n samples, op = .addVariables n ∧ w.size + n ≤ Variable.maxCount ∧
      w' = { w with
        core := w.core.register n
        stability := { w.stability with
          records := w.stability.records.extend n (.fresh w.stability.rate w.tick) }
        samples := samples } := by
  cases h with
  | still timeless htick hstability hassignment =>
    exact .inl ⟨timeless, [], credits_nil hc htick hstability hassignment⟩
  | counts fits => exact .inr (.inl ⟨rfl, fits, rfl⟩)
  | registers fits => exact .inr (.inr ⟨_, _, rfl, fits, rfl⟩)
  | assigns timeless caught => exact .inl ⟨timeless, _, credits_assign hc caught⟩
  | decides _ caught => exact .inl ⟨rfl, _, credits_decide hc caught⟩
  | backjumps _ caught => exact .inl ⟨rfl, _, credits_backtrack hc caught⟩
  | catchesUp caught => exact .inl ⟨rfl, credits_all hc hsize w.core rfl caught⟩
  | passes _ caught =>
    exact .inl ⟨rfl, credits_all hc hsize _ (size_run w.selector _ w.core _) caught⟩

end Worker

end ClauseSharing
