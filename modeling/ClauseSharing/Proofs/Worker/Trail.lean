import ClauseSharing.Proofs.Import.Consumption
import ClauseSharing.Proofs.Valuation
import ClauseSharing.Proofs.Worker.Effect

/-!
The trail accounts for the values.

Whatever a run does, a variable has a value only through an entry of the trail
(`Worker.Reachable.backed`). So what is known of the literals on the trail is known of the values.
-/

namespace ClauseSharing

namespace Assignment

/-- Every assigned variable is on the trail with its value. -/
def Backed (a : Assignment) : Prop :=
  ∀ v b, a.value v = some b → ∃ e ∈ a.trail, e.literal = Literal.ofVariable v b

theorem backed_empty : Backed .empty := nofun

theorem Backed.register {a : Assignment} (h : a.Backed) (n : Nat) : (a.register n).Backed :=
  fun v b hv => h v b (value_register a n v ▸ hv)

theorem Backed.openLevel {a : Assignment} (h : a.Backed) : a.openLevel.Backed := h

theorem Backed.push {a : Assignment} (h : a.Backed) (l : Literal) (reason : Reason) :
    (a.push l reason).Backed := by
  intro v b hv
  rw [value_push] at hv
  split at hv
  · next hl =>
    cases hv
    refine ⟨⟨l, reason⟩, Array.mem_push_self, ?_⟩
    rw [← hl.1, Literal.ofVariable_var]
  · obtain ⟨e, he, hlit⟩ := h v b hv
    exact ⟨e, Array.mem_push_of_mem _ he, hlit⟩

theorem mem_trail_cut {a : Assignment} {level start : Nat} {e : TrailItem} :
    e ∈ (a.cut level start).trail ↔ e ∈ a.trail.toList.take start := by
  rw [← Array.mem_toList_iff, toList_trail_cut]

theorem Backed.cut {a : Assignment} (h : a.Backed) (level start : Nat) :
    (a.cut level start).Backed := by
  intro v b hv
  rw [value_cut] at hv
  split at hv
  · cases hv
  · next hkept =>
    obtain ⟨e, he, hlit⟩ := h v b hv
    refine ⟨e, mem_trail_cut.mpr ?_, hlit⟩
    rw [← Array.mem_toList_iff, ← List.take_append_drop start a.trail.toList] at he
    rcases List.mem_append.mp he with he | he
    · exact he
    · -- An entry that is cut off would have taken the value with it.
      refine absurd (List.mem_map.mpr ⟨e, he, ?_⟩) hkept
      rw [hlit, Literal.var_ofVariable]

/-- A valuation that makes the trail true agrees with all values. -/
theorem Backed.valuation_eq {a : Assignment} (h : a.Backed) {μ : Valuation}
    (htrail : ∀ e ∈ a.trail, μ.MakesTrue e.literal) {v : Variable} {b : Bool}
    (hv : a.value v = some b) : μ v = b := by
  obtain ⟨e, he, hlit⟩ := h v b hv
  exact Valuation.makesTrue_ofVariable.mp (hlit ▸ htrail e he)

/-- Under such a valuation, a literal is false if its variable has the opposite value. -/
theorem Backed.not_makesTrue {a : Assignment} (h : a.Backed) {μ : Valuation}
    (htrail : ∀ e ∈ a.trail, μ.MakesTrue e.literal) {l : Literal}
    (hvalue : a.value l.var = some !l.isPositive) : ¬ μ.MakesTrue l := by
  rw [Valuation.MakesTrue, h.valuation_eq htrail hvalue]
  cases l.isPositive <;> decide

end Assignment

namespace Core

theorem backed_assign {c : Core} (h : c.assignment.Backed) (l : Literal) (reason : Reason) :
    (c.assign l reason).1.assignment.Backed := by
  rcases c.assign_cases l reason with ⟨-, heq⟩ | ⟨-, heq⟩ | ⟨-, heq⟩
  all_goals rw [heq]
  · exact h
  · exact h
  · exact h.push l reason

theorem backed_insertClause {c : Core} (h : c.assignment.Backed) (clause : StoredClause) :
    (c.insertClause clause).assignment.Backed :=
  (assignment_insertClause c clause).symm ▸ h

end Core

namespace Worker

variable {K R : Type} [Scalar K] {w w' : Worker K R}

theorem Effect.backed {op : Operation R} (heffect : Effect w op w')
    (h : w.core.assignment.Backed) : w'.core.assignment.Backed := by
  cases heffect with
  | still _ _ _ heq => exact heq ▸ h
  | counts | catchesUp => exact h
  | registers => exact h.register _
  | assigns => exact Core.backed_assign h _ _
  | decides => exact h.openLevel.push _ _
  | backjumps => exact h.cut _ _
  | passes =>
    exact Selector.run_induction (P := fun c : Core => c.assignment.Backed)
      (fun _ _ l _ hc => Core.backed_assign hc l .propagation)
      (fun _ _ hc => Core.backed_insertClause hc _) _ _ h _

variable [Recorder R K]

/-- In every reachable worker, the trail accounts for all values. -/
theorem Reachable.backed {settings : Settings K} (h : Reachable settings w) :
    w.core.assignment.Backed := by
  refine h.induction (P := fun w => w.core.assignment.Backed) (fun w hw => ?_)
    fun w op hbacked hop => (effect_step hop).backed hbacked
  obtain ⟨-, rfl⟩ := create_eq_ok_iff.mp hw
  exact Assignment.backed_empty

end Worker

end ClauseSharing
