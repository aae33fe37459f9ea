import ClauseSharing.Dimacs.FormulaBuilder
import ClauseSharing.Proofs.Valuation
import Mathlib.Data.List.Nodup

/-!
The normal form of clauses.

`normalizedClause` keeps the literals of a clause and lists them in strictly ascending order,
whichever way they are sorted (`eraseReps_eq_normalizedClause`). The order goes by variables
(`Literal.le_iff`). Therefore a complementary pair stands side by side in the normal form
(`hasNeighbours_normalizedClause`), and a normal form without one names no variable twice.
-/

namespace ClauseSharing

/-! ## Erasing repetitions -/

section EraseReps

variable {α : Type} [DecidableEq α]

theorem eraseReps_cons_cons (a b : α) (rest : List α) :
    (a :: b :: rest).eraseReps =
      if a = b then (b :: rest).eraseReps else a :: (b :: rest).eraseReps := by
  have hloop (a : α) (rest acc : List α) :
      List.eraseRepsBy.loop (· == ·) a rest acc =
        acc.reverse ++ List.eraseRepsBy.loop (· == ·) a rest [] := by
    induction rest generalizing a acc with
    | nil => simp [List.eraseRepsBy.loop]
    | cons b rest ih =>
      simp only [List.eraseRepsBy.loop]
      split
      · exact ih a acc
      · rw [ih b (a :: acc), ih b [a]]
        simp
  by_cases h : a = b
  · subst h
    simp [List.eraseReps, List.eraseRepsBy, List.eraseRepsBy.loop]
  · simp only [List.eraseReps, List.eraseRepsBy, List.eraseRepsBy.loop, beq_false_of_ne h, if_neg h]
    exact hloop b rest [a]

theorem mem_eraseReps {x : α} {xs : List α} : x ∈ xs.eraseReps ↔ x ∈ xs := by
  induction xs with
  | nil => rfl
  | cons a rest ih =>
    cases rest with
    | nil => rfl
    | cons b rest =>
      rw [eraseReps_cons_cons]
      split
      · next h =>
        subst h
        rw [ih]
        simp
      · rw [List.mem_cons, ih, ← List.mem_cons]

/-- In a list in ascending order, equal elements stand together, so that none is left twice. -/
theorem pairwise_eraseReps {r : α → α → Prop} (antisymm : ∀ a b, r a b → r b a → a = b)
    {xs : List α} (h : xs.Pairwise r) : xs.eraseReps.Pairwise fun a b => r a b ∧ a ≠ b := by
  induction xs with
  | nil => exact .nil
  | cons a rest ih =>
    cases rest with
    | nil => exact List.pairwise_singleton _ a
    | cons b rest =>
      obtain ⟨hhead, htail⟩ := List.pairwise_cons.mp h
      rw [eraseReps_cons_cons]
      split
      · exact ih htail
      · next hne =>
        refine List.pairwise_cons.mpr ⟨fun c hc => ?_, ih htail⟩
        have hmem := mem_eraseReps.mp hc
        refine ⟨hhead c hmem, fun heq => ?_⟩
        subst heq
        rcases List.mem_cons.mp hmem with rfl | hmem
        · exact hne rfl
        · have hba := (List.pairwise_cons.mp htail).1 a hmem
          exact hne (antisymm a b (hhead b List.mem_cons_self) hba)

end EraseReps

/-! ## The order of literals -/

namespace Literal

/-- Literals are ordered by variable, and of both literals of a variable the positive one is
first. -/
theorem le_iff {l m : Literal} :
    l.le m = true ↔ l.var.index < m.var.index ∨
      l.var = m.var ∧ (l.isPositive = true ∨ m.isPositive = false) := by
  have hvar : l.var = m.var ↔ l.var.index = m.var.index := ⟨congrArg _, Variable.ext⟩
  rw [le, decide_eq_true_iff, UInt32.le_iff_toNat_le, l.toNat_code, m.toNat_code, hvar]
  cases l.isPositive <;> cases m.isPositive <;> simp <;> omega

theorem le_antisymm {l m : Literal} (hlm : l.le m = true) (hml : m.le l = true) : l = m :=
  Literal.ext (UInt32.le_antisymm (of_decide_eq_true hlm) (of_decide_eq_true hml))

theorem index_le_of_code_lt {l m : Literal} (h : l.code < m.code) : l.var.index ≤ m.var.index := by
  rcases le_iff.mp (decide_eq_true (UInt32.le_of_lt h)) with hlt | ⟨hvar, -⟩
  · exact Nat.le_of_lt hlt
  · exact Nat.le_of_eq (congrArg Variable.index hvar)

end Literal

/-! ## Normal forms -/

theorem mem_normalizedClause {l : Literal} {literals : List Literal} :
    l ∈ normalizedClause literals ↔ l ∈ literals := by
  rw [normalizedClause, mem_eraseReps, List.mem_mergeSort]

theorem pairwise_mergeSort_le (literals : List Literal) :
    (literals.mergeSort Literal.le).Pairwise fun l m => l.le m = true := by
  refine List.pairwise_mergeSort (fun l m k hlm hmk => ?_) (fun l m => ?_) literals
  · exact decide_eq_true (UInt32.le_trans (of_decide_eq_true hlm) (of_decide_eq_true hmk))
  · simpa [Literal.le] using UInt32.le_total l.code m.code

/-- Literals that compare equal are equal, so any way of sorting leads to the normal form. -/
theorem eraseReps_eq_normalizedClause {literals sorted : List Literal}
    (hperm : sorted.Perm literals) (hsorted : sorted.Pairwise fun l m => l.le m = true) :
    sorted.eraseReps = normalizedClause literals := by
  have hmerged : sorted.Perm (literals.mergeSort Literal.le) :=
    hperm.trans (List.mergeSort_perm literals Literal.le).symm
  rw [normalizedClause, List.Perm.eq_of_pairwise (fun _ _ _ _ => Literal.le_antisymm) hsorted
    (pairwise_mergeSort_le literals) hmerged]

/-- The literals of a normal form ascend strictly. -/
theorem pairwise_normalizedClause (literals : List Literal) :
    (normalizedClause literals).Pairwise (·.code < ·.code) := by
  refine (pairwise_eraseReps (fun _ _ => Literal.le_antisymm) (pairwise_mergeSort_le literals)).imp
    fun {l m} ⟨hle, hne⟩ => ?_
  exact UInt32.lt_of_le_of_ne (of_decide_eq_true hle) fun hcode => hne (Literal.ext hcode)

/-- Looking at neighbours is looking at every two literals that stand side by side. -/
theorem hasNeighbours_iff_adjacent {literals : List Literal} :
    hasNeighbours literals = true ↔ ∃ l m, [l, m] <:+: literals ∧ l.var = m.var := by
  induction literals with
  | nil => simp [hasNeighbours]
  | cons a rest ih =>
    cases rest with
    | nil => simp [hasNeighbours, List.infix_cons_iff]
    | cons b rest =>
      rw [hasNeighbours, Bool.or_eq_true, decide_eq_true_eq, ih]
      constructor
      · rintro (hvar | ⟨l, m, hadjacent, hvar⟩)
        · exact ⟨a, b, List.prefix_append [a, b] rest |>.isInfix, hvar⟩
        · exact ⟨l, m, List.infix_cons hadjacent, hvar⟩
      · rintro ⟨l, m, hadjacent, hvar⟩
        rcases List.infix_cons_iff.mp hadjacent with hprefix | hadjacent
        · simp only [List.cons_prefix_cons] at hprefix
          obtain ⟨rfl, rfl, -⟩ := hprefix
          exact .inl hvar
        · exact .inr ⟨l, m, hadjacent, hvar⟩

/-- Without equal neighbours, a strictly ascending list names no variable twice. -/
theorem pairwise_index_of_hasNeighbours {literals : List Literal}
    (hsorted : literals.Pairwise (·.code < ·.code)) (h : hasNeighbours literals = false) :
    literals.Pairwise (·.var.index < ·.var.index) := by
  induction literals with
  | nil => exact .nil
  | cons l rest ih =>
    obtain ⟨hhead, htail⟩ := List.pairwise_cons.mp hsorted
    cases rest with
    | nil => exact List.pairwise_singleton _ l
    | cons m rest =>
      simp only [hasNeighbours, Bool.or_eq_false_iff, decide_eq_false_iff_not] at h
      have hrest := ih htail h.2
      -- Codes ascend with the variables, so the next variable is another one and greater.
      have hlm : l.var.index < m.var.index := by
        have hle := Literal.index_le_of_code_lt (hhead m List.mem_cons_self)
        have hne : l.var.index ≠ m.var.index := fun e => h.1 (Variable.ext e)
        omega
      refine List.pairwise_cons.mpr ⟨fun k hk => ?_, hrest⟩
      rcases List.mem_cons.mp hk with rfl | hk
      · exact hlm
      · exact Nat.lt_trans hlm ((List.pairwise_cons.mp hrest).1 k hk)

theorem nodup_var_of_hasNeighbours {literals : List Literal}
    (hsorted : literals.Pairwise (·.code < ·.code)) (h : hasNeighbours literals = false) :
    (literals.map (·.var)).Nodup := by
  refine List.pairwise_map.mpr ((pairwise_index_of_hasNeighbours hsorted h).imp fun hlt heq => ?_)
  rw [heq] at hlt
  exact Nat.lt_irrefl _ hlt

theorem exists_negate_of_hasNeighbours {literals : List Literal}
    (hsorted : literals.Pairwise (·.code < ·.code)) (h : hasNeighbours literals = true) :
    ∃ l ∈ literals, l.negate ∈ literals := by
  induction literals with
  | nil => cases h
  | cons l rest ih =>
    obtain ⟨hhead, htail⟩ := List.pairwise_cons.mp hsorted
    cases rest with
    | nil => cases h
    | cons m rest =>
      simp only [hasNeighbours, Bool.or_eq_true, decide_eq_true_eq] at h
      rcases h with hvar | h
      · -- Different literals of one variable are opposite.
        have hne : l ≠ m := fun e => by
          have hlt := hhead m List.mem_cons_self
          rw [e] at hlt
          exact UInt32.lt_irrefl _ hlt
        have hnegate : l.negate = m := by
          refine Literal.eq_iff.mpr ⟨l.var_negate.trans hvar, ?_⟩
          have hpositive : l.isPositive ≠ m.isPositive := fun e =>
            hne (Literal.eq_iff.mpr ⟨hvar, e⟩)
          rw [l.isPositive_negate]
          cases hl : l.isPositive <;> cases hm : m.isPositive <;> simp_all
        exact ⟨l, List.mem_cons_self, hnegate ▸ List.mem_cons_of_mem _ List.mem_cons_self⟩
      · obtain ⟨k, hk, hneg⟩ := ih htail h
        exact ⟨k, List.mem_cons_of_mem _ hk, List.mem_cons_of_mem _ hneg⟩

/-- The clauses whose normal form has neighbours are those with a complementary pair. -/
theorem hasNeighbours_normalizedClause {literals : List Literal} :
    hasNeighbours (normalizedClause literals) = true ↔ ∃ l ∈ literals, l.negate ∈ literals := by
  have hsorted := pairwise_normalizedClause literals
  constructor
  · intro h
    obtain ⟨l, hl, hneg⟩ := exists_negate_of_hasNeighbours hsorted h
    exact ⟨l, mem_normalizedClause.mp hl, mem_normalizedClause.mp hneg⟩
  · rintro ⟨l, hl, hneg⟩
    refine Bool.of_not_eq_false ?_
    intro h
    -- Without neighbours no variable comes twice, so the two literals would be the same.
    have heq := List.inj_on_of_nodup_map (nodup_var_of_hasNeighbours hsorted h)
      (mem_normalizedClause.mpr hl) (mem_normalizedClause.mpr hneg) l.var_negate.symm
    have hpositive := l.isPositive_negate
    rw [← heq] at hpositive
    simp at hpositive

/-- A normal form of one literal or none is all that equal literals leave. -/
theorem two_le_length_normalizedClause {literals : List Literal} :
    2 ≤ (normalizedClause literals).length ↔ ∃ l ∈ literals, ∃ m ∈ literals, l ≠ m := by
  have hsorted := pairwise_normalizedClause literals
  have hmem {l : Literal} : l ∈ normalizedClause literals ↔ l ∈ literals := mem_normalizedClause
  generalize normalizedClause literals = sorted at hsorted hmem
  match sorted with
  | [] => simp [← hmem]
  | [a] => simp [← hmem]
  | a :: b :: rest =>
    have hlt := (List.pairwise_cons.mp hsorted).1 b List.mem_cons_self
    refine ⟨fun _ => ⟨a, hmem.mp List.mem_cons_self, b, ?_, fun heq => ?_⟩, fun _ => by simp⟩
    · exact hmem.mp (List.mem_cons_of_mem _ List.mem_cons_self)
    · rw [heq] at hlt
      exact UInt32.lt_irrefl _ hlt

theorem satisfies_normalizedClause {μ : Valuation} {literals : List Literal} :
    μ.Satisfies (normalizedClause literals) ↔ μ.Satisfies literals :=
  Valuation.satisfies_congr fun _ => mem_normalizedClause

end ClauseSharing
