import ClauseSharing.Proofs.Score.Combination
import Mathlib.Algebra.BigOperators.Ring.List
import Mathlib.Algebra.Order.BigOperators.Group.List
import Mathlib.Algebra.Order.Field.Basic

/-!
The scores of a clause under different heuristics.

On exact fractions, a norm that is smaller on pairs gives the smaller scores
(`Heuristic.evaluate_le_of_norm?`), and addends that are smaller for each literal do
(`Heuristic.evaluate_le_of_addend?`). The mean of the false probabilities is between the smallest
one and one, and so is the second smallest. With the closed form of the Łukasiewicz score these make
up the order of the scores of one clause (`Heuristic.scores_are_ordered`).
-/

namespace ClauseSharing

open Scalar

namespace Heuristic

variable {params : ScoreParameters Rat} {p : LiteralLikelihood Rat} {clause : List Literal}

/-! ## Norms -/

theorem evaluate_le_of_norm? (hp : p.Shares) {h h' : Heuristic} {t t' : Rat → Rat → Rat}
    (ht : h.norm? = some t) (ht' : h'.norm? = some t')
    (hle : ∀ a b, IsShare a → IsShare b → t a b ≤ t' a b) (clause : List Literal) :
    h.evaluate params p clause ≤ h'.evaluate params p clause := by
  rw [evaluate_of_norm? ht, evaluate_of_norm? ht']
  exact (triangularNorm_of_norm? ht).foldl_le_foldl (triangularNorm_of_norm? ht') hle isShare_one
    isShare_one (le_refl 1) (isShare_falses hp clause)

/-- The Łukasiewicz score is what the false probabilities, less one each, leave of one. -/
theorem evaluate_lukasiewicz (hp : p.Shares) (clause : List Literal) :
    lukasiewicz.evaluate params p clause =
      max 0 ((clause.map p.isFalse).sum - ((clause.length : Rat) - 1)) := by
  have hone : max (1 : Rat) 0 = 1 := max_eq_left zero_le_one
  have hfold := foldl_boundedDifference 1 (isShare_falses hp clause)
  rw [hone, List.length_map] at hfold
  rw [evaluate_of_norm? rfl, hfold, max_comm]
  congr 1
  ring

/-- The least score is at most any of the false probabilities. -/
theorem evaluate_min_le (hp : p.Shares) {x : Rat} (hx : x ∈ clause.map p.isFalse) :
    Heuristic.min.evaluate params p clause ≤ x := by
  rw [evaluate_of_norm? rfl]
  exact triangularNorm_min.foldl_le_of_mem isShare_one (isShare_falses hp clause) hx

/-! ## The mean -/

/-- The mean lies between any bounds of the false probabilities. -/
theorem evaluate_average_mem_of_bounds (hne : clause ≠ []) {lo hi : Rat}
    (hbounds : ∀ x ∈ clause.map p.isFalse, lo ≤ x ∧ x ≤ hi) :
    lo ≤ average.evaluate params p clause ∧ average.evaluate params p clause ≤ hi := by
  have hpos : (0 : Rat) < clause.length := Nat.cast_pos.mpr (List.length_pos_iff.mpr hne)
  have hlo := List.card_nsmul_le_sum _ lo fun x hx => (hbounds x hx).1
  have hhi := List.sum_le_card_nsmul _ hi fun x hx => (hbounds x hx).2
  rw [List.length_map, nsmul_eq_mul, mul_comm] at hlo hhi
  rw [evaluate_average]
  exact ⟨(le_div_iff₀ hpos).mpr hlo, (div_le_iff₀ hpos).mpr hhi⟩

/-! ## Addends -/

theorem evaluate_le_of_addend? {h h' : Heuristic} {f f' : Literal → Rat}
    (hf : h.addend? params p = some f) (hf' : h'.addend? params p = some f')
    (hle : ∀ l, f l ≤ f' l) (clause : List Literal) :
    h.evaluate params p clause ≤ h'.evaluate params p clause := by
  rw [evaluate_of_addend? hf, evaluate_of_addend? hf']
  exact List.sum_le_sum fun l _ => hle l

/-- A literal counts at most fully if it is not stably false, and at least with the reduced
weight. -/
theorem instability_bounds (hparams : params.Shares) (l : Literal) :
    params.trueWeight * (if p.isFalse l ≤ params.falseCutoff then 1 else 0) ≤
      instability params p l ∧
    instability params p l ≤ if p.isFalse l ≤ params.falseCutoff then 1 else 0 := by
  have hweight := hparams.trueWeight
  simp only [instability, lt_eq, decide_eq_true_eq, zero_eq, one_eq]
  rcases le_or_gt (p.isFalse l) params.falseCutoff with hle | hlt
  · rw [if_pos hle, if_neg (not_lt.mpr hle), mul_one]
    split
    · exact ⟨le_refl _, hweight.2⟩
    · exact ⟨hweight.2, le_refl 1⟩
  · rw [if_neg (not_le.mpr hlt), if_pos hlt, mul_zero]
    exact ⟨le_refl 0, le_refl 0⟩

theorem trueWeight_mul_evaluate_le (hparams : params.Shares) (clause : List Literal) :
    params.trueWeight * unstableCount.evaluate params p clause ≤
      weightedUnstableCount.evaluate params p clause := by
  rw [evaluate_of_addend? rfl, evaluate_of_addend? rfl, ← List.sum_map_mul_left]
  exact List.sum_le_sum fun l _ => (instability_bounds hparams l).1

/-! ## Main statement -/

/-- Take any parameters and probabilities that are shares of one, and any clause with a literal. The
Łukasiewicz score is the sum of the false probabilities less the number of literals but one, or zero
if that is negative. Zero, the Łukasiewicz score, the product, the least, the mean and one are in
this order. The second least is between the least and one. And the weighted count of unstable
literals is between the reduced weight of their number and their number, which is at most that of
all literals. -/
theorem scores_are_ordered (hparams : params.Shares) (hp : p.Shares) (hne : clause ≠ []) :
    let score (h : Heuristic) : Rat := h.evaluate params p clause
    score .lukasiewicz = max 0 ((clause.map p.isFalse).sum - ((clause.length : Rat) - 1)) ∧
    (0 ≤ score .lukasiewicz ∧ score .lukasiewicz ≤ score .joint ∧ score .joint ≤ score .min ∧
      score .min ≤ score .average ∧ score .average ≤ 1) ∧
    (score .min ≤ score .secondLeast ∧ score .secondLeast ≤ 1) ∧
    (params.trueWeight * score .unstableCount ≤ score .weightedUnstableCount ∧
      score .weightedUnstableCount ≤ score .unstableCount ∧
      score .unstableCount ≤ score .size) := by
  intro score
  have hfalses := isShare_falses hp clause
  have hsecond : score .secondLeast ∈ clause.map p.isFalse :=
    secondSmallest_mem fun h => hne (List.map_eq_nil_iff.mp h)
  have hbounds : ∀ x ∈ clause.map p.isFalse, score .min ≤ x ∧ x ≤ 1 :=
    fun x hx => ⟨evaluate_min_le hp hx, (hfalses x hx).2⟩
  obtain ⟨hleast, hmost⟩ : score .min ≤ score .average ∧ score .average ≤ 1 :=
    evaluate_average_mem_of_bounds hne hbounds
  have hlukasiewicz : score .lukasiewicz = max 0 _ := evaluate_lukasiewicz hp clause
  refine ⟨hlukasiewicz, ⟨?_, ?_, ?_, hleast, hmost⟩,
    ⟨evaluate_min_le hp hsecond, (hfalses _ hsecond).2⟩,
    trueWeight_mul_evaluate_le hparams clause, ?_, ?_⟩
  · rw [hlukasiewicz]
    exact le_max_left ..
  · exact evaluate_le_of_norm? hp rfl rfl (fun _ _ => boundedDifference_le_mul) clause
  · exact evaluate_le_of_norm? hp rfl rfl (fun _ _ => mul_le_min) clause
  · exact evaluate_le_of_addend? rfl rfl (fun l => (instability_bounds hparams l).2) clause
  · refine evaluate_le_of_addend? rfl rfl (fun l => ?_) clause
    split
    · exact le_refl 1
    · exact zero_le_one

/-- Likely true from three fifths on, which counts a quarter. -/
def eagerParameters : ScoreParameters Rat := ⟨9 / 10, 3 / 5, 1 / 4⟩

theorem scores_are_ordered_threeLiterals :
    eagerParameters.Shares ∧ fourLiterals.Shares ∧ ([⟨0⟩, ⟨4⟩, ⟨6⟩] : List Literal) ≠ [] ∧
    all.map (·.evaluate eagerParameters fourLiterals [⟨0⟩, ⟨4⟩, ⟨6⟩]) =
      [3, 19 / 125, 13 / 20, 0, 1 / 5, 4 / 5, 2, 5 / 4, 9 / 20] ∧
    lukasiewicz.evaluate eagerParameters fourLiterals [⟨0⟩, ⟨4⟩, ⟨6⟩] ≤
      joint.evaluate eagerParameters fourLiterals [⟨0⟩, ⟨4⟩, ⟨6⟩] := by
  have hparams : eagerParameters.Shares :=
    ⟨by decide +kernel, by decide +kernel, by decide +kernel⟩
  have hne : ([⟨0⟩, ⟨4⟩, ⟨6⟩] : List Literal) ≠ [] := by decide
  obtain ⟨-, ⟨-, hle, -⟩, -⟩ := scores_are_ordered hparams shares_fourLiterals hne
  exact ⟨hparams, shares_fourLiterals, hne, by decide +kernel, hle⟩

end Heuristic

end ClauseSharing
