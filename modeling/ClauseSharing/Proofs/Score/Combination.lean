import ClauseSharing.Proofs.Score.Norms
import ClauseSharing.Proofs.Score.Smallest
import Mathlib.Algebra.BigOperators.Group.List.Basic

/-!
How the score of a clause comes from its literals.

Seven of the nine heuristics are of two kinds. Three fold the false probabilities of the literals
with a triangular norm (`Heuristic.norm?`), and four sum up what each literal adds, which is never
negative (`Heuristic.addend?`). The other two take the mean and the second smallest false
probability. Of every heuristic it follows by its kind that the order of the literals does not
matter and, except for the mean, that a further literal never makes a clause better
(`Heuristic.evaluate_unordered_antitone`).
-/

namespace ClauseSharing

open Scalar

/-- All parameters are shares of one. -/
structure ScoreParameters.Shares (params : ScoreParameters Rat) : Prop where
  falseCutoff : IsShare params.falseCutoff
  trueCutoff : IsShare params.trueCutoff
  trueWeight : IsShare params.trueWeight

/-- All probabilities to be true and false are shares of one. They may add up to more. -/
structure LiteralLikelihood.Shares (p : LiteralLikelihood Rat) : Prop where
  isTrue : ∀ l, IsShare (p.isTrue l)
  isFalse : ∀ l, IsShare (p.isFalse l)

theorem LiteralLikelihood.shares_ofTable {entries : List (Literal × Rat × Rat)} {others : Rat × Rat}
    (hentries : ∀ e ∈ entries, IsShare e.2.1 ∧ IsShare e.2.2)
    (hothers : IsShare others.1 ∧ IsShare others.2) : (ofTable entries others).Shares := by
  have hfound (l : Literal) :
      IsShare (((entries.find? (·.1 = l)).map (·.2)).getD others).1 ∧
        IsShare (((entries.find? (·.1 = l)).map (·.2)).getD others).2 := by
    cases h : entries.find? (·.1 = l) with
    | none => exact hothers
    | some e => exact hentries e (List.mem_of_find?_eq_some h)
  exact ⟨fun l => (hfound l).1, fun l => (hfound l).2⟩

/-- What is left unassigned is never negative. -/
theorem LiteralLikelihood.isUnassigned_nonneg (p : LiteralLikelihood Rat) (l : Literal) :
    0 ≤ p.isUnassigned l := by
  rw [isUnassigned, clampUnit_eq]
  exact le_min (le_max_right ..) zero_le_one

namespace Heuristic

/-! ## Kinds of heuristics -/

/-- The norm that combines the false probabilities, for the heuristics that are made from one. -/
def norm? : Heuristic → Option (Rat → Rat → Rat)
  | .joint => some (· * ·)
  | .lukasiewicz => some boundedDifference
  | .min => some Min.min
  | _ => none

/-- What a literal adds to the score, for the heuristics that count or sum. -/
def addend? (params : ScoreParameters Rat) (p : LiteralLikelihood Rat) :
    Heuristic → Option (Literal → Rat)
  | .size => some fun _ => 1
  | .unstableCount => some fun l => if p.isFalse l ≤ params.falseCutoff then 1 else 0
  | .weightedUnstableCount => some (instability params p)
  | .scoreSum => some (literalScore params p)
  | _ => none

/-- A heuristic is made from a norm, of which more is better, or from addends, of which less is
better, or it is one of the other two. -/
theorem kind_cases (params : ScoreParameters Rat) (p : LiteralLikelihood Rat) (h : Heuristic) :
    (∃ t, h.norm? = some t ∧ h.prefersHigh = true) ∨
    (∃ f, h.addend? params p = some f ∧ h.prefersHigh = false) ∨
    h = .average ∨ h = .secondLeast := by
  cases h with
  | joint | lukasiewicz | min => exact .inl ⟨_, rfl, rfl⟩
  | size | unstableCount | weightedUnstableCount | scoreSum => exact .inr (.inl ⟨_, rfl, rfl⟩)
  | average => exact .inr (.inr (.inl rfl))
  | secondLeast => exact .inr (.inr (.inr rfl))

variable {params : ScoreParameters Rat} {p : LiteralLikelihood Rat}

theorem triangularNorm_of_norm? : ∀ {h : Heuristic} {t : Rat → Rat → Rat}, h.norm? = some t →
    TriangularNorm t
  | .joint, _, rfl => triangularNorm_mul
  | .lukasiewicz, _, rfl => triangularNorm_boundedDifference
  | .min, _, rfl => triangularNorm_min

theorem addend?_nonneg (hparams : params.Shares) (hp : p.Shares) :
    ∀ {h : Heuristic} {f : Literal → Rat}, h.addend? params p = some f → ∀ l, 0 ≤ f l
  | .size, _, rfl, _ => zero_le_one
  | .unstableCount, _, rfl, l => by
    dsimp only
    split
    · exact zero_le_one
    · exact le_refl 0
  | .weightedUnstableCount, _, rfl, l => by
    unfold instability
    split
    · exact le_refl 0
    split
    · exact hparams.trueWeight.1
    · exact zero_le_one
  | .scoreSum, _, rfl, l =>
    add_nonneg (p.isUnassigned_nonneg l) (mul_nonneg (hp.isTrue l).1 hparams.trueWeight.1)

/-! ## Scores by their kind -/

variable {clause clause' : List Literal}

theorem evaluate_of_norm? : ∀ {h : Heuristic} {t : Rat → Rat → Rat}, h.norm? = some t →
    h.evaluate params p clause = (clause.map p.isFalse).foldl t 1
  | .joint, _, rfl => rfl
  | .lukasiewicz, _, rfl => by
    simp only [evaluate, larger_eq, zero_eq, one_eq]
    rfl
  | .min, _, rfl => by
    simp only [evaluate, one_eq]
    congr 1
    funext a x
    exact smaller_eq a x

theorem evaluate_of_addend? : ∀ {h : Heuristic} {f : Literal → Rat}, h.addend? params p = some f →
    h.evaluate params p clause = (clause.map f).sum
  | .size, _, rfl => by simp [evaluate]
  | .unstableCount, _, rfl => by
    simp only [evaluate, ofNat_eq, le_eq]
    rw [List.countP_map, List.countP_eq_length_filter, List.sum_map_ite]
    simp [Function.comp_def]
  | .weightedUnstableCount, _, rfl => sum_eq _
  | .scoreSum, _, rfl => sum_eq _

theorem evaluate_average (clause : List Literal) :
    average.evaluate params p clause = (clause.map p.isFalse).sum / clause.length := by
  cases clause with
  | nil => simp [evaluate]
  | cons l rest => simp [evaluate, sum_eq]

theorem isShare_falses (hp : p.Shares) (clause : List Literal) :
    ∀ x ∈ clause.map p.isFalse, IsShare x :=
  List.forall_mem_map.mpr fun l _ => hp.isFalse l

/-! ## Order and length -/

/-- The order of the literals does not matter. -/
theorem evaluate_perm (hp : p.Shares) (h : Heuristic) (hperm : clause.Perm clause') :
    h.evaluate params p clause = h.evaluate params p clause' := by
  have hfalses : (clause.map p.isFalse).Perm (clause'.map p.isFalse) := hperm.map p.isFalse
  rcases h.kind_cases params p with ⟨t, ht, -⟩ | ⟨f, hf, -⟩ | rfl | rfl
  · rw [evaluate_of_norm? ht, evaluate_of_norm? ht]
    exact (triangularNorm_of_norm? ht).foldl_perm isShare_one (isShare_falses hp clause) hfalses
  · rw [evaluate_of_addend? hf, evaluate_of_addend? hf, (hperm.map f).sum_eq]
  · rw [evaluate_average, evaluate_average, hfalses.sum_eq, hperm.length_eq]
  · exact secondSmallest_perm hfalses

/-- A further literal never raises a score that is made from a norm. -/
theorem evaluate_concat_le (hp : p.Shares) {h : Heuristic} {t : Rat → Rat → Rat}
    (ht : h.norm? = some t) (clause : List Literal) (l : Literal) :
    h.evaluate params p (clause ++ [l]) ≤ h.evaluate params p clause := by
  have hnorm := triangularNorm_of_norm? ht
  rw [evaluate_of_norm? ht, evaluate_of_norm? ht, List.map_append, List.foldl_append]
  exact hnorm.le_left (hnorm.isShare_foldl isShare_one (isShare_falses hp clause)) (hp.isFalse l)

/-- A further literal never lowers a score that is made from addends. -/
theorem le_evaluate_concat (hparams : params.Shares) (hp : p.Shares) {h : Heuristic}
    {f : Literal → Rat} (hf : h.addend? params p = some f) (clause : List Literal) (l : Literal) :
    h.evaluate params p clause ≤ h.evaluate params p (clause ++ [l]) := by
  rw [evaluate_of_addend? hf, evaluate_of_addend? hf, List.map_append, List.sum_append,
    List.map_singleton, List.sum_singleton]
  exact le_add_of_nonneg_right (addend?_nonneg hparams hp hf l)

theorem prefers_eq_false_of_high {h : Heuristic} (hhigh : h.prefersHigh = true) {x y : Rat}
    (hxy : x ≤ y) : h.prefers x y = false := by
  simpa [prefers, hhigh] using hxy

theorem prefers_eq_false_of_low {h : Heuristic} (hlow : h.prefersHigh = false) {x y : Rat}
    (hyx : y ≤ x) : h.prefers x y = false := by
  simpa [prefers, hlow] using hyx

/-! ## Main statement -/

/-- Take any parameters and probabilities that are shares of one, and any heuristic. The order of
the literals of a clause does not matter to its score. And unless the heuristic takes the mean, a
further literal never makes the score of a clause of two or more literals a better one. -/
theorem evaluate_unordered_antitone (hparams : params.Shares) (hp : p.Shares) (h : Heuristic) :
    (∀ clause clause', clause.Perm clause' →
      h.evaluate params p clause = h.evaluate params p clause') ∧
    (h ≠ .average → ∀ clause : List Literal, 2 ≤ clause.length → ∀ l,
      h.prefers (h.evaluate params p (clause ++ [l])) (h.evaluate params p clause) = false) := by
  refine ⟨fun _ _ => evaluate_perm hp h, fun hother clause hlong l => ?_⟩
  rcases h.kind_cases params p with ⟨t, ht, hhigh⟩ | ⟨f, hf, hlow⟩ | rfl | rfl
  · exact prefers_eq_false_of_high hhigh (evaluate_concat_le hp ht clause l)
  · exact prefers_eq_false_of_low hlow (le_evaluate_concat hparams hp hf clause l)
  · exact absurd rfl hother
  · refine prefers_eq_false_of_high rfl ?_
    have hfalses : 2 ≤ (clause.map p.isFalse).length := (List.length_map ..).symm ▸ hlong
    have hle := secondSmallest_concat_le hfalses (p.isFalse l)
    rwa [← List.map_singleton, ← List.map_append] at hle

/-- A literal that is rather false, one that is open, one that is stably false and one that is
rather true. -/
def fourLiterals : LiteralLikelihood Rat :=
  .ofTable [(⟨0⟩, 1 / 10, 4 / 5), (⟨2⟩, 1 / 2, 2 / 5), (⟨4⟩, 0, 19 / 20), (⟨6⟩, 7 / 10, 1 / 5)]
    (0, 0)

theorem shares_standard : (ScoreParameters.standard : ScoreParameters Rat).Shares :=
  ⟨by decide +kernel, by decide +kernel, by decide +kernel⟩

theorem shares_fourLiterals : fourLiterals.Shares :=
  LiteralLikelihood.shares_ofTable (by decide +kernel) (by decide +kernel)

theorem evaluate_unordered_antitone_fourLiterals :
    (ScoreParameters.standard : ScoreParameters Rat).Shares ∧ fourLiterals.Shares ∧
    secondLeast ≠ average ∧
    secondLeast.evaluate .standard fourLiterals [⟨4⟩, ⟨2⟩, ⟨0⟩] = 4 / 5 ∧
    secondLeast.evaluate .standard fourLiterals [⟨0⟩, ⟨2⟩] = 4 / 5 ∧
    secondLeast.evaluate .standard fourLiterals ([⟨0⟩, ⟨2⟩] ++ [⟨6⟩]) = 2 / 5 ∧
    secondLeast.prefers (secondLeast.evaluate .standard fourLiterals ([⟨0⟩, ⟨2⟩] ++ [⟨6⟩]))
      (secondLeast.evaluate .standard fourLiterals [⟨0⟩, ⟨2⟩]) = false := by
  have hother : secondLeast ≠ average := by decide
  obtain ⟨hperm, hlonger⟩ :=
    evaluate_unordered_antitone shares_standard shares_fourLiterals secondLeast
  refine ⟨shares_standard, shares_fourLiterals, hother, ?_, by decide +kernel, by decide +kernel,
    hlonger hother [⟨0⟩, ⟨2⟩] (le_refl 2) ⟨6⟩⟩
  rw [hperm [⟨4⟩, ⟨2⟩, ⟨0⟩] [⟨0⟩, ⟨2⟩, ⟨4⟩] (by decide)]
  decide +kernel

/-- The mean may well get better. -/
example : average.prefers (average.evaluate .standard fourLiterals ([⟨2⟩, ⟨6⟩] ++ [⟨4⟩]))
    (average.evaluate .standard fourLiterals [⟨2⟩, ⟨6⟩]) = true := by
  decide +kernel

/-- And so may the second smallest probability if there was only one. -/
example : secondLeast.prefers (secondLeast.evaluate .standard fourLiterals ([⟨6⟩] ++ [⟨4⟩]))
    (secondLeast.evaluate .standard fourLiterals [⟨6⟩]) = true := by
  decide +kernel

end Heuristic

end ClauseSharing
