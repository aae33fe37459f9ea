import ClauseSharing.Import.Admission
import ClauseSharing.Proofs.Scalar.Order
import Mathlib.Data.List.Basic

/-!
The ranking of candidates is the stable one, and it has the better ones first.

`IsStableRanking` says that a list holds the elements of another one in the order of a comparison,
and equal ones in the order in which they stood. For scalars with a lawful order, which doubles and
fractions have, `Selector.rank` ranks the candidates so by their scores and then by their lengths
(`Selector.isStableRanking_rank`).

The comparison of scores has the preferred one first (`Heuristic.compareScores_of_prefers`), and
only a score itself equals it. So in the ranking no candidate is preferred to an earlier one, and
none is shorter than an earlier one with its score (`Heuristic.bestFirst_of_isStableRanking`).
-/

namespace ClauseSharing

open Std

/-- The list `ys` holds the elements of `xs` in the order of `cmp`, and equal ones in the order in
which they stand in `xs`. The elements are told apart by their positions in `xs`. -/
def IsStableRanking {α : Type} (cmp : α → α → Ordering) (xs ys : List α) : Prop :=
  ∃ numbered : List (α × Nat),
    numbered.Perm xs.zipIdx ∧ numbered.map (·.1) = ys ∧
    numbered.Pairwise fun a b => cmp a.1 b.1 = .lt ∨ cmp a.1 b.1 = .eq ∧ a.2 < b.2

theorem IsStableRanking.perm {α : Type} {cmp : α → α → Ordering} {xs ys : List α}
    (h : IsStableRanking cmp xs ys) : ys.Perm xs := by
  obtain ⟨numbered, hperm, rfl, -⟩ := h
  have hmap := hperm.map (·.1)
  rwa [List.zipIdx_map_fst] at hmap

theorem IsStableRanking.length_eq {α : Type} {cmp : α → α → Ordering} {xs ys : List α}
    (h : IsStableRanking cmp xs ys) : ys.length = xs.length :=
  h.perm.length_eq

/-- Merge sort ranks stably. -/
theorem isStableRanking_mergeSort {α : Type} (cmp : α → α → Ordering) [TransCmp cmp]
    (xs : List α) : IsStableRanking cmp xs (xs.mergeSort fun a b => (cmp a b).isLE) := by
  have htrans (a b c : α) : (cmp a b).isLE → (cmp b c).isLE → (cmp a c).isLE :=
    TransCmp.isLE_trans
  have htotal (a b : α) : (cmp a b).isLE || (cmp b a).isLE := by
    have hswap : cmp b a = (cmp a b).swap := OrientedCmp.eq_swap
    rw [hswap]
    cases cmp a b <;> rfl
  refine ⟨xs.zipIdx.mergeSort (List.zipIdxLE fun a b => (cmp a b).isLE),
    List.mergeSort_perm .., ?_, ?_⟩
  · exact List.mergeSort_zipIdx
  · have hsorted := List.pairwise_mergeSort (List.zipIdxLE_trans htrans)
      (List.zipIdxLE_total htotal) xs.zipIdx
    have hnodup :
        ((xs.zipIdx.mergeSort (List.zipIdxLE fun a b => (cmp a b).isLE)).map (·.2)).Nodup := by
      refine ((List.mergeSort_perm ..).map _).nodup_iff.mpr ?_
      rw [List.zipIdx_map_snd]
      exact List.nodup_range'
    -- The positions are distinct, so among equals the order by position is strict.
    refine hsorted.imp₂ (fun a b hle hne => ?_) (List.pairwise_map.mp hnodup)
    have hswap : cmp b.1 a.1 = (cmp a.1 b.1).swap := OrientedCmp.eq_swap
    cases hcmp : cmp a.1 b.1 with
    | lt => exact .inl rfl
    | eq =>
      simp [List.zipIdxLE, hswap, hcmp] at hle
      exact .inr ⟨rfl, by omega⟩
    | gt => simp [List.zipIdxLE, hcmp] at hle

/-- Nothing stands after what it goes before. -/
theorem IsStableRanking.pairwise {α : Type} {cmp : α → α → Ordering} {xs ys : List α}
    (h : IsStableRanking cmp xs ys) : ys.Pairwise fun a b => (cmp a b).isLE := by
  obtain ⟨numbered, -, rfl, hsorted⟩ := h
  refine List.pairwise_map.mpr (hsorted.imp fun {a b} hab => ?_)
  rcases hab with hlt | ⟨heq, -⟩
  · rw [hlt]
    rfl
  · rw [heq]
    rfl

/-! ## Orders of candidates -/

variable {K : Type} [Scalar K]

namespace Heuristic

/-- The order of candidates by their scores, better ones first, and by their lengths among those
with the same score. -/
def compareCandidates (h : Heuristic) (params : ScoreParameters K) (p : LiteralLikelihood K)
    (c d : Candidate) : Ordering :=
  (h.compareScores (h.evaluate params p c.literals) (h.evaluate params p d.literals)).then
    (compare c.literals.length d.literals.length)

/-- No candidate has a better score than an earlier one, and none is shorter than an earlier one
with the same score. -/
def BestFirst (h : Heuristic) (params : ScoreParameters K) (p : LiteralLikelihood K)
    (ranking : List Candidate) : Prop :=
  ranking.Pairwise fun c d =>
    h.prefers (h.evaluate params p d.literals) (h.evaluate params p c.literals) = false ∧
    (h.evaluate params p c.literals = h.evaluate params p d.literals →
      c.literals.length ≤ d.literals.length)

variable [Scalar.LawfulOrder K]

instance (h : Heuristic) : TransCmp (h.compareScores : K → K → Ordering) := by
  unfold compareScores
  split
  · exact TransCmp.opposite
  · infer_instance

instance (h : Heuristic) (params : ScoreParameters K) (p : LiteralLikelihood K) :
    TransCmp (h.compareCandidates params p) :=
  have := transCmp_on h.compareScores fun c : Candidate => h.evaluate params p c.literals
  have := transCmp_on compare fun c : Candidate => c.literals.length
  inferInstanceAs (TransCmp (compareLex _ _))

/-- The preferred score comes first. -/
theorem compareScores_of_prefers {h : Heuristic} {x y : K} (hprefers : h.prefers x y = true) :
    h.compareScores x y = .lt := by
  unfold prefers at hprefers
  unfold compareScores
  split
  · next hhigh =>
    rw [if_pos hhigh] at hprefers
    exact Scalar.LawfulOrder.order_of_lt hprefers
  · next hlow =>
    rw [if_neg hlow] at hprefers
    exact Scalar.LawfulOrder.order_of_lt hprefers

/-- No score takes the place of a different one. -/
theorem compareScores_eq_iff {h : Heuristic} {x y : K} : h.compareScores x y = .eq ↔ x = y := by
  constructor
  · intro heq
    unfold compareScores at heq
    split at heq
    · exact (Scalar.LawfulOrder.eq_of_order heq).symm
    · exact Scalar.LawfulOrder.eq_of_order heq
  · rintro rfl
    exact ReflCmp.compare_self

/-- A stable ranking by score and length has the better candidates first. -/
theorem bestFirst_of_isStableRanking {h : Heuristic} {params : ScoreParameters K}
    {p : LiteralLikelihood K} {candidates ranking : List Candidate}
    (hranking : IsStableRanking (h.compareCandidates params p) candidates ranking) :
    h.BestFirst params p ranking := by
  refine hranking.pairwise.imp fun {c d} hle => ⟨?_, fun heq => ?_⟩
  · refine Bool.eq_false_iff.mpr fun hprefers => ?_
    -- What is preferred to an earlier candidate would have to come before it.
    have hgt : h.compareScores (h.evaluate params p c.literals)
        (h.evaluate params p d.literals) = .gt :=
      OrientedCmp.gt_of_lt (compareScores_of_prefers hprefers)
    rw [compareCandidates, hgt] at hle
    cases hle
  · have hscores := compareScores_eq_iff (h := h).mpr heq
    rw [compareCandidates, hscores] at hle
    exact Nat.isLE_compare.mp hle

end Heuristic

namespace Selector

/-- Scores can be computed while sorting. -/
theorem rank_eq_mergeSort (s : Selector K) (p : LiteralLikelihood K) (candidates : List Candidate) :
    s.rank p candidates = candidates.mergeSort fun c d =>
      (s.heuristic.compareCandidates s.parameters p c d).isLE := by
  have hsort : (candidates.mergeSort fun c d =>
        (s.heuristic.compareCandidates s.parameters p c d).isLE).map (fun c => (s.score p c, c)) =
      (candidates.map fun c => (s.score p c, c)).mergeSort fun x y => (s.compareScored x y).isLE :=
    List.map_mergeSort fun _ _ _ _ => rfl
  rw [rank, ← hsort, List.map_map]
  exact List.map_id _

/-- Candidates are ranked by their scores, then by their lengths, then by their arrival. -/
theorem isStableRanking_rank [Scalar.LawfulOrder K] (s : Selector K)
    (p : LiteralLikelihood K) (candidates : List Candidate) :
    IsStableRanking (s.heuristic.compareCandidates s.parameters p) candidates
      (s.rank p candidates) := by
  rw [rank_eq_mergeSort]
  exact isStableRanking_mergeSort _ candidates

end Selector

end ClauseSharing
