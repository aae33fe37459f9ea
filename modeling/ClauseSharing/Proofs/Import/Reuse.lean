import ClauseSharing.Import.Importer
import ClauseSharing.Proofs.Import.Consumption
import Mathlib.Data.List.Nodup

/-!
A selector may be used again.

An importer does with positions and buffers what a plain run of its selector does with lists. Both
rank the same candidates in the same order (`Importer.map_candidateAt_rank`), and taking the
literals of an admitted candidate out of the queue does not touch the others, since a ranking has
every position once (`Pass.admitRanked_eq`). As each buffer is emptied before it is filled, nothing
that earlier passes left in them shows (`Importer.run_eq`).
-/

namespace ClauseSharing

variable {T K : Type} [Recipient T] [Scalar K]

/-! ## Rankings by position -/

theorem candidateAt_modify_of_ne {queue : Array Candidate} {m n : Nat} (h : m ≠ n)
    (f : Candidate → Candidate) : candidateAt (queue.modify m f) n = candidateAt queue n := by
  simp only [candidateAt, Array.getD_eq_getD_getElem?, Array.getElem?_modify, if_neg h]

theorem candidateAt_of_lt {queue : Array Candidate} {n : Nat} (h : n < queue.size) :
    candidateAt queue n = queue[n] := by
  simp [candidateAt, h]

namespace Selector

/-- The positions with their scores stand for the candidates with theirs. -/
theorem map_scored (s : Selector K) (p : LiteralLikelihood K) (queue : Array Candidate) :
    (s.scored p queue).toList.map (fun r => (r.score, candidateAt queue r.position)) =
      queue.toList.map fun c => (s.score p c, c) := by
  refine List.ext_getElem (by simp [scored]) ?_
  intro n hn _
  have hlt : n < queue.size := by simpa [scored] using hn
  simp [scored, candidateAt_of_lt hlt]

theorem map_position_scored (s : Selector K) (p : LiteralLikelihood K) (queue : Array Candidate) :
    (s.scored p queue).toList.map (·.position) = List.range queue.size := by
  refine List.ext_getElem (by simp [scored]) ?_
  intro n _ _
  simp [scored]

end Selector

namespace Importer

/-- The ranking is filled anew, whatever the buffer held before. -/
theorem ranking_rank (i : Importer K) (p : LiteralLikelihood K) (queue : Array Candidate) :
    (i.rank p queue).ranking.toList = (i.selector.scored p queue).toList.mergeSort fun x y =>
      (i.selector.compareRanked queue x y).isLE := by
  simp [rank, clearRanking]

/-- The ranked positions are those of the candidates in the order of admission. -/
theorem map_candidateAt_rank (i : Importer K) (p : LiteralLikelihood K) (queue : Array Candidate) :
    (i.rank p queue).ranking.toList.map (fun r => candidateAt queue r.position) =
      i.selector.rank p queue.toList := by
  have hsort := List.map_mergeSort
    (r := fun x y => (i.selector.compareRanked queue x y).isLE)
    (s := fun x y => (i.selector.compareScored x y).isLE)
    (f := fun r => (r.score, candidateAt queue r.position))
    (l := (i.selector.scored p queue).toList) fun _ _ _ _ => rfl
  rw [Selector.map_scored] at hsort
  rw [Selector.rank, ← hsort, ranking_rank, List.map_map]
  rfl

/-- A ranking has every position of the queue once, and no other ones. -/
theorem perm_positions (i : Importer K) (p : LiteralLikelihood K) (queue : Array Candidate) :
    ((i.rank p queue).ranking.toList.map (·.position)).Perm (List.range queue.size) := by
  rw [ranking_rank, ← i.selector.map_position_scored p queue]
  exact (List.mergeSort_perm ..).map _

theorem nodup_positions (i : Importer K) (p : LiteralLikelihood K) (queue : Array Candidate) :
    ((i.rank p queue).ranking.toList.map (·.position)).Nodup :=
  (i.perm_positions p queue).nodup_iff.mpr List.nodup_range

end Importer

/-! ## Admission -/

namespace Pass

omit [Scalar K] in
theorem imported_take (p : Pass T K) (offer : Offer) :
    (p.take offer).report.imported = p.report.imported :=
  take_report (I := fun r => r.imported = p.report.imported) (fun _ _ h => h)
    (fun _ reason h => by cases reason <;> exact h) (fun _ h => h) (fun _ h => h) (fun _ h => h) rfl
    offer

omit [Scalar K] in
/-- Nothing is imported while the batch is consumed. -/
theorem imported_consume (p : Pass T K) (batch : List (List Int32)) :
    (p.consume batch).1.report.imported = p.report.imported :=
  consume_induction (I := fun q => q.report.imported = p.report.imported) (P := fun _ => True)
    (fun _ h => h) (fun q _ offer _ _ h => (imported_take q offer).trans h) (fun _ _ h => h) rfl
    (fun _ _ => trivial)

/-- Admitting by distinct positions admits the candidates that stand there at the start. -/
theorem admitRanked_eq (budget : K) {p : Pass T K} {ranking : List (Ranked K)}
    (hnodup : (ranking.map (·.position)).Nodup) {chosen : List Candidate}
    (hchosen : admitted budget p.report.charged
      (ranking.map fun r => candidateAt p.candidates r.position) = chosen) :
    (p.admitRanked budget ranking).recipient = chosen.foldl Recipient.adopt p.recipient ∧
    (p.admitRanked budget ranking).report = { p.report with
      charged := p.report.charged + totalCharge chosen
      imported := p.report.imported + chosen.length } := by
  induction ranking generalizing p chosen with
  | nil =>
    cases hchosen
    exact ⟨rfl, rfl⟩
  | cons r rest ih =>
    rw [List.map_cons, admitted] at hchosen
    rw [admitRanked]
    split at hchosen
    · next hmet =>
      cases hchosen
      rw [if_pos hmet]
      exact ⟨rfl, rfl⟩
    · next hunmet =>
      cases hchosen
      rw [if_neg hunmet]
      obtain ⟨hhead, hrest⟩ := List.nodup_cons.mp hnodup
      -- The emptied candidate is at a position that the rest of the ranking does not have.
      have hsame : (rest.map fun r' => candidateAt (p.admitAt r.position).candidates r'.position) =
          rest.map fun r' => candidateAt p.candidates r'.position := by
        refine List.map_congr_left fun r' hr' => candidateAt_modify_of_ne ?_ _
        intro heq
        exact hhead (List.mem_map.mpr ⟨r', hr', heq.symm⟩)
      obtain ⟨hrecipient, hreport⟩ := ih hrest (congrArg (admitted budget _) hsame)
      refine ⟨hrecipient, hreport.trans ?_⟩
      simp only [admitAt, totalCharge, List.length_cons, Nat.add_assoc, Nat.add_comm 1]

end Pass

namespace Importer

/-- With the buffers, admission does what it does without them. -/
theorem importRanked_eq (i : Importer K) (probabilities : LiteralLikelihood K) {p : Pass T K}
    (hfirst : p.report.imported = 0) :
    (i.importRanked probabilities p).2 = p.importRanked i.selector probabilities := by
  let budget := i.selector.budget p.offered
  let q : Pass T K := { p with report.budget := budget }
  let ranking := (i.rank probabilities p.candidates).ranking.toList
  obtain ⟨hrecipient, hreport⟩ := Pass.admitRanked_eq budget (p := q)
    (i.nodup_positions probabilities p.candidates)
    (congrArg (admitted budget q.report.charged) (i.map_candidateAt_rank probabilities _))
  calc (i.importRanked probabilities p).2
      = ⟨(q.admitRanked budget ranking).recipient, (q.admitRanked budget ranking).report, #[]⟩ :=
        rfl
    _ = p.importRanked i.selector probabilities := by
        rw [hrecipient, hreport]
        simp only [Pass.importRanked, q, hfirst, Nat.zero_add, budget]

/-- A run with buffers gives what a plain run gives, whatever the buffers hold. -/
theorem run_eq (i : Importer K) (probabilities : LiteralLikelihood K) (t : T)
    (batch : List (List Int32)) :
    (i.run probabilities t batch).2 = i.selector.run probabilities t batch := by
  -- The queue is empty when the pass begins.
  rw [run, show (⟨t, .start, i.clearQueue.queue⟩ : Pass T K) = .start t from rfl, Selector.run]
  rcases hconsume : (Pass.start t : Pass T K).consume batch with ⟨p, e | final⟩
  · rfl
  cases final with
  | true => rfl
  | false =>
    have hfirst : p.report.imported = 0 := by
      have himported := Pass.imported_consume (Pass.start t : Pass T K) batch
      rwa [hconsume] at himported
    have himport : (i.clearQueue.importRanked probabilities p).2 =
        p.importRanked i.selector probabilities :=
      i.clearQueue.importRanked_eq probabilities hfirst
    dsimp only
    rw [himport]
    cases SolveStatus.of (p.importRanked i.selector probabilities).recipient <;> rfl

/-- A pass changes nothing but the buffers. -/
theorem selector_run (i : Importer K) (probabilities : LiteralLikelihood K) (t : T)
    (batch : List (List Int32)) : (i.run probabilities t batch).1.selector = i.selector := by
  rw [run]
  split
  · rfl
  · rfl
  · dsimp only
    split <;> rfl

end Importer

end ClauseSharing
