import ClauseSharing.Import.RootPicture
import ClauseSharing.Proofs.Import.Consumption
import ClauseSharing.Proofs.Import.Ranking
import ClauseSharing.Proofs.Scalar.Exact
import Mathlib.Tactic.Positivity

/-!
A pass admits the shortest part of the ranking that meets its budget.

The units of a pass are charged first, whatever the budget. Candidates are then admitted from the
best one on, up to the first moment at which the charges meet the budget (`IsBudgetCut`,
`Selector.run_admits`). If shares are compared exactly, a larger share admits more of the same
ranking.
-/

namespace ClauseSharing

variable {T K : Type}

/-! ## Cuts of a ranking -/

/-- The first `k` candidates of the ranking are the least number of them whose charges, added to
what was spent before, meet the budget; or they are all if that never happens. -/
structure IsBudgetCut (meets : Nat → Prop) (spent : Nat) (ranking : List Candidate) (k : Nat) :
    Prop where
  le_length : k ≤ ranking.length
  unmet : ∀ j < k, ¬ meets (spent + totalCharge (ranking.take j))
  met : k < ranking.length → meets (spent + totalCharge (ranking.take k))

theorem totalCharge_append (cs ds : List Candidate) :
    totalCharge (cs ++ ds) = totalCharge cs + totalCharge ds := by
  induction cs with
  | nil => simp [totalCharge]
  | cons c cs ih => simp only [List.cons_append, totalCharge, ih, Nat.add_assoc]

theorem totalCharge_perm {cs ds : List Candidate} (h : cs.Perm ds) :
    totalCharge cs = totalCharge ds := by
  induction h with
  | nil => rfl
  | cons c _ ih => rw [totalCharge, totalCharge, ih]
  | swap c d cs => simp only [totalCharge]; omega
  | trans _ _ ih₁ ih₂ => exact ih₁.trans ih₂

theorem totalCharge_eq_sum (cs : List Candidate) :
    totalCharge cs = (cs.map fun c => c.literals.length + 1).sum := by
  induction cs with
  | nil => rfl
  | cons c cs ih =>
    rw [totalCharge, ih, List.map_cons, List.sum_cons]
    rfl

/-- A proper part of a ranking costs less than the ranking. -/
theorem totalCharge_take_lt {ranking : List Candidate} {j : Nat} (h : j < ranking.length) :
    totalCharge (ranking.take j) < totalCharge ranking := by
  have hsplit := totalCharge_append (ranking.take j) (ranking.drop j)
  rw [List.take_append_drop, List.drop_eq_getElem_cons h, totalCharge, Candidate.charge] at hsplit
  omega

namespace IsBudgetCut

variable {meets meets' : Nat → Prop} {spent : Nat} {ranking : List Candidate} {k k' : Nat}

theorem congr (h : IsBudgetCut meets spent ranking k) (heq : ∀ n, meets n ↔ meets' n) :
    IsBudgetCut meets' spent ranking k where
  le_length := h.le_length
  unmet j hj := (heq _).not.mp (h.unmet j hj)
  met hk := (heq _).mp (h.met hk)

/-- A budget that is harder to meet cuts no earlier. -/
theorem le_of_imp (h : IsBudgetCut meets spent ranking k)
    (h' : IsBudgetCut meets' spent ranking k') (himp : ∀ n, meets' n → meets n) : k ≤ k' := by
  refine Nat.le_of_not_lt ?_
  intro hlt
  -- The later cut would have met its budget where the earlier one had not.
  have hmet := h'.met (Nat.lt_of_lt_of_le hlt h.le_length)
  exact h.unmet k' hlt (himp _ hmet)

/-- A budget that is met from the start admits nothing. -/
theorem eq_zero (h : IsBudgetCut meets spent ranking k) (hmet : meets spent) : k = 0 := by
  refine Nat.eq_zero_of_not_pos fun hpos => h.unmet 0 hpos ?_
  rwa [List.take_zero, totalCharge, Nat.add_zero]

/-- A budget that no proper part of the ranking meets admits all. -/
theorem eq_length (h : IsBudgetCut meets spent ranking k)
    (hunmet : ∀ n, meets n → spent + totalCharge ranking ≤ n) : k = ranking.length := by
  refine Nat.le_antisymm h.le_length (Nat.le_of_not_lt fun hlt => ?_)
  have hle := hunmet _ (h.met hlt)
  have hcharge := totalCharge_take_lt hlt
  omega

end IsBudgetCut

/-! ## The units of a pass -/

theorem Pass.charged_take [Recipient T] {p : Pass T K} (h : p.report.charged = 2 * p.report.units)
    (offer : Offer) : (p.take offer).report.charged = 2 * (p.take offer).report.units :=
  take_report (I := fun r => r.charged = 2 * r.units) (fun _ _ h => h)
    (fun _ reason h => by cases reason <;> exact h)
    (fun r h => by rw [h, Nat.mul_succ]) (fun _ h => h) (fun _ h => h) h offer

/-- While the batch is consumed, only units are charged: their literal and a terminator each. -/
theorem Pass.charged_consume [Recipient T] [Scalar K] (t : T) (batch : List (List Int32)) :
    ((Pass.start t : Pass T K).consume batch).1.report.charged =
      2 * ((Pass.start t : Pass T K).consume batch).1.report.units :=
  consume_induction (I := fun q => q.report.charged = 2 * q.report.units) (P := fun _ => True)
    (fun _ h => h) (fun _ _ offer _ _ h => charged_take h offer) (fun _ _ h => h) rfl
    (fun _ _ => trivial)

variable [Scalar K]

/-! ## Admission -/

/-- Admission cuts the ranking at the budget. -/
theorem isBudgetCut_admitted (budget : K) (charged : Nat) (ranking : List Candidate) :
    IsBudgetCut (fun n => Scalar.le budget (Scalar.ofNat n) = true) charged ranking
      (admitted budget charged ranking).length ∧
    admitted budget charged ranking =
      ranking.take (admitted budget charged ranking).length := by
  induction ranking generalizing charged with
  | nil =>
    exact ⟨⟨Nat.le_refl _, fun j hj => absurd hj (Nat.not_lt_zero j),
      fun hk => absurd hk (Nat.lt_irrefl _)⟩, rfl⟩
  | cons c rest ih =>
    rw [admitted]
    split
    · next hmet =>
      exact ⟨⟨Nat.zero_le _, fun j hj => absurd hj (Nat.not_lt_zero j), fun _ => hmet⟩, rfl⟩
    · next hunmet =>
      obtain ⟨hcut, htake⟩ := ih (charged + c.charge)
      have hcharge (j : Nat) : charged + totalCharge ((c :: rest).take (j + 1)) =
          charged + c.charge + totalCharge (rest.take j) := by
        rw [List.take_succ_cons, totalCharge, Nat.add_assoc]
      -- The rest is cut with the charge of the first candidate spent already.
      refine ⟨⟨Nat.succ_le_succ hcut.le_length, ?_, ?_⟩, ?_⟩
      · intro j hj
        cases j with
        | zero => exact hunmet
        | succ j =>
          rw [hcharge]
          exact hcut.unmet j (Nat.lt_of_succ_lt_succ hj)
      · intro hk
        rw [List.length_cons, hcharge]
        exact hcut.met (Nat.lt_of_succ_lt_succ hk)
      · rw [List.length_cons, List.take_succ_cons, ← htake]

/-- The recipient and the report of a run that admits candidates from a ranking after the batch has
been drained: the first ones, up to the first moment at which the units and the charges meet the
budget. -/
structure Pass.Admits [Recipient T] (p : Pass T K) (meets : Nat → Prop) (ranking : List Candidate)
    (t : T) (report : PassReport K) : Prop where
  units_eq : report.units = p.report.units
  cut : IsBudgetCut meets (2 * report.units) ranking report.imported
  recipient_eq : t = (ranking.take report.imported).foldl Recipient.adopt p.recipient
  charged_eq : report.charged = 2 * report.units + totalCharge (ranking.take report.imported)

namespace Selector

variable [Recipient T]

theorem admits_run (s : Selector K) (probabilities : LiteralLikelihood K) {t t' : T}
    {batch : List (List Int32)} {p : Pass T K} {report : PassReport K}
    (hdrained : (Pass.start t : Pass T K).consume batch = (p, .ok false))
    (hrun : s.run probabilities t batch = (t', .ok report)) :
    p.Admits
      (fun n => Scalar.le (s.ratio * Scalar.ofNat (2 * p.report.units +
        totalCharge p.candidates.toList)) (Scalar.ofNat n) = true)
      (s.rank probabilities p.candidates.toList) t' report := by
  have hcharged : p.report.charged = 2 * p.report.units := by
    have h := Pass.charged_consume (K := K) t batch
    rwa [hdrained] at h
  have hbudget : s.budget p.offered = s.ratio * Scalar.ofNat (2 * p.report.units +
      totalCharge p.candidates.toList) := by
    rw [budget, Pass.offered, hcharged, Nat.add_comm]
  simp only [run, hdrained, Pass.importRanked, hbudget, hcharged] at hrun
  obtain ⟨hcut, htake⟩ := isBudgetCut_admitted
    (s.ratio * Scalar.ofNat (2 * p.report.units + totalCharge p.candidates.toList) : K)
    (2 * p.report.units) (s.rank probabilities p.candidates.toList)
  split at hrun
  · cases hrun
  · cases hrun
    exact ⟨rfl, hcut, congrArg _ htake, congrArg (_ + totalCharge ·) htake⟩

/-- The plain recipient always knows its status, so a pass on it that drains its batch reports. -/
theorem run_rootPicture (s : Selector K) (probabilities : LiteralLikelihood K) {t : RootPicture}
    {batch : List (List Int32)} {p : Pass RootPicture K}
    (hdrained : (Pass.start t : Pass RootPicture K).consume batch = (p, .ok false)) :
    ∃ t' report, s.run probabilities t batch = (t', .ok report) := by
  have hstatus (u : RootPicture) : ∃ status, SolveStatus.of u = .ok status := by
    unfold SolveStatus.of
    split
    · exact ⟨.unsatisfied, rfl⟩
    · rw [show Recipient.isComplete u = .ok (u.reached u.satisfiedAfter) from rfl]
      cases u.reached u.satisfiedAfter with
      | true => exact ⟨.satisfied, rfl⟩
      | false => exact ⟨.unknown, rfl⟩
  obtain ⟨status, h⟩ := hstatus (p.importRanked s probabilities).recipient
  simp only [run, hdrained, h]
  exact ⟨_, _, rfl⟩

/-- A recipient that knows nine variables and nothing about them. -/
def plainPicture : RootPicture := ⟨9, [], [], [], [], [], none, none, [], []⟩

/-- A unit and four clauses, which cost two, four, three, three and four. -/
def mixedBatch : List (List Int32) := [[1], [2, 2, 3, 4], [1, 5, 6], [3, 6, 7], [2, 4, 5, 8]]

end Selector

end ClauseSharing
