import ClauseSharing.Proofs.Import.Budget
import ClauseSharing.Proofs.Import.Filtering
import ClauseSharing.Proofs.Import.Projection

/-!
The report of a pass balances.

Whatever a pass takes from its batch ends in one of four ways: a unit is assigned or passed over,
and a clause waits as a candidate or is dropped (`Pass.Settles`). So the counters for these ways add
up to the number of clauses received (`Pass.Balanced`).

A recipient with a record of what it is told to do (`Recorded`) shows how often it was told to
assign a unit or to add a clause. A pass cannot tell it from the recipient without the record, so
the report of every pass is that of a recorded one (`Importer.report_balances`).
-/

namespace ClauseSharing

variable {T K : Type} [Recipient T]

/-! ## Records -/

/-- What a recipient can be told to do. -/
inductive Deed where
  | fix (l : Literal)
  | adopt (c : Candidate)

/-- A recipient with the record of all that it was told to do. -/
structure Recorded (T : Type) where
  recipient : T
  deeds : List Deed

namespace Recorded

instance : Recipient (Recorded T) where
  forbids r := Recipient.forbids r.recipient
  resolve r := Recipient.resolve r.recipient
  standing r := Recipient.standing r.recipient
  fix r l := ⟨Recipient.fix r.recipient l, r.deeds ++ [.fix l]⟩
  adopt r c := ⟨Recipient.adopt r.recipient c, r.deeds ++ [.adopt c]⟩
  refuted r := Recipient.refuted r.recipient
  isComplete r := Recipient.isComplete r.recipient

theorem projects_recipient : Recipient.Projects (recipient : Recorded T → T) where
  forbids _ _ := rfl
  resolve _ _ := rfl
  standing _ _ := rfl
  fix _ _ := rfl
  adopt _ _ := rfl
  refuted _ := rfl
  isComplete _ := rfl

theorem deeds_foldl_adopt (added : List Candidate) (r : Recorded T) :
    (added.foldl Recipient.adopt r).deeds = r.deeds ++ added.map .adopt := by
  induction added generalizing r with
  | nil => exact (List.append_nil _).symm
  | cons c added ih =>
    rw [List.foldl_cons, ih, List.map_cons]
    exact List.append_assoc ..

end Recorded

/-! ## One offer -/

/-- How many of the clauses taken from a batch have ended in which way. -/
structure Tally where
  units : Nat
  unitsPassedOver : Nat
  candidates : Nat
  discarded : Nat

def Tally.total (c : Tally) : Nat := c.units + c.unitsPassedOver + c.candidates + c.discarded

namespace PassReport

def tally (r : PassReport K) : Tally := ⟨r.units, r.unitsPassedOver, r.candidates, r.discarded⟩

theorem tally_discard (r : PassReport K) (reason : Discard) :
    (r.discard reason).tally = { r.tally with discarded := r.discarded + 1 } := by
  have hdiscarded : (r.discard reason).discarded = r.discarded + 1 := by
    cases reason <;> simp only [discard, discarded] <;> omega
  have hrest : (r.discard reason).tally =
      ⟨r.units, r.unitsPassedOver, r.candidates, (r.discard reason).discarded⟩ := by
    cases reason <;> rfl
  rw [hrest, hdiscarded]
  rfl

end PassReport

namespace Pass

/-- What taking an offer can make of a recipient, the queue and the counters: one clause more has
ended in one of the four ways. -/
inductive Settles (t : T) (queue : Array Candidate) (c : Tally) : T → Array Candidate → Tally → Prop
  | assigned (l : Literal) :
      Settles t queue c (Recipient.fix t l) queue { c with units := c.units + 1 }
  | passedOver : Settles t queue c t queue { c with unitsPassedOver := c.unitsPassedOver + 1 }
  | queued (d : Candidate) :
      Settles t queue c t (queue.push d) { c with candidates := c.candidates + 1 }
  | dropped : Settles t queue c t queue { c with discarded := c.discarded + 1 }

theorem Settles.total_eq {t t' : T} {queue queue' : Array Candidate} {c c' : Tally}
    (h : Settles t queue c t' queue' c') : c'.total = c.total + 1 := by
  cases h <;> simp only [Tally.total] <;> omega

variable {p q : Pass T K}

theorem TakesUnit.settles {e : Int32} (h : p.TakesUnit e q) :
    Settles p.recipient p.candidates p.report.tally q.recipient q.candidates q.report.tally := by
  cases h with
  | assigned => exact .assigned _
  | passedOver => exact .passedOver

theorem Filters.settles {glue : Nat} {externals : List Int32} (h : p.Filters glue externals q) :
    Settles p.recipient p.candidates p.report.tally q.recipient q.candidates q.report.tally := by
  cases h with
  | disqualified | falsified =>
    rw [dropping, PassReport.tally_discard]
    exact .dropped
  -- The removed literals of a clause that shrinks to a unit are not counted as clauses.
  | shrunk => exact (p.takesUnit_take _).settles
  | queued => exact .queued _

theorem settles_take (p : Pass T K) (offer : Offer) :
    Settles p.recipient p.candidates p.report.tally (p.take offer).recipient
      (p.take offer).candidates (p.take offer).report.tally := by
  cases offer with
  | unit e => exact (p.takesUnit_take e).settles
  | clause glue externals => exact (p.filters_take glue externals).settles

end Pass

/-! ## The whole batch -/

/-- The counters add up to what was received, and those for units and candidates are right. -/
structure Balanced (r : Recorded T) (queue : Array Candidate) (received : Nat) (c : Tally) :
    Prop where
  received_eq : received = c.total
  units : ∃ units : List Literal, r.deeds = units.map .fix ∧ c.units = units.length
  candidates_eq : c.candidates = queue.size

theorem Balanced.settle {r r' : Recorded T} {queue queue' : Array Candidate} {received : Nat}
    {c c' : Tally} (h : Balanced r queue received c)
    (hsettles : Pass.Settles r queue c r' queue' c') :
    Balanced r' queue' (received + 1) c' := by
  obtain ⟨hreceived, ⟨units, hdeeds, hunits⟩, hcandidates⟩ := h
  have htotal : received + 1 = c'.total := by rw [hreceived, hsettles.total_eq]
  cases hsettles with
  | assigned l =>
    refine ⟨htotal, ⟨units ++ [l], ?_, ?_⟩, hcandidates⟩
    · rw [List.map_append, ← hdeeds]
      rfl
    · rw [List.length_append, ← hunits]
      rfl
  | passedOver | dropped => exact ⟨htotal, ⟨units, hdeeds, hunits⟩, hcandidates⟩
  | queued d =>
    refine ⟨htotal, ⟨units, hdeeds, hunits⟩, ?_⟩
    rw [Array.size_push, ← hcandidates]

namespace Pass

/-- The report of the pass balances with its record and its queue. -/
def Balances (p : Pass (Recorded T) K) : Prop :=
  Balanced p.recipient p.candidates p.report.received p.report.tally

variable {p q : Pass (Recorded T) K}

omit [Recipient T] in
theorem balances_start [Scalar K] (t : T) : (Pass.start ⟨t, []⟩ : Pass (Recorded T) K).Balances :=
  ⟨rfl, ⟨[], rfl, rfl⟩, rfl⟩

theorem Balances.step (h : p.Balances) (offer : Offer) (status : SolveStatus) :
    (p.step offer status).Balances := by
  rw [Balances, received_step]
  exact h.settle (p.receive.settles_take offer)

/-- A batch that does not cut the pass short keeps the balance. -/
theorem Balances.consume {batch : List (List Int32)} {stopped : Bool} (h : p.Balances)
    (hconsume : p.consume batch = (q, .ok stopped)) : q.Balances := by
  induction batch generalizing p with
  | nil =>
    cases hconsume
    exact h
  | cons payload rest ih =>
    cases p.advances payload with
    | malformed _ _ ends | breach _ _ _ ends =>
      rw [ends] at hconsume
      cases hconsume
    | solved offer status _ ends =>
      rw [ends] at hconsume
      cases hconsume
      exact h.step offer status
    | onward offer status _ goes =>
      rw [goes] at hconsume
      exact ih (h.step offer status) hconsume

end Pass

/-! ## Whole runs -/

namespace Selector

variable [Scalar K]

/-- What a run that answers does after its batch: it adds the first ones of a ranking of the queue,
or nothing if the recipient is solved, and counts what it adds and what that costs. -/
theorem run_answers (s : Selector K) {probabilities : LiteralLikelihood K} {t t' : T}
    {batch : List (List Int32)} {report : PassReport K}
    (h : s.run probabilities t batch = (t', .ok report)) :
    ∃ (p : Pass T K) (stopped : Bool) (added : List Candidate),
      (Pass.start t : Pass T K).consume batch = (p, .ok stopped) ∧
      added <+: s.rank probabilities p.candidates.toList ∧ (stopped = true → added = []) ∧
      t' = added.foldl Recipient.adopt p.recipient ∧
      report.received = p.report.received ∧ report.tally = p.report.tally ∧
      report.imported = added.length ∧
      report.charged = 2 * p.report.units + totalCharge added := by
  have hcharged := Pass.charged_consume (K := K) t batch
  have himported := Pass.imported_consume (Pass.start t : Pass T K) batch
  unfold run at h
  split at h
  · cases h
  · next p hconsume =>
    cases h
    rw [hconsume] at hcharged himported
    exact ⟨p, true, [], hconsume, List.nil_prefix, fun _ => rfl, rfl, rfl, rfl, himported, hcharged⟩
  · next p hconsume =>
    rw [hconsume] at hcharged
    dsimp only at h
    split at h <;> cases h
    refine ⟨p, false, _, hconsume, admitted_prefix .., nofun, rfl, rfl, rfl, rfl, ?_⟩
    exact congrArg (· + totalCharge _) hcharged

end Selector

/-! ## Main statement -/

namespace Importer

variable [Scalar K]

/-- A recipient that keeps a record answers every pass as the one without it does, so the record
tells what the pass did. -/
theorem run_recorded (i : Importer K) (probabilities : LiteralLikelihood K) (r : Recorded T)
    (batch : List (List Int32)) :
    (i.run probabilities r.recipient batch).2 =
      ((i.run probabilities r batch).2.1.recipient, (i.run probabilities r batch).2.2) := by
  rw [run_eq, run_eq]
  exact i.selector.run_map Recorded.projects_recipient probabilities r batch

/-- Take a pass that answers with a report, for any importer, recipient, probabilities and batch.
The clauses received are the units, assigned or passed over, the candidates and the dropped clauses.
The recipient has been told to assign as many units as are reported, and then to add as many clauses
as are reported, which are no more than the candidates, and none if the recipient was found to be
solved before the batch was drained. The pass has charged two for each unit and, for each added
clause, its literals and one. An added clause is what stays of a payload that the pass came to, so
it has two literals or more, and no more than the payload offers. -/
theorem report_balances (i : Importer K) (probabilities : LiteralLikelihood K) {t t' : T}
    {batch : List (List Int32)} {report : PassReport K}
    (answers : (i.run probabilities t batch).2 = (t', .ok report)) :
    report.received =
      report.units + report.unitsPassedOver + report.candidates + report.discarded ∧
    ∃ (units : List Literal) (added : List Candidate),
      (i.run probabilities (⟨t, []⟩ : Recorded T) batch).2 =
        (⟨t', units.map .fix ++ added.map .adopt⟩, .ok report) ∧
      report.units = units.length ∧ report.imported = added.length ∧
      report.imported ≤ report.candidates ∧
      (((Pass.start t : Pass T K).consume batch).2 = .ok true → report.imported = 0) ∧
      report.charged = 2 * report.units + (added.map fun d => d.literals.length + 1).sum ∧
      ∀ d ∈ added, 2 ≤ d.literals.length ∧ ∃ m glue externals after,
        (Pass.start t : Pass T K).ComesTo batch m (glue :: externals) after ∧
        Pass.StaysOf m.recipient (glue :: externals) d ∧
        d.literals.length ≤ externals.length := by
  -- The same run with a record of what the recipient is told.
  have hmap := i.run_recorded probabilities (⟨t, []⟩ : Recorded T) batch
  obtain ⟨⟨u, deeds⟩, hrecorded⟩ : ∃ r, (i.run probabilities (⟨t, []⟩ : Recorded T) batch).2 =
      (r, .ok report) := ⟨_, Prod.ext rfl ((congrArg (·.2) (hmap.symm.trans answers)))⟩
  rw [answers, hrecorded] at hmap
  cases hmap
  rw [run_eq] at hrecorded
  obtain ⟨p, stopped, added, hconsume, hadded, hstopped, hrecipient, hreceived, htally, himported,
    hcharged⟩ := i.selector.run_answers hrecorded
  obtain ⟨htotal, ⟨units, hdeeds, hunits⟩, hcandidates⟩ := (Pass.balances_start t).consume hconsume
  rw [← hreceived, ← htally] at htotal
  rw [← htally] at hunits hcandidates
  -- The pass without the record has consumed the batch in the same way.
  have hplain : (Pass.start t : Pass T K).consume batch =
      (p.map Recorded.recipient, .ok stopped) := by
    have hconsumed := Pass.consume_map Recorded.projects_recipient
      (Pass.start ⟨t, []⟩ : Pass (Recorded T) K) batch
    rwa [hconsume] at hconsumed
  have hrecord : deeds = units.map .fix ++ added.map .adopt := by
    rw [← hdeeds, ← Recorded.deeds_foldl_adopt, ← hrecipient]
  refine ⟨htotal, units, added, ?_, hunits, himported, ?_, fun hearly => ?_, ?_, fun d hd => ?_⟩
  · rw [run_eq, hrecorded, hrecord]
  · have hlength := hadded.length_le
    rw [(i.selector.perm_rank probabilities _).length_eq, Array.length_toList] at hlength
    rw [himported]
    exact hlength.trans_eq hcandidates.symm
  · rw [hplain] at hearly
    cases hearly
    rw [himported, hstopped rfl, List.length_nil]
  · rw [hcharged, totalCharge_eq_sum]
    exact congrArg (2 * · + _) (congrArg Tally.units htally.symm)
  · have hqueue : d ∈ ((Pass.start t : Pass T K).consume batch).1.candidates := by
      rw [hplain]
      exact Array.mem_toList_iff.mp
        ((i.selector.perm_rank probabilities _).subset (hadded.subset hd))
    rcases Pass.mem_candidates_consume hqueue with hstart | ⟨m, payload, after, hcomes, hleaves⟩
    · cases (Array.mem_toList_iff.mpr hstart)
    have hstays := hleaves.staysOf
    obtain ⟨glue, externals, rfl, -, -, hlong, rfl⟩ := hleaves.staysOf
    exact ⟨hlong, m, glue, externals, after, hcomes, hstays, Recipient.length_unfixed_le ..⟩

/-- Of eight clauses, one unit is assigned and one passed over, one clause is added and five are
dropped. -/
theorem report_balances_everyFate :
    ∃ (t' : RootPicture) (report : PassReport Rat) (units : List Literal) (added : List Candidate),
      ((fresh admitAll).run (.ofTable [] (0, 0)) (⟨mixedStandings, []⟩ : Recorded RootPicture)
        (everyFate.take 8)).2 = (⟨t', units.map .fix ++ added.map .adopt⟩, .ok report) ∧
      report.received = 1 + 1 + 1 + 5 ∧ units.length = 1 ∧ added.length = 1 ∧
      6 = 2 * 1 + (added.map fun d => d.literals.length + 1).sum := by
  have answers : ((fresh admitAll).run (.ofTable [] (0, 0)) mixedStandings (everyFate.take 8)).2 =
      (((fresh admitAll).run (.ofTable [] (0, 0)) mixedStandings (everyFate.take 8)).2.1,
        .ok ⟨.unknown, 8, 1, 1, 1, 1, 1, 1, 1, 1, 1, 7, 6, 6⟩) :=
    Prod.ext rfl (by decide +kernel)
  obtain ⟨htotal, units, added, hrecorded, hunits, himported, -, -, hcharged, -⟩ :=
    report_balances (fresh admitAll) (.ofTable [] (0, 0)) answers
  exact ⟨_, _, units, added, hrecorded, htotal, hunits.symm, himported.symm, hcharged⟩

end Importer

end ClauseSharing
