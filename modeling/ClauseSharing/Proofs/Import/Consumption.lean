import ClauseSharing.Import.Pass

/-!
How a pass consumes its batch.

`Pass.Takes` lists what taking one offer can do to the recipient and to the queue of candidates, and
`Pass.Advances` what the first payload of a batch makes of a pass. Facts about a whole batch are
inductions over the latter: `Pass.consume_induction` carries a property of the pass from its start
to wherever it ends, over the payloads that it really takes (`Pass.consumed`), and
`Pass.consume_moments` does so where the step has to know the moment at which the pass comes to a
payload. `Selector.run_recipient` says what remains to be added of a whole run: a part of the queue,
and only if the batch was drained.
-/

namespace ClauseSharing

variable {T K : Type} [Recipient T]

/-! ## One offer -/

/-- A unit is taken if its literal is known and takes part in the search without being fixed. -/
theorem unitToAssign_eq_some {t : T} {external : Int32} {literal : Literal}
    (h : unitToAssign t external = some literal) :
    Recipient.resolve t external = some literal ∧ Recipient.standing t literal = .active := by
  unfold unitToAssign at h
  split at h
  · cases h
  split at h
  · cases h
  · next l hl =>
    split at h
    · next hactive =>
      cases h
      exact ⟨hl, hactive⟩
    · cases h

namespace Pass

/-- The external literal that is tried as a unit for an offer: the offered one, or the one that the
filter leaves of a clause. -/
def TriesUnit (t : T) (external : Int32) : Offer → Prop
  | .unit e => e = external
  | .clause _ externals => (Survey.of t externals).verdict = .unit external

/-- What taking an offer can make of a recipient and the queue. -/
inductive Takes (t : T) (queue : Array Candidate) : Offer → T → Array Candidate → Prop
  | passed (offer : Offer) : Takes t queue offer t queue
  | fixed {offer : Offer} {external : Int32} {literal : Literal}
      (tried : TriesUnit t external offer) (taken : unitToAssign t external = some literal) :
      Takes t queue offer (Recipient.fix t literal) queue
  | queued {glue : Nat} {externals : List Int32} {literals : List Literal}
      (kept : (Survey.of t externals).verdict = .candidate literals) :
      Takes t queue (.clause glue externals) t (queue.push ⟨literals, glue⟩)

theorem takes_takeUnit (t : T) (report : PassReport K) (queue : Array Candidate) (offer : Offer)
    {external : Int32} (tried : TriesUnit t external offer) :
    Takes t queue offer (takeUnit ⟨t, report, queue⟩ external).recipient
      (takeUnit ⟨t, report, queue⟩ external).candidates := by
  unfold takeUnit
  split
  · next literal h => exact .fixed tried h
  · exact .passed offer

theorem takes_take (p : Pass T K) (offer : Offer) :
    Takes p.recipient p.candidates offer (p.take offer).recipient (p.take offer).candidates := by
  cases offer with
  | unit external => exact takes_takeUnit p.recipient p.report p.candidates (.unit external) rfl
  | clause glue externals =>
    simp only [take, takeClause]
    split
    · exact .passed _
    · next external h => exact takes_takeUnit p.recipient _ p.candidates (.clause glue externals) h
    · next literals h => exact .queued h

/-- What every change of the counters keeps holds of the report after an offer. -/
theorem take_report {I : PassReport K → Prop}
    (removed : ∀ r n, I r → I { r with removedLiterals := n })
    (dropped : ∀ r reason, I r → I (r.discard reason))
    (assigned : ∀ r, I r → I { r with units := r.units + 1, charged := r.charged + 2 })
    (passedOver : ∀ r, I r → I { r with unitsPassedOver := r.unitsPassedOver + 1 })
    (queued : ∀ r, I r → I { r with candidates := r.candidates + 1 })
    {p : Pass T K} (h : I p.report) (offer : Offer) : I (p.take offer).report := by
  have hunit (q : Pass T K) (external : Int32) (hq : I q.report) :
      I (q.takeUnit external).report := by
    unfold takeUnit
    split
    · exact assigned _ hq
    · exact passedOver _ hq
  cases offer with
  | unit external => exact hunit p external h
  | clause glue externals =>
    have hremoved := removed p.report
      (p.report.removedLiterals + (Survey.of p.recipient externals).dropped) h
    simp only [take, takeClause]
    split
    · exact dropped _ _ hremoved
    · exact hunit _ _ hremoved
    · exact queued _ hremoved

theorem received_take (p : Pass T K) (offer : Offer) :
    (p.take offer).report.received = p.report.received :=
  take_report (I := fun r => r.received = p.report.received) (fun _ _ h => h)
    (fun _ reason h => by cases reason <;> exact h) (fun _ h => h) (fun _ h => h) (fun _ h => h) rfl
    offer

/-! ## The whole batch -/

/-- The pass after a payload that reads as an offer. -/
def step (p : Pass T K) (offer : Offer) (status : SolveStatus) : Pass T K :=
  let q := p.receive.take offer
  { q with report.status := status }

theorem received_step (p : Pass T K) (offer : Offer) (status : SolveStatus) :
    (p.step offer status).report.received = p.report.received + 1 :=
  received_take p.receive offer

/-- How consuming a batch goes on with its first payload. -/
theorem consume_cons (p : Pass T K) (payload : List Int32) (rest : List (List Int32)) :
    p.consume (payload :: rest) =
      match Offer.ofPayload payload with
      | .error e => (p.receive, .error (.malformed e))
      | .ok offer =>
        match SolveStatus.of (p.receive.take offer).recipient with
        | .error b => (p.receive.take offer, .error (.breach b))
        | .ok status =>
          if status.isFinal then (p.step offer status, .ok true)
          else (p.step offer status).consume rest := rfl

/-- What the first payload of a batch makes of a pass: it ends it in one of three ways, or the pass
goes on with the rest. -/
inductive Advances (p : Pass T K) (payload : List Int32) : Prop
  | malformed (e : PayloadError) (read : Offer.ofPayload payload = .error e)
      (ends : ∀ rest, p.consume (payload :: rest) = (p.receive, .error (.malformed e)))
  | breach (offer : Offer) (b : Breach) (read : Offer.ofPayload payload = .ok offer)
      (ends : ∀ rest, p.consume (payload :: rest) = (p.receive.take offer, .error (.breach b)))
  | solved (offer : Offer) (status : SolveStatus) (read : Offer.ofPayload payload = .ok offer)
      (ends : ∀ rest, p.consume (payload :: rest) = (p.step offer status, .ok true))
  | onward (offer : Offer) (status : SolveStatus) (read : Offer.ofPayload payload = .ok offer)
      (goes : ∀ rest, p.consume (payload :: rest) = (p.step offer status).consume rest)

theorem advances (p : Pass T K) (payload : List Int32) : p.Advances payload := by
  cases hread : Offer.ofPayload payload with
  | error e => exact .malformed e hread fun rest => by rw [consume_cons, hread]
  | ok offer =>
    cases hstatus : SolveStatus.of (p.receive.take offer).recipient with
    | error b => exact .breach offer b hread fun rest => by simp only [consume_cons, hread, hstatus]
    | ok status =>
      by_cases hfinal : status.isFinal
      · exact .solved offer status hread fun rest => by
          simp only [consume_cons, hread, hstatus, hfinal, if_true]
      · exact .onward offer status hread fun rest => by
          simp only [consume_cons, hread, hstatus, hfinal, Bool.false_eq_true, if_false]

/-- The first payload counts as received, and either it ends the pass or the pass goes on with the
rest. -/
theorem received_consume_cons (p : Pass T K) (payload : List Int32) (rest : List (List Int32)) :
    ∃ q : Pass T K, q.report.received = p.report.received + 1 ∧
      ((p.consume (payload :: rest)).1 = q ∨
        p.consume (payload :: rest) = q.consume rest) := by
  cases p.advances payload with
  | malformed _ _ ends => exact ⟨p.receive, rfl, .inl (congrArg (·.1) (ends rest))⟩
  | breach offer b _ ends =>
    exact ⟨p.receive.take offer, received_take p.receive offer, .inl (congrArg (·.1) (ends rest))⟩
  | solved offer status _ ends =>
    exact ⟨p.step offer status, received_step p offer status, .inl (congrArg (·.1) (ends rest))⟩
  | onward offer status _ goes =>
    exact ⟨p.step offer status, received_step p offer status, .inr (goes rest)⟩

theorem received_le_consume (p : Pass T K) (batch : List (List Int32)) :
    p.report.received ≤ (p.consume batch).1.report.received := by
  induction batch generalizing p with
  | nil => exact Nat.le_refl _
  | cons payload rest ih =>
    obtain ⟨q, hq, hends | hgoes⟩ := received_consume_cons p payload rest
    · rw [hends, hq]
      exact Nat.le_succ _
    · rw [hgoes]
      exact Nat.le_trans (hq ▸ Nat.le_succ _) (ih q)

/-- The payloads that a pass takes from its batch, a malformed one that ends it included. -/
def consumed (p : Pass T K) (batch : List (List Int32)) : List (List Int32) :=
  batch.take ((p.consume batch).1.report.received - p.report.received)

/-- The first payload of a batch is consumed. -/
theorem head_mem_consumed (p : Pass T K) (payload : List Int32) (rest : List (List Int32)) :
    payload ∈ p.consumed (payload :: rest) := by
  have hpos : p.report.received < (p.consume (payload :: rest)).1.report.received := by
    obtain ⟨q, hq, hends | hgoes⟩ := received_consume_cons p payload rest
    · rw [hends, hq]
      exact Nat.lt_succ_self _
    · rw [hgoes, ← Nat.succ_le_iff, Nat.succ_eq_add_one, ← hq]
      exact received_le_consume q rest
  obtain ⟨n, hn⟩ := Nat.exists_eq_add_of_lt hpos
  rw [consumed, hn, show p.report.received + n + 1 - p.report.received = n + 1 by omega]
  exact List.mem_cons_self

/-- Where the pass goes on after its first payload, it consumes what it consumes from there. -/
theorem mem_consumed_of_step {p q : Pass T K} {payload taken : List Int32}
    {rest : List (List Int32)} (hq : q.report.received = p.report.received + 1)
    (h : p.consume (payload :: rest) = q.consume rest) (ht : taken ∈ q.consumed rest) :
    taken ∈ p.consumed (payload :: rest) := by
  have hle := received_le_consume q rest
  rw [consumed, hq] at ht
  rw [consumed, h, show (q.consume rest).1.report.received - p.report.received =
    (q.consume rest).1.report.received - (p.report.received + 1) + 1 by omega]
  exact List.mem_cons_of_mem payload ht

/-- What counting, taking a consumed payload and noting a status keep holds wherever the batch
ends. -/
theorem consume_induction {I : Pass T K → Prop} {P : List Int32 → Prop}
    (receive : ∀ q, I q → I q.receive)
    (take : ∀ q payload offer, P payload → Offer.ofPayload payload = .ok offer →
      I q → I (q.take offer))
    (note : ∀ q status, I q → I { q with report.status := status })
    {p : Pass T K} {batch : List (List Int32)} (hp : I p)
    (hbatch : ∀ payload ∈ p.consumed batch, P payload) : I (p.consume batch).1 := by
  induction batch generalizing p with
  | nil => exact hp
  | cons payload rest ih =>
    have hhead := hbatch payload (head_mem_consumed p payload rest)
    cases p.advances payload with
    | malformed _ _ ends =>
      rw [ends]
      exact receive p hp
    | breach offer b read ends =>
      rw [ends]
      exact take p.receive payload offer hhead read (receive p hp)
    | solved offer status read ends =>
      rw [ends]
      exact note _ status (take p.receive payload offer hhead read (receive p hp))
    | onward offer status read goes =>
      have hstep := note _ status (take p.receive payload offer hhead read (receive p hp))
      rw [goes]
      -- What is taken from the rest was taken from the whole batch, so it has the property.
      refine ih hstep fun taken ht => hbatch taken ?_
      exact mem_consumed_of_step (received_step ..) (goes rest) ht

/-! ## The moments of a pass -/

/-- A batch is drained only if its first payload is an offer and lets the pass go on, whatever
follows. -/
theorem onward_of_drained {p m : Pass T K} {payload : List Int32} {batch : List (List Int32)}
    (h : p.consume (payload :: batch) = (m, .ok false)) :
    ∃ offer status, Offer.ofPayload payload = .ok offer ∧
      ∀ rest, p.consume (payload :: rest) = (p.step offer status).consume rest := by
  cases p.advances payload with
  | malformed _ _ ends | breach _ _ _ ends | solved _ _ _ ends =>
    rw [ends] at h
    cases h
  | onward offer status read goes => exact ⟨offer, status, read, goes⟩

/-- A pass that a batch does not end goes on with whatever follows the batch. -/
theorem consume_append {p q : Pass T K} {batch : List (List Int32)}
    (h : p.consume batch = (q, .ok false)) (rest : List (List Int32)) :
    p.consume (batch ++ rest) = q.consume rest := by
  induction batch generalizing p with
  | nil =>
    cases h
    rfl
  | cons payload batch ih =>
    obtain ⟨offer, status, -, goes⟩ := onward_of_drained h
    rw [goes] at h
    rw [List.cons_append, goes]
    exact ih h

/-- The pass `p` comes to a payload of its batch as `m`, with the payloads `after` still to come. -/
def ComesTo (p : Pass T K) (batch : List (List Int32)) (m : Pass T K) (payload : List Int32)
    (after : List (List Int32)) : Prop :=
  ∃ before, batch = before ++ payload :: after ∧ p.consume before = (m, .ok false)

theorem comesTo_head (p : Pass T K) (payload : List Int32) (rest : List (List Int32)) :
    p.ComesTo (payload :: rest) p payload rest :=
  ⟨[], rfl, rfl⟩

/-- What a pass comes to after its first payload, it comes to. -/
theorem ComesTo.cons {p q m : Pass T K} {payload taken : List Int32}
    {rest after : List (List Int32)} (hgo : p.consume [payload] = (q, .ok false))
    (h : q.ComesTo rest m taken after) : p.ComesTo (payload :: rest) m taken after := by
  obtain ⟨before, rfl, hbefore⟩ := h
  exact ⟨payload :: before, rfl, (consume_append hgo before).trans hbefore⟩

theorem ComesTo.consume_eq {p m : Pass T K} {batch after : List (List Int32)}
    {payload : List Int32} (h : p.ComesTo batch m payload after) :
    p.consume batch = m.consume (payload :: after) := by
  obtain ⟨before, rfl, hbefore⟩ := h
  exact consume_append hbefore (payload :: after)

/-- What counting and noting a status keep, and what taking an offer keeps when the pass comes to it,
holds wherever the batch ends. -/
theorem consume_moments {I : Pass T K → Prop} (receive : ∀ q, I q → I q.receive)
    (note : ∀ q status, I q → I { q with report.status := status })
    {p : Pass T K} {batch : List (List Int32)}
    (take : ∀ m payload after offer, p.ComesTo batch m payload after →
      Offer.ofPayload payload = .ok offer → I m.receive → I (m.receive.take offer))
    (hp : I p) : I (p.consume batch).1 := by
  induction batch generalizing p with
  | nil => exact hp
  | cons payload rest ih =>
    have htake {offer : Offer} (read : Offer.ofPayload payload = .ok offer) :
        I (p.receive.take offer) :=
      take p payload rest offer (comesTo_head p payload rest) read (receive p hp)
    cases p.advances payload with
    | malformed _ _ ends =>
      rw [ends]
      exact receive p hp
    | breach offer b read ends =>
      rw [ends]
      exact htake read
    | solved offer status read ends =>
      rw [ends]
      exact note _ status (htake read)
    | onward offer status read goes =>
      rw [goes]
      -- What the pass comes to from here on, it comes to in the whole batch.
      refine ih ?_ (note _ status (htake read))
      exact fun m taken after offer hcomes => take m taken after offer (hcomes.cons (goes []))

/-- The payload offers a clause of which the filter leaves the candidate. -/
def Leaves (t : T) (payload : List Int32) (d : Candidate) : Prop :=
  ∃ externals, Offer.ofPayload payload = .ok (.clause d.glue externals) ∧
    (Survey.of t externals).verdict = .candidate d.literals

/-- Every candidate on the queue was there from the start, or is what the filter left of a payload
when the pass came to it. -/
theorem mem_candidates_consume {p : Pass T K} {batch : List (List Int32)} {d : Candidate}
    (hd : d ∈ (p.consume batch).1.candidates) :
    d ∈ p.candidates ∨ ∃ m payload after, p.ComesTo batch m payload after ∧
      Leaves m.recipient payload d := by
  refine consume_moments (I := fun q => d ∈ q.candidates → d ∈ p.candidates ∨
    ∃ m payload after, p.ComesTo batch m payload after ∧ Leaves m.recipient payload d)
    (fun _ h => h) (fun _ _ h => h) (fun m payload after offer hcomes hoffer h hd => ?_) .inl hd
  have htakes := takes_take m.receive offer
  generalize (m.receive.take offer).recipient = t, (m.receive.take offer).candidates = queue
    at htakes hd
  cases htakes with
  | passed | fixed => exact h hd
  | queued kept =>
    rcases Array.mem_push.mp hd with hd | rfl
    · exact h hd
    · exact .inr ⟨m, payload, after, hcomes, _, hoffer, kept⟩

end Pass

/-! ## A whole run -/

theorem admitted_prefix [Scalar K] (budget : K) (charged : Nat) (ranking : List Candidate) :
    admitted budget charged ranking <+: ranking := by
  induction ranking generalizing charged with
  | nil => exact List.prefix_rfl
  | cons c rest ih =>
    rw [admitted]
    split
    · exact List.nil_prefix
    · exact List.cons_prefix_cons.mpr ⟨rfl, ih (charged + c.charge)⟩

namespace Selector

variable [Scalar K]

/-- A ranking has all candidates, each as often as it was there. -/
theorem perm_rank (s : Selector K) (p : LiteralLikelihood K) (candidates : List Candidate) :
    (s.rank p candidates).Perm candidates := by
  have hsorted := (List.mergeSort_perm (candidates.map fun c => (s.score p c, c))
    fun x y => (s.compareScored x y).isLE).map (·.2)
  rwa [List.map_map, show ((·.2) ∘ fun c => (s.score p c, c)) = id from rfl, List.map_id] at hsorted

/-- A run adds the first ones of the ranking of what the batch left, and that only if it was
drained. -/
theorem run_recipient_prefix (s : Selector K) (probabilities : LiteralLikelihood K) (t : T)
    (batch : List (List Int32)) :
    ∃ chosen : List Candidate,
      chosen <+:
        s.rank probabilities ((Pass.start t : Pass T K).consume batch).1.candidates.toList ∧
      (s.run probabilities t batch).1 =
        chosen.foldl Recipient.adopt ((Pass.start t : Pass T K).consume batch).1.recipient := by
  unfold run
  split
  · next h => exact ⟨[], List.nil_prefix, by simp [h]⟩
  · next h => exact ⟨[], List.nil_prefix, by simp [h]⟩
  · next p h =>
    -- The status after admission decides over the answer only, not over the recipient.
    refine ⟨admitted (s.budget p.offered) p.report.charged
      (s.rank probabilities p.candidates.toList), ?_, ?_⟩
    · rw [h]
      exact admitted_prefix ..
    · rw [h]
      dsimp only
      split <;> rfl

/-- A run adds candidates that the batch left, and nothing else. -/
theorem run_recipient (s : Selector K) (probabilities : LiteralLikelihood K) (t : T)
    (batch : List (List Int32)) :
    ∃ chosen : List Candidate,
      (∀ c ∈ chosen, c ∈ ((Pass.start t : Pass T K).consume batch).1.candidates) ∧
      (s.run probabilities t batch).1 =
        chosen.foldl Recipient.adopt ((Pass.start t : Pass T K).consume batch).1.recipient := by
  obtain ⟨chosen, hchosen, hrun⟩ := s.run_recipient_prefix probabilities t batch
  refine ⟨chosen, fun c hc => ?_, hrun⟩
  exact Array.mem_toList_iff.mp ((s.perm_rank probabilities _).subset (hchosen.subset hc))

/-- What assigning a unit that can be taken and adding a clause keep holds of the recipient after a
run. -/
theorem run_induction {P : T → Prop}
    (fix : ∀ t external literal, unitToAssign t external = some literal → P t →
      P (Recipient.fix t literal))
    (adopt : ∀ t c, P t → P (Recipient.adopt t c)) (s : Selector K)
    (probabilities : LiteralLikelihood K) {t : T} (ht : P t) (batch : List (List Int32)) :
    P (s.run probabilities t batch).1 := by
  have hconsumed : P ((Pass.start t : Pass T K).consume batch).1.recipient := by
    refine Pass.consume_induction (I := fun q => P q.recipient) (P := fun _ => True)
      (fun _ h => h) (fun q _ offer _ _ h => ?_) (fun _ _ h => h) ht (fun _ _ => trivial)
    have htakes := Pass.takes_take q offer
    generalize (q.take offer).recipient = t', (q.take offer).candidates = queue at htakes ⊢
    cases htakes with
    | passed | queued => exact h
    | fixed tried taken => exact fix q.recipient _ _ taken h
  obtain ⟨chosen, -, hrun⟩ := run_recipient s probabilities t batch
  rw [hrun]
  exact List.foldlRecOn (motive := P) chosen Recipient.adopt hconsumed fun t ht c _ => adopt t c ht

end Selector

end ClauseSharing
