import ClauseSharing.Proofs.Import.Streams

/-!
What becomes of a payload is decided by what the recipient answers at that moment.

The answers about single literals decide first: whether a literal is disqualified and for which
reason (`Recipient.RulesOut`), and which literals are false at the root
(`Recipient.FixedFalse`, `Recipient.unfixed`). They leave a clause one of four fates, and each fate
is one change of the pass (`Pass.Filters`). The literal of a unit is assigned or passed over
(`Pass.TakesUnit`). The queue then holds the clauses as the filter left them, and a run adds the
first ones of a ranking of the queue (`Importer.filters_by_present_answers`).
-/

namespace ClauseSharing

variable {T K : Type} [Recipient T]

/-! ## Answers about literals -/

namespace Recipient

variable {t : T} {e : Int32} {reason : Discard} {externals : List Int32}

/-- Why a literal disqualifies the clauses that have it. The questions are asked in this order, and
the first one that disqualifies is the reason. -/
inductive RulesOut (t : T) (e : Int32) : Discard → Prop
  | forbidden (forbids_eq : forbids t e = true) : RulesOut t e .forbidden
  | unknown (allowed : forbids t e = false) (resolve_eq : resolve t e = none) :
      RulesOut t e .unknown
  | eliminated {l : Literal} (allowed : forbids t e = false) (known : resolve t e = some l)
      (standing_eq : standing t l = .eliminated) : RulesOut t e .eliminated
  | satisfied {l : Literal} (allowed : forbids t e = false) (known : resolve t e = some l)
      (standing_eq : standing t l = .fixed true) : RulesOut t e .satisfied

/-- Clauses that have the literal are not imported. -/
def Disqualified (t : T) (e : Int32) : Prop :=
  forbids t e = true ∨ resolve t e = none ∨
    ∃ l, resolve t e = some l ∧ (standing t l = .eliminated ∨ standing t l = .fixed true)

/-- The literal is known and false at the root. -/
def FixedFalse (t : T) (e : Int32) : Prop :=
  ∃ l, resolve t e = some l ∧ standing t l = .fixed false

/-- What the literals stand for, in their order and as often as they occur, without those that are
false at the root. -/
def unfixed (t : T) (externals : List Int32) : List Literal :=
  (externals.filterMap (resolve t)).filter (standing t · ≠ .fixed false)

/-- The number of the literals that are false at the root. -/
def fixedCount (t : T) (externals : List Int32) : Nat :=
  (externals.filterMap (resolve t)).countP (standing t · = .fixed false)

/-- The literal is assigned when it comes as a unit. -/
def Takeable (t : T) (e : Int32) (l : Literal) : Prop :=
  forbids t e = false ∧ resolve t e = some l ∧ standing t l = .active

theorem exists_rulesOut_iff : (∃ reason, RulesOut t e reason) ↔ Disqualified t e := by
  constructor
  · rintro ⟨_, h⟩
    cases h with
    | forbidden forbids_eq => exact .inl forbids_eq
    | unknown _ resolve_eq => exact .inr (.inl resolve_eq)
    | eliminated _ known standing_eq => exact .inr (.inr ⟨_, known, .inl standing_eq⟩)
    | satisfied _ known standing_eq => exact .inr (.inr ⟨_, known, .inr standing_eq⟩)
  · intro h
    cases hforbids : forbids t e with
    | true => exact ⟨_, .forbidden hforbids⟩
    | false =>
      rcases h with hforbidden | hunknown | ⟨l, hknown, hstanding | hstanding⟩
      · exact absurd hforbidden (by simp [hforbids])
      · exact ⟨_, .unknown hforbids hunknown⟩
      · exact ⟨_, .eliminated hforbids hknown hstanding⟩
      · exact ⟨_, .satisfied hforbids hknown hstanding⟩

theorem mem_unfixed {l : Literal} :
    l ∈ unfixed t externals ↔
      ∃ e ∈ externals, resolve t e = some l ∧ standing t l ≠ .fixed false := by
  simp [unfixed, ← exists_and_right, and_assoc]

theorem length_unfixed_le (t : T) (externals : List Int32) :
    (unfixed t externals).length ≤ externals.length :=
  Nat.le_trans (List.length_filter_le ..) (List.length_filterMap_le ..)

/-- Of literals that do not disqualify, none stays only if all are false at the root. -/
theorem unfixed_eq_nil_iff (qualified : ∀ e ∈ externals, ¬ Disqualified t e) :
    unfixed t externals = [] ↔ ∀ e ∈ externals, FixedFalse t e := by
  rw [List.eq_nil_iff_forall_not_mem]
  constructor
  · intro h e he
    cases hknown : resolve t e with
    | none => exact absurd (.inr (.inl hknown)) (qualified e he)
    | some l =>
      refine ⟨l, hknown, ?_⟩
      by_contra hstanding
      exact h l (mem_unfixed.mpr ⟨e, he, hknown, hstanding⟩)
  · intro h l hl
    obtain ⟨e, he, hknown, hstanding⟩ := mem_unfixed.mp hl
    obtain ⟨l', hknown', hfalse⟩ := h e he
    cases hknown.symm.trans hknown'
    exact hstanding hfalse

/-- Nothing disqualifies the clause, or there is a leftmost literal that does. -/
theorem qualified_or_exists_leftmost (t : T) (externals : List Int32) :
    (∀ e ∈ externals, ¬ Disqualified t e) ∨
    ∃ before e after, externals = before ++ e :: after ∧
      (∀ d ∈ before, ¬ Disqualified t d) ∧ Disqualified t e := by
  induction externals with
  | nil => exact .inl nofun
  | cons e rest ih =>
    by_cases he : Disqualified t e
    · exact .inr ⟨[], e, rest, rfl, nofun, he⟩
    · rcases ih with hrest | ⟨before, e', after, rfl, hbefore, he'⟩
      · exact .inl (List.forall_mem_cons.mpr ⟨he, hrest⟩)
      · exact .inr ⟨e :: before, e', after, rfl, List.forall_mem_cons.mpr ⟨he, hbefore⟩, he'⟩

end Recipient

/-! ## Verdicts -/

section Filter

open Recipient (RulesOut Disqualified FixedFalse Takeable unfixed fixedCount)

variable {t : T} {e : Int32} {reason : Discard} {externals : List Int32}

theorem LiteralVerdict.of_eq_disqualifies_iff :
    of t e = .disqualifies reason ↔ RulesOut t e reason := by
  constructor
  · intro h
    unfold of at h
    split at h
    · next hforbids =>
      cases h
      exact .forbidden hforbids
    next hallowed =>
    replace hallowed := Bool.eq_false_of_not_eq_true hallowed
    split at h
    · next hunknown =>
      cases h
      exact .unknown hallowed hunknown
    · next l hknown =>
      split at h <;> cases h
      · next hstanding => exact .eliminated hallowed hknown hstanding
      · next hstanding => exact .satisfied hallowed hknown hstanding
  · intro h
    cases h with
    | forbidden forbids_eq => simp [of, forbids_eq]
    | unknown allowed resolve_eq => simp [of, allowed, resolve_eq]
    | eliminated allowed known standing_eq | satisfied allowed known standing_eq =>
      simp [of, allowed, known, standing_eq]

/-- A literal that does not disqualify is removed or stays. -/
theorem LiteralVerdict.of_qualified (h : ¬ Disqualified t e) :
    ∃ l, Recipient.resolve t e = some l ∧
      (Recipient.standing t l = .fixed false ∧ of t e = .falsified ∨
        Recipient.standing t l ≠ .fixed false ∧ of t e = .kept l) := by
  cases hverdict : of t e with
  | disqualifies reason =>
    exact absurd (Recipient.exists_rulesOut_iff.mp ⟨_, of_eq_disqualifies_iff.mp hverdict⟩) h
  | falsified =>
    obtain ⟨l, hknown, hstanding⟩ := of_eq_falsified hverdict
    exact ⟨l, hknown, .inl ⟨hstanding, rfl⟩⟩
  | kept l =>
    refine ⟨l, of_eq_kept hverdict, .inr ⟨?_, rfl⟩⟩
    rcases standing_of_eq_kept hverdict with hstanding | hstanding <;> simp [hstanding]

namespace Survey

variable {before : List Int32}

/-- Literals that do not disqualify are looked at without an effect on what follows them. -/
theorem of_append (qualified : ∀ d ∈ before, ¬ Disqualified t d) (rest : List Int32) :
    of t (before ++ rest) =
      ⟨(of t before).kept ++ (of t rest).kept, fixedCount t before + (of t rest).dropped,
        (of t rest).disqualified⟩ := by
  induction before with
  | nil => simp [of, fixedCount]
  | cons d before ih =>
    obtain ⟨hd, hbefore⟩ := List.forall_mem_cons.mp qualified
    obtain ⟨l, hknown, hcases⟩ := LiteralVerdict.of_qualified hd
    have hcount : fixedCount t (d :: before) =
        fixedCount t before + if Recipient.standing t l = .fixed false then 1 else 0 := by
      simp [fixedCount, hknown, List.countP_cons]
    rw [List.cons_append, of, of, ih hbefore, hcount]
    rcases hcases with ⟨hfalse, hverdict⟩ | ⟨hstays, hverdict⟩
    · rw [hverdict, if_pos hfalse, Nat.add_right_comm]
    · rw [hverdict, if_neg hstays]
      rfl

/-- If nothing disqualifies, the survey counts the literals that are false at the root. -/
theorem of_qualified (qualified : ∀ e ∈ externals, ¬ Disqualified t e) :
    of t externals = ⟨(of t externals).kept, fixedCount t externals, none⟩ := by
  have happend := of_append qualified []
  rwa [List.append_nil, show of t [] = ⟨[], 0, none⟩ from rfl, List.append_nil,
    Nat.add_zero] at happend

/-- The leftmost literal that disqualifies ends the survey with its reason. -/
theorem of_leftmost (qualified : ∀ d ∈ before, ¬ Disqualified t d) (why : RulesOut t e reason)
    (after : List Int32) :
    of t (before ++ e :: after) = ⟨(of t before).kept, fixedCount t before, some reason⟩ := by
  have hlast : of t (e :: after) = ⟨[], 0, some reason⟩ := by
    rw [of, LiteralVerdict.of_eq_disqualifies_iff.mpr why]
  rw [of_append qualified, hlast, List.append_nil, Nat.add_zero]

/-- If nothing disqualifies, what stays are the literals that are not false at the root. -/
theorem map_kept_of_qualified (qualified : ∀ e ∈ externals, ¬ Disqualified t e) :
    (of t externals).kept.map (·.2) = unfixed t externals := by
  induction externals with
  | nil => rfl
  | cons e rest ih =>
    obtain ⟨he, hrest⟩ := List.forall_mem_cons.mp qualified
    obtain ⟨l, hknown, ⟨hfalse, hverdict⟩ | ⟨hstays, hverdict⟩⟩ := LiteralVerdict.of_qualified he
    · rw [of, hverdict, show unfixed t (e :: rest) = unfixed t rest by
        simp [unfixed, hknown, hfalse]]
      exact ih hrest
    · rw [of, hverdict, show unfixed t (e :: rest) = l :: unfixed t rest by
        simp [unfixed, hknown, hstays]]
      exact congrArg (l :: ·) (ih hrest)

theorem qualified_of_disqualified_eq_none (h : (of t externals).disqualified = none) :
    ∀ e ∈ externals, ¬ Disqualified t e := by
  rcases Recipient.qualified_or_exists_leftmost t externals with
    hqualified | ⟨before, e, after, rfl, hbefore, he⟩
  · exact hqualified
  · obtain ⟨reason, why⟩ := Recipient.exists_rulesOut_iff.mpr he
    rw [of_leftmost hbefore why] at h
    cases h

/-- What stays of a clause is not false at the root. -/
theorem not_fixedFalse_of_mem_kept {l : Literal} (h : (e, l) ∈ (of t externals).kept) :
    ¬ FixedFalse t e := by
  rintro ⟨l', hknown, hstanding⟩
  have hkept := (of_mem_kept h).2
  cases hknown.symm.trans (LiteralVerdict.of_eq_kept hkept)
  rcases LiteralVerdict.standing_of_eq_kept hkept with h | h <;>
  · rw [hstanding] at h
    cases h

end Survey

theorem unitToAssign_eq_some_iff {l : Literal} :
    unitToAssign t e = some l ↔ Takeable t e l := by
  constructor
  · intro h
    refine ⟨?_, unitToAssign_eq_some h⟩
    cases hforbids : Recipient.forbids t e with
    | true => simp [unitToAssign, hforbids] at h
    | false => rfl
  · rintro ⟨hallowed, hknown, hactive⟩
    simp [unitToAssign, hallowed, hknown, hactive]

end Filter

/-! ## Counters -/

namespace PassReport

/-- The clauses that were dropped for the reason. -/
def drops (r : PassReport K) : Discard → Nat
  | .forbidden => r.forbidden
  | .unknown => r.unknown
  | .eliminated => r.eliminated
  | .satisfied => r.satisfied
  | .falsified => r.falsified

theorem drops_discard (r : PassReport K) (reason reason' : Discard) :
    (r.discard reason).drops reason' = r.drops reason' + if reason' = reason then 1 else 0 := by
  cases reason <;> cases reason' <;> rfl

end PassReport

/-! ## Passes -/

namespace Pass

open Recipient (RulesOut Disqualified FixedFalse Takeable unfixed fixedCount)

/-- Counts removed literals. -/
def removing (p : Pass T K) (n : Nat) : Pass T K :=
  { p with report.removedLiterals := p.report.removedLiterals + n }

/-- Counts a clause that is dropped. -/
def dropping (p : Pass T K) (reason : Discard) : Pass T K :=
  { p with report := p.report.discard reason }

/-- What becomes of a pass that takes a clause of two or more literals. -/
inductive Filters (p : Pass T K) (glue : Nat) (externals : List Int32) : Pass T K → Prop
  /-- The leftmost literal that disqualifies gives the reason. Literals behind it do not count. -/
  | disqualified {before after : List Int32} {e : Int32} {reason : Discard}
      (split : externals = before ++ e :: after)
      (leftmost : ∀ d ∈ before, ¬ Disqualified p.recipient d)
      (why : RulesOut p.recipient e reason) :
      Filters p glue externals ((p.removing (fixedCount p.recipient before)).dropping reason)
  | falsified (qualified : ∀ e ∈ externals, ¬ Disqualified p.recipient e)
      (fixed : ∀ e ∈ externals, FixedFalse p.recipient e) :
      Filters p glue externals
        ((p.removing (fixedCount p.recipient externals)).dropping .falsified)
  /-- One literal stays, and is taken as if it had been offered as a unit. The count of removed
  literals is all that tells the two apart. -/
  | shrunk {e : Int32} {l : Literal} (qualified : ∀ e ∈ externals, ¬ Disqualified p.recipient e)
      (one : unfixed p.recipient externals = [l]) (mem : e ∈ externals)
      (stays : ¬ FixedFalse p.recipient e) :
      Filters p glue externals
        ((p.take (.unit e)).removing (fixedCount p.recipient externals))
  | queued (qualified : ∀ e ∈ externals, ¬ Disqualified p.recipient e)
      (long : 2 ≤ (unfixed p.recipient externals).length) :
      Filters p glue externals
        { p.removing (fixedCount p.recipient externals) with
          report.candidates := p.report.candidates + 1
          candidates := p.candidates.push ⟨unfixed p.recipient externals, glue⟩ }

/-- What becomes of a pass that takes a unit. -/
inductive TakesUnit (p : Pass T K) (e : Int32) : Pass T K → Prop
  | assigned {l : Literal} (takeable : Takeable p.recipient e l) :
      TakesUnit p e
        { p with
          recipient := Recipient.fix p.recipient l
          report.units := p.report.units + 1
          report.charged := p.report.charged + 2 }
  | passedOver (untakeable : ∀ l, ¬ Takeable p.recipient e l) :
      TakesUnit p e { p with report.unitsPassedOver := p.report.unitsPassedOver + 1 }

/-- From one pass to the other, one clause more was dropped, for this reason. -/
def Drops (p q : Pass T K) (reason : Discard) : Prop :=
  ∀ reason', q.report.drops reason' = p.report.drops reason' + if reason' = reason then 1 else 0

variable {p q : Pass T K} {glue : Nat} {externals : List Int32}

theorem takeUnit_removing (p : Pass T K) (n : Nat) (e : Int32) :
    (p.removing n).takeUnit e = (p.takeUnit e).removing n := by
  unfold takeUnit
  rw [show (p.removing n).recipient = p.recipient from rfl]
  split <;> rfl

theorem drops_takeUnit (p : Pass T K) (e : Int32) (reason : Discard) :
    (p.takeUnit e).report.drops reason = p.report.drops reason := by
  unfold takeUnit
  split <;> cases reason <;> rfl

theorem takesUnit_take (p : Pass T K) (e : Int32) : p.TakesUnit e (p.take (.unit e)) := by
  rw [take, takeUnit]
  split
  · next l htaken => exact .assigned (unitToAssign_eq_some_iff.mp htaken)
  · next hnone =>
    refine .passedOver fun l hl => ?_
    rw [unitToAssign_eq_some_iff.mpr hl] at hnone
    cases hnone

/-- What the survey and its verdict make of a pass. -/
theorem take_clause (p : Pass T K) (glue : Nat) (externals : List Int32) :
    p.take (.clause glue externals) =
      match (Survey.of p.recipient externals).verdict with
      | .discarded reason =>
        (p.removing (Survey.of p.recipient externals).dropped).dropping reason
      | .unit e => (p.take (.unit e)).removing (Survey.of p.recipient externals).dropped
      | .candidate literals =>
        { p.removing (Survey.of p.recipient externals).dropped with
          report.candidates := p.report.candidates + 1
          candidates := p.candidates.push ⟨literals, glue⟩ } := by
  simp only [take, takeClause, ← takeUnit_removing]
  rfl

theorem filters_take (p : Pass T K) (glue : Nat) (externals : List Int32) :
    p.Filters glue externals (p.take (.clause glue externals)) := by
  rcases Recipient.qualified_or_exists_leftmost p.recipient externals with
    hqualified | ⟨before, e, after, rfl, hbefore, he⟩
  · obtain ⟨kept, hsurvey⟩ : ∃ kept, Survey.of p.recipient externals =
        ⟨kept, fixedCount p.recipient externals, none⟩ := ⟨_, Survey.of_qualified hqualified⟩
    have hunfixed : unfixed p.recipient externals = kept.map (·.2) := by
      rw [← Survey.map_kept_of_qualified hqualified, hsurvey]
    rw [take_clause, hsurvey]
    -- How many literals stay decides over the verdict.
    rcases kept with _ | ⟨⟨e, l⟩, _ | ⟨x, rest⟩⟩
    · exact .falsified hqualified ((Recipient.unfixed_eq_nil_iff hqualified).mp hunfixed)
    · have hmem : (e, l) ∈ (Survey.of p.recipient externals).kept := by
        rw [hsurvey]
        exact List.mem_cons_self
      exact .shrunk hqualified hunfixed (Survey.of_mem_kept hmem).1
        (Survey.not_fixedFalse_of_mem_kept hmem)
    · have hlong : 2 ≤ (unfixed p.recipient externals).length := by
        rw [hunfixed]
        exact Nat.le_add_left ..
      have hqueued : p.Filters glue externals _ := .queued hqualified hlong
      rwa [hunfixed] at hqueued
  · obtain ⟨reason, why⟩ := Recipient.exists_rulesOut_iff.mpr he
    rw [take_clause, Survey.of_leftmost hbefore why]
    exact .disqualified rfl hbefore why

/-- The clause is dropped, for one reason, if a literal disqualifies it or all are false at the
root. -/
theorem Filters.dropped (h : p.Filters glue externals q)
    (hdrop : (∃ e ∈ externals, Disqualified p.recipient e) ∨
      ∀ e ∈ externals, FixedFalse p.recipient e) : ∃ reason, p.Drops q reason := by
  -- Of a clause that stays, all literals qualify, so all of them are false at the root.
  have hnil (qualified : ∀ e ∈ externals, ¬ Disqualified p.recipient e) :
      unfixed p.recipient externals = [] := by
    refine (Recipient.unfixed_eq_nil_iff qualified).mpr (hdrop.resolve_left ?_)
    rintro ⟨e, he, hdisqualified⟩
    exact qualified e he hdisqualified
  cases h with
  | disqualified => exact ⟨_, PassReport.drops_discard _ _⟩
  | falsified => exact ⟨_, PassReport.drops_discard _ _⟩
  | shrunk qualified one =>
    rw [hnil qualified] at one
    cases one
  | queued qualified long =>
    rw [hnil qualified] at long
    cases long

/-- Otherwise no counter of dropped clauses changes. -/
theorem Filters.drops_eq (h : p.Filters glue externals q)
    (hstay : ¬ ((∃ e ∈ externals, Disqualified p.recipient e) ∨
      ∀ e ∈ externals, FixedFalse p.recipient e)) (reason : Discard) :
    q.report.drops reason = p.report.drops reason := by
  cases h with
  | disqualified split _ why =>
    have he := Recipient.exists_rulesOut_iff.mp ⟨_, why⟩
    exact absurd (.inl ⟨_, split ▸ List.mem_append_right _ List.mem_cons_self, he⟩) hstay
  | falsified _ fixed => exact absurd (.inr fixed) hstay
  | shrunk => exact drops_takeUnit p _ reason
  | queued => cases reason <;> rfl

theorem Filters.exists_drops_iff (h : p.Filters glue externals q) :
    (∃ reason, p.Drops q reason) ↔
      (∃ e ∈ externals, Disqualified p.recipient e) ∨
        ∀ e ∈ externals, FixedFalse p.recipient e := by
  refine ⟨fun ⟨reason, hdrops⟩ => ?_, h.dropped⟩
  by_contra hstay
  have hmore := hdrops reason
  rw [h.drops_eq hstay, if_pos rfl] at hmore
  exact absurd hmore (Nat.ne_of_lt (Nat.lt_succ_self _))

/-- Candidates stay on the queue while a batch is consumed. -/
theorem candidates_prefix_consume (p : Pass T K) (batch : List (List Int32)) :
    p.candidates.toList <+: (p.consume batch).1.candidates.toList := by
  refine consume_induction (I := fun q => p.candidates.toList <+: q.candidates.toList)
    (P := fun _ => True) (fun _ h => h) (fun q _ offer _ _ h => ?_) (fun _ _ h => h)
    List.prefix_rfl (fun _ _ => trivial)
  have htakes := takes_take q offer
  generalize (q.take offer).recipient = t, (q.take offer).candidates = queue at htakes ⊢
  cases htakes with
  | passed | fixed => exact h
  | queued =>
    rw [Array.toList_push]
    exact h.trans (List.prefix_append _ _)

/-- The payload offers a clause in which no literal is disqualified and of which two or more
literals stay, and the candidate are these literals with the glue of the payload. -/
def StaysOf (t : T) (payload : List Int32) (d : Candidate) : Prop :=
  ∃ glue externals, payload = glue :: externals ∧ 0 < glue ∧
    (∀ e ∈ externals, ¬ Disqualified t e) ∧ 2 ≤ (unfixed t externals).length ∧
    d = ⟨unfixed t externals, glue.toInt.toNat⟩

theorem Leaves.staysOf {t : T} {payload : List Int32} {d : Candidate} (h : Leaves t payload d) :
    StaysOf t payload d := by
  obtain ⟨externals, hread, hverdict⟩ := h
  obtain ⟨glue, hpayload, hpos, -, -, hglue⟩ := Payload.ofPayload_eq_clause_iff.mp hread
  obtain ⟨hnone, hliterals⟩ := Survey.verdict_eq_candidate hverdict
  have hqualified := Survey.qualified_of_disqualified_eq_none hnone
  rw [Survey.map_kept_of_qualified hqualified] at hliterals
  refine ⟨glue, externals, hpayload, hpos, hqualified, ?_, ?_⟩
  · rw [← hliterals]
    exact Survey.two_le_length_of_candidate hverdict
  · rw [← hliterals, ← hglue]

end Pass

/-! ## Main statement -/

namespace Importer

open Recipient (Disqualified FixedFalse)

variable [Scalar K]

/-- Whatever a pass has done before it comes to a well-formed payload, the answers of the recipient
at that moment decide. A clause of two or more literals is dropped exactly if one of its literals is
disqualified or all are false at the root, and of the counters of dropped clauses only the one for
the reason of the leftmost disqualified literal counts it, or else the one for falsified clauses.
Otherwise the literals that are not false at the root stay. A single one is taken as if it had been
offered as a unit, and two or more are queued with the glue of the payload. A unit is assigned and
charged exactly if it may be imported, is known and active. What any importer then adds in a run are
the first ones of a ranking of the queue, and the queue is what the filter left of the payloads when
the pass came to them. -/
theorem filters_by_present_answers :
    (∀ (p : Pass T K) (glue : Int32) (externals : List Int32), 0 < glue → externals ≠ [] →
      (0 : Int32) ∉ externals → ∃ q : Pass T K,
        (∀ rest, p.consume ((glue :: externals) :: rest) = q.proceed rest) ∧
        p.receive.Filters glue.toInt.toNat externals q ∧
        ((∃ reason, p.Drops q reason) ↔
          (∃ e ∈ externals, Disqualified p.recipient e) ∨
            ∀ e ∈ externals, FixedFalse p.recipient e) ∧
        ((¬ ∃ reason, p.Drops q reason) →
          ∀ reason, q.report.drops reason = p.report.drops reason)) ∧
    (∀ (p : Pass T K) (e : Int32), e ≠ 0 →
      (∀ rest, p.consume ([e] :: rest) = (p.receive.take (.unit e)).proceed rest) ∧
      p.receive.TakesUnit e (p.receive.take (.unit e))) ∧
    ∀ (i : Importer K) (probabilities : LiteralLikelihood K) (t : T) (batch : List (List Int32)),
      ∃ (final : Pass T K) (ranking added : List Candidate),
        final = ((Pass.start t : Pass T K).consume batch).1 ∧
        ranking.Perm final.candidates.toList ∧ added <+: ranking ∧
        (i.run probabilities t batch).2.1 = added.foldl Recipient.adopt final.recipient ∧
        (∀ m payload after, (Pass.start t : Pass T K).ComesTo batch m payload after →
          m.candidates.toList <+: final.candidates.toList) ∧
        ∀ d ∈ final.candidates, ∃ m payload after,
          (Pass.start t : Pass T K).ComesTo batch m payload after ∧
          Pass.StaysOf m.recipient payload d := by
  refine ⟨fun p glue externals hglue hclause hzero => ?_, fun p e he => ?_,
    fun i probabilities t batch => ?_⟩
  · have hread : Offer.ofPayload (glue :: externals) = .ok (.clause glue.toInt.toNat externals) :=
      Payload.ofPayload_eq_clause_iff.mpr ⟨glue, rfl, hglue, hclause, hzero, rfl⟩
    have hfilters := p.receive.filters_take glue.toInt.toNat externals
    have hiff : (∃ reason, p.Drops (p.receive.take (.clause glue.toInt.toNat externals)) reason) ↔
        _ := hfilters.exists_drops_iff
    refine ⟨_, Pass.consume_cons_of_ok hread p, hfilters, hiff, fun hnone => ?_⟩
    exact hfilters.drops_eq (hiff.not.mp hnone)
  · have hread : Offer.ofPayload [e] = .ok (.unit e) := if_neg he
    exact ⟨Pass.consume_cons_of_ok hread p, p.receive.takesUnit_take e⟩
  · obtain ⟨added, hadded, hrun⟩ := i.selector.run_recipient_prefix probabilities t batch
    refine ⟨_, _, added, rfl, i.selector.perm_rank probabilities _, hadded, ?_,
      fun m payload after hcomes => ?_, fun d hd => ?_⟩
    · rw [run_eq, hrun]
    · rw [hcomes.consume_eq]
      exact m.candidates_prefix_consume _
    · -- The queue was empty at the start, so the candidate came from a payload.
      rcases Pass.mem_candidates_consume hd with hqueue | ⟨m, payload, after, hcomes, hleaves⟩
      · cases (Array.mem_toList_iff.mpr hqueue)
      · exact ⟨m, payload, after, hcomes, hleaves.staysOf⟩

/-- A recipient of nine variables. The fourth one must not be imported positively, the fifth is
eliminated, the sixth substituted, the seventh true and the eighth false. -/
def mixedStandings : RootPicture where
  known := 9
  renamed := []
  forbidden := [4]
  eliminated := [⟨4, by decide⟩]
  substituted := [⟨5, by decide⟩]
  fixed := [.ofVariable ⟨6, by decide⟩ true, .ofVariable ⟨7, by decide⟩ false]
  unsatAfter := none
  satisfiedAfter := none
  units := []
  added := []

/-- A clause for each reason to drop one, in which other reasons follow the first one, a clause with
a repeated literal, two that shrink to units, the second of which cannot be assigned, and one that
loses the negation of the first of them. -/
def everyFate : List (List Int32) :=
  [[2, 8, 4, 5], [2, 1, 10, 4], [2, 5, 7], [2, -8, 5], [3, 8, 8, -7], [5, 8, 1, 6, 1], [2, 8, 3],
    [2, -3, 6], [2, -3, 2, 9]]

/-- The clauses of `everyFate` meet all their fates. -/
theorem filters_by_present_answers_everyFate :
    (∃ q : Pass RootPicture Rat,
      (∀ rest, (Pass.start mixedStandings).consume ([2, 8, 4, 5] :: rest) = q.proceed rest) ∧
      (Pass.start mixedStandings).receive.Filters 2 [8, 4, 5] q ∧
      ∃ reason, (Pass.start mixedStandings).Drops q reason) ∧
    (Pass.start mixedStandings : Pass RootPicture Rat).receive.TakesUnit 6
      ((Pass.start mixedStandings).receive.take (.unit 6)) ∧
    ∃ (final : Pass RootPicture Rat) (ranking added : List Candidate),
      ranking.Perm final.candidates.toList ∧ added <+: ranking ∧
      ((fresh admitAll).run (.ofTable [] (0, 0)) mixedStandings everyFate).2.1 =
        added.foldl Recipient.adopt final.recipient ∧
      final.recipient.units.length = 1 ∧
      (final.candidates.toList.map fun d => (d.literals.length, d.glue)) = [(3, 5), (2, 2)] ∧
      ([Discard.forbidden, .unknown, .eliminated, .satisfied, .falsified].map
        final.report.drops) = [1, 1, 1, 1, 1] := by
  obtain ⟨hclause, hunit, hrun⟩ := filters_by_present_answers (T := RootPicture) (K := Rat)
  obtain ⟨q, hconsume, hfilters, hiff, -⟩ :=
    hclause (.start mixedStandings) 2 [8, 4, 5] (by decide) (by decide) (by decide)
  obtain ⟨final, ranking, added, hfinal, hperm, hadded, hrun, -⟩ :=
    hrun (fresh admitAll) (.ofTable [] (0, 0)) mixedStandings everyFate
  refine ⟨⟨q, hconsume, hfilters, hiff.mpr (.inl ⟨4, by decide, .inl (by decide)⟩)⟩,
    (hunit _ 6 (by decide)).2, final, ranking, added, hperm, hadded, hrun, ?_⟩
  subst hfinal
  decide +kernel

end Importer

end ClauseSharing
