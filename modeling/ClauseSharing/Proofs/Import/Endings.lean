import ClauseSharing.Import.RootPicture
import ClauseSharing.Proofs.Import.Reuse
import ClauseSharing.Proofs.Scalar.Exact
import Mathlib.Data.List.Infix

/-!
How passes end, and what they leave behind.

What a batch makes of a recipient before anything is admitted can be said without a pass: each
payload in its turn gives at most one unit (`Recipient.after`). A pass follows this up to the first
payload that is malformed (`Payload.Malformed`) or leaves the recipient solved. There it ends and
has not added a clause, and what comes later in the batch is of no consequence. Nor is what earlier
passes of the same importer did, however they ended (`Importer.run_determined_by_prefix`).
-/

namespace ClauseSharing

/-! ## Payloads -/

namespace Payload

/-- What is wrong with a payload. The glue is looked at before the literals. -/
inductive Malformed : List Int32 → PayloadError → Prop
  | noWords : Malformed [] .noWords
  | zeroUnit : Malformed [0] .zeroAmongLiterals
  | badGlue {glue : Int32} {externals : List Int32} (clause : externals ≠ []) (glue_le : glue ≤ 0) :
      Malformed (glue :: externals) (.badGlue glue)
  | zeroLiteral {glue : Int32} {externals : List Int32} (glue_pos : 0 < glue)
      (zero_mem : 0 ∈ externals) : Malformed (glue :: externals) .zeroAmongLiterals

theorem ofPayload_clause {glue : Int32} {externals : List Int32} (clause : externals ≠ []) :
    Offer.ofPayload (glue :: externals) =
      if glue ≤ 0 then .error (.badGlue glue)
      else if externals.contains 0 then .error .zeroAmongLiterals
      else .ok (.clause glue.toInt.toNat externals) := by
  cases externals with
  | nil => exact absurd rfl clause
  | cons external rest => rfl

theorem ofPayload_eq_error_iff {payload : List Int32} {e : PayloadError} :
    Offer.ofPayload payload = .error e ↔ Malformed payload e := by
  constructor
  · intro h
    match payload with
    | [] =>
      cases h
      exact .noWords
    | [external] =>
      rw [Offer.ofPayload] at h
      split at h
      · next hzero =>
        cases h
        rw [hzero]
        exact .zeroUnit
      · cases h
    | glue :: external :: rest =>
      rw [ofPayload_clause (List.cons_ne_nil _ _)] at h
      split at h
      · next hglue =>
        cases h
        exact .badGlue (List.cons_ne_nil _ _) hglue
      split at h
      · next hglue hzero =>
        cases h
        exact .zeroLiteral (Int32.not_le.mp hglue) (List.contains_iff_mem.mp hzero)
      · cases h
  · intro h
    cases h with
    | noWords | zeroUnit => rfl
    | badGlue clause glue_le => rw [ofPayload_clause clause, if_pos glue_le]
    | zeroLiteral glue_pos zero_mem =>
      rw [ofPayload_clause (List.ne_nil_of_mem zero_mem), if_neg (Int32.not_le.mpr glue_pos),
        if_pos (List.contains_iff_mem.mpr zero_mem)]

/-- A payload offers a clause if it is a positive glue and then literals. -/
theorem ofPayload_eq_clause_iff {payload externals : List Int32} {n : Nat} :
    Offer.ofPayload payload = .ok (.clause n externals) ↔
      ∃ glue, payload = glue :: externals ∧ 0 < glue ∧ externals ≠ [] ∧ 0 ∉ externals ∧
        n = glue.toInt.toNat := by
  constructor
  · intro h
    match payload with
    | [] => cases h
    | [external] =>
      rw [Offer.ofPayload] at h
      split at h <;> cases h
    | glue :: external :: rest =>
      rw [ofPayload_clause (List.cons_ne_nil _ _)] at h
      split at h
      · cases h
      next hglue =>
      split at h
      · cases h
      next hzero =>
      cases h
      exact ⟨glue, rfl, Int32.not_le.mp hglue, List.cons_ne_nil _ _,
        fun hmem => hzero (List.contains_iff_mem.mpr hmem), rfl⟩
  · rintro ⟨glue, rfl, hglue, hclause, hzero, rfl⟩
    rw [ofPayload_clause hclause, if_neg (Int32.not_le.mpr hglue),
      if_neg fun hmem => hzero (List.contains_iff_mem.mp hmem)]

/-- Nothing is wrong with the payload. -/
def WellFormed (payload : List Int32) : Prop := ∀ e, ¬ Malformed payload e

theorem wellFormed_iff {payload : List Int32} :
    WellFormed payload ↔ ∃ offer, Offer.ofPayload payload = .ok offer := by
  constructor
  · intro h
    cases hoffer : Offer.ofPayload payload with
    | error e => exact absurd (ofPayload_eq_error_iff.mp hoffer) (h e)
    | ok offer => exact ⟨offer, rfl⟩
  · rintro ⟨offer, hoffer⟩ e he
    rw [ofPayload_eq_error_iff.mpr he] at hoffer
    cases hoffer

end Payload

/-! ## Recipients -/

namespace Recipient

variable {T : Type} [Recipient T]

/-- The literal that is assigned for an offer, if any. -/
def unitOf (t : T) : Offer → Option Literal
  | .unit external => unitToAssign t external
  | .clause _ externals =>
    match (Survey.of t externals).verdict with
    | .unit external => unitToAssign t external
    | _ => none

/-- The recipient after a payload. A malformed one changes nothing. -/
def afterPayload (t : T) (payload : List Int32) : T :=
  match Offer.ofPayload payload with
  | .error _ => t
  | .ok offer => (unitOf t offer).elim t (fix t)

/-- The recipient after the payloads of a batch, before anything is admitted. -/
def after (t : T) (batch : List (List Int32)) : T := batch.foldl afterPayload t

/-- The recipient is not solved after any of the payloads. -/
def StaysUnsolved (t : T) (batch : List (List Int32)) : Prop :=
  ∀ taken, taken <+: batch → taken ≠ [] → SolveStatus.of (after t taken) = .ok .unknown

theorem after_append (t : T) (batch rest : List (List Int32)) :
    after t (batch ++ rest) = after (after t batch) rest :=
  List.foldl_append ..

theorem StaysUnsolved.head {t : T} {payload : List Int32} {rest : List (List Int32)}
    (h : StaysUnsolved t (payload :: rest)) :
    SolveStatus.of (afterPayload t payload) = .ok .unknown :=
  h [payload] (List.cons_prefix_cons.mpr ⟨rfl, List.nil_prefix⟩) (List.cons_ne_nil _ _)

theorem StaysUnsolved.tail {t : T} {payload : List Int32} {rest : List (List Int32)}
    (h : StaysUnsolved t (payload :: rest)) : StaysUnsolved (afterPayload t payload) rest :=
  fun taken htaken _ =>
    h (payload :: taken) (List.cons_prefix_cons.mpr ⟨rfl, htaken⟩) (List.cons_ne_nil _ _)

/-- Units are all that payloads give to a recipient. -/
theorem exists_after_eq (t : T) (batch : List (List Int32)) :
    ∃ units : List Literal, after t batch = units.foldl fix t := by
  induction batch generalizing t with
  | nil => exact ⟨[], rfl⟩
  | cons payload rest ih =>
    obtain ⟨units, hunits⟩ := ih (afterPayload t payload)
    have hhead : ∃ first : List Literal, afterPayload t payload = first.foldl fix t := by
      unfold afterPayload
      split
      · exact ⟨[], rfl⟩
      · next offer _ =>
        cases unitOf t offer with
        | none => exact ⟨[], rfl⟩
        | some l => exact ⟨[l], rfl⟩
    obtain ⟨first, hfirst⟩ := hhead
    refine ⟨first ++ units, ?_⟩
    rw [List.foldl_append, ← hfirst]
    exact hunits

end Recipient

/-! ## Passes -/

namespace Pass

variable {T K : Type} [Recipient T]

theorem recipient_takeUnit (p : Pass T K) (external : Int32) :
    (p.takeUnit external).recipient =
      (unitToAssign p.recipient external).elim p.recipient (Recipient.fix p.recipient) := by
  unfold takeUnit
  split
  · next l h => rw [h]; rfl
  · next h => rw [h]; rfl

theorem recipient_take {p : Pass T K} {payload : List Int32} {offer : Offer}
    (h : Offer.ofPayload payload = .ok offer) :
    (p.take offer).recipient = Recipient.afterPayload p.recipient payload := by
  rw [Recipient.afterPayload, h]
  cases offer with
  | unit external => exact recipient_takeUnit p external
  | clause glue externals =>
    simp only [take, takeClause, Recipient.unitOf]
    cases (Survey.of p.recipient externals).verdict with
    | unit external => exact recipient_takeUnit _ external
    | discarded | candidate => rfl

/-- A pass goes through well-formed payloads for as long as the recipient is not solved. -/
theorem consume_of_staysUnsolved {p : Pass T K} {batch : List (List Int32)}
    (hformed : ∀ payload ∈ batch, Payload.WellFormed payload)
    (hopen : Recipient.StaysUnsolved p.recipient batch) :
    ∃ q, p.consume batch = (q, .ok false) ∧ q.recipient = Recipient.after p.recipient batch ∧
      q.report.received = p.report.received + batch.length := by
  induction batch generalizing p with
  | nil => exact ⟨p, rfl, rfl, rfl⟩
  | cons payload rest ih =>
    obtain ⟨offer, hoffer⟩ := Payload.wellFormed_iff.mp (hformed payload List.mem_cons_self)
    have hrecipient := recipient_take (p := p.receive) hoffer
    have hstatus : SolveStatus.of (p.receive.take offer).recipient = .ok .unknown :=
      hrecipient ▸ hopen.head
    obtain ⟨q, hconsume, hq, hreceived⟩ := ih (p := p.step offer .unknown)
      (fun payload hmem => hformed payload (List.mem_cons_of_mem _ hmem))
      (by rw [show (p.step offer .unknown).recipient = _ from hrecipient]; exact hopen.tail)
    refine ⟨q, ?_, ?_, ?_⟩
    · rw [consume_cons, hoffer]
      simp only [hstatus]
      exact hconsume
    · rw [hq]
      exact congrArg (Recipient.after · rest) hrecipient
    · rw [hreceived, received_step, List.length_cons]
      omega

end Pass

/-! ## Importers -/

namespace Importer

variable {T K : Type} [Recipient T] [Scalar K]

/-- An importer of the selector after any passes, over any recipients and with any outcomes. -/
inductive Used (s : Selector K) : Importer K → Prop
  | fresh : Used s (fresh s)
  | again {T : Type} [Recipient T] {i : Importer K} (used : Used s i)
      (probabilities : LiteralLikelihood K) (t : T) (batch : List (List Int32)) :
      Used s (i.run probabilities t batch).1

theorem Used.selector_eq {s : Selector K} {i : Importer K} (h : Used s i) : i.selector = s := by
  induction h with
  | fresh => rfl
  | again _ probabilities t batch ih => exact (selector_run ..).trans ih

end Importer

namespace Selector

variable {T K : Type} [Recipient T] [Scalar K] (s : Selector K)
  (probabilities : LiteralLikelihood K) {t : T} {before : List (List Int32)}

/-- A pass ends with the first malformed payload. -/
theorem run_of_malformed (hformed : ∀ payload ∈ before, Payload.WellFormed payload)
    (hopen : Recipient.StaysUnsolved t before) {bad : List Int32} {e : PayloadError}
    (hbad : Payload.Malformed bad e) (rest : List (List Int32)) :
    s.run probabilities t (before ++ bad :: rest) =
      (Recipient.after t before, .error (.malformed e)) := by
  obtain ⟨q, hconsume, hq, -⟩ :=
    Pass.consume_of_staysUnsolved (p := (Pass.start t : Pass T K)) hformed hopen
  have hend : (Pass.start t : Pass T K).consume (before ++ bad :: rest) =
      (q.receive, .error (.malformed e)) := by
    rw [Pass.consume_append hconsume, Pass.consume_cons, Payload.ofPayload_eq_error_iff.mpr hbad]
  rw [run, hend]
  exact Prod.ext hq rfl

/-- A pass ends with the first payload after which the recipient is solved. -/
theorem run_of_solved {last : List Int32}
    (hformed : ∀ payload ∈ before ++ [last], Payload.WellFormed payload)
    (hopen : Recipient.StaysUnsolved t before) {status : SolveStatus}
    (hstatus : SolveStatus.of (Recipient.after t (before ++ [last])) = .ok status)
    (hfinal : status.isFinal = true) :
    ∃ report : PassReport K, report.status = status ∧ report.received = before.length + 1 ∧
      report.imported = 0 ∧
      ∀ rest, s.run probabilities t (before ++ last :: rest) =
        (Recipient.after t (before ++ [last]), .ok report) := by
  obtain ⟨q, hconsume, hq, hreceived⟩ :=
    Pass.consume_of_staysUnsolved (p := (Pass.start t : Pass T K))
      (fun payload hmem => hformed payload (List.mem_append_left _ hmem)) hopen
  obtain ⟨offer, hoffer⟩ :=
    Payload.wellFormed_iff.mp (hformed last (List.mem_append_right _ List.mem_cons_self))
  have hrecipient : (q.receive.take offer).recipient = Recipient.after t (before ++ [last]) := by
    rw [Pass.recipient_take hoffer, Recipient.after_append]
    exact congrArg (Recipient.afterPayload · last) hq
  have hend (rest : List (List Int32)) :
      (Pass.start t : Pass T K).consume (before ++ last :: rest) =
        (q.step offer status, .ok true) := by
    rw [Pass.consume_append hconsume, Pass.consume_cons, hoffer]
    simp only [hrecipient, hstatus, hfinal, if_true]
  refine ⟨(q.step offer status).report, rfl, ?_, ?_, fun rest => ?_⟩
  · rw [Pass.received_step, hreceived]
    exact congrArg (· + 1) (Nat.zero_add _)
  · have himported := Pass.imported_consume (Pass.start t : Pass T K) (before ++ [last])
    rwa [hend] at himported
  · rw [run, hend]
    exact Prod.ext hrecipient rfl

end Selector

namespace Importer

variable {T K : Type} [Recipient T] [Scalar K]

/-- Take an importer of a selector after any passes, and let it run a pass over any batch for any
recipient, probabilities and settings. The recipient and the result are those that a new importer
gives. If the first malformed payload comes before the recipient is found to be solved, the result
is its error, and the recipient has got the units of the payloads before it. If the recipient is
first found to be solved after some payload, the pass answers with a report that counts the payloads
up to that one and no imported clause, the recipient has got their units, and whatever follows in
the batch, malformed or not, changes neither. Units are all that the recipient has got. -/
theorem run_determined_by_prefix {s : Selector K} {i : Importer K} (used : Used s i)
    (probabilities : LiteralLikelihood K) (t : T) :
    (∀ batch, (i.run probabilities t batch).2 = ((fresh s).run probabilities t batch).2) ∧
    (∀ before, (∀ payload ∈ before, Payload.WellFormed payload) →
      Recipient.StaysUnsolved t before →
      (∀ bad e, Payload.Malformed bad e → ∀ rest,
        (i.run probabilities t (before ++ bad :: rest)).2 =
          (Recipient.after t before, .error (.malformed e))) ∧
      (∀ last status, Payload.WellFormed last →
        SolveStatus.of (Recipient.after t (before ++ [last])) = .ok status →
        status.isFinal = true →
        ∃ report : PassReport K, report.status = status ∧ report.received = before.length + 1 ∧
          report.imported = 0 ∧
          ∀ rest, (i.run probabilities t (before ++ last :: rest)).2 =
            (Recipient.after t (before ++ [last]), .ok report))) ∧
    ∀ batch, ∃ units : List Literal, Recipient.after t batch = units.foldl Recipient.fix t := by
  refine ⟨fun batch => ?_, fun before hformed hopen => ⟨?_, ?_⟩, Recipient.exists_after_eq t⟩
  · rw [run_eq, run_eq, used.selector_eq]
    rfl
  · intro bad e hbad rest
    rw [run_eq]
    exact i.selector.run_of_malformed probabilities hformed hopen hbad rest
  · intro last status hlast hstatus hfinal
    have hformed' : ∀ payload ∈ before ++ [last], Payload.WellFormed payload :=
      List.forall_mem_append.mpr ⟨hformed, List.forall_mem_singleton.mpr hlast⟩
    obtain ⟨report, hreport, hreceived, himported, hrun⟩ :=
      i.selector.run_of_solved probabilities hformed' hopen hstatus hfinal
    exact ⟨report, hreport, hreceived, himported, fun rest => (i.run_eq ..).trans (hrun rest)⟩

/-- Clauses are ranked by their lengths, and all of them are admitted. -/
def admitAll : Selector Rat := ⟨.size, .standard, Scalar.percent 100⟩

/-- A recipient that knows nine variables and is satisfied with its first unit. -/
def satisfiedByUnit : RootPicture := ⟨9, [], [], [], [], [], none, some 1, [], []⟩

/-- An importer whose last pass was cut short with two clauses on the queue, which a later pass with
a malformed payload, or one that solves the recipient, does not add. -/
theorem run_determined_by_prefix_staleQueue :
    ∃ i : Importer Rat, Used admitAll i ∧ i.queue.size = 2 ∧
      (i.run (.ofTable [] (0, 0)) satisfiedByUnit [[2, 3, 4], [-1, 5, 6], [3]]).2 =
        (satisfiedByUnit, .error (.malformed (.badGlue (-1)))) ∧
      ∃ (t : RootPicture) (report : PassReport Rat),
        t.added = [] ∧ report.status = .satisfied ∧ report.received = 2 ∧
        ∀ rest, (i.run (.ofTable [] (0, 0)) satisfiedByUnit ([2, 3, 4] :: [1] :: rest)).2 =
          (t, .ok report) := by
  let interrupted := ((fresh admitAll).run (.ofTable [] (0, 0)) satisfiedByUnit
    [[2, 2, 3, 4], [3, 5, 6], [0]]).1
  have used : Used admitAll interrupted := .again .fresh _ _ _
  obtain ⟨-, hends, -⟩ := run_determined_by_prefix used (.ofTable [] (0, 0)) satisfiedByUnit
  have hopen : Recipient.StaysUnsolved satisfiedByUnit [[2, 3, 4]] := by
    intro taken htaken hne
    have hall : ∀ taken ∈ [[2, 3, 4]].inits, taken ≠ [] →
        SolveStatus.of (Recipient.after satisfiedByUnit taken) = .ok .unknown := by
      decide +kernel
    exact hall taken ((List.mem_inits _ _).mpr htaken) hne
  obtain ⟨hmalformed, hsolved⟩ := hends [[2, 3, 4]]
    (List.forall_mem_singleton.mpr (Payload.wellFormed_iff.mpr ⟨.clause 2 [3, 4], rfl⟩)) hopen
  obtain ⟨report, hstatus, hreceived, -, hrun⟩ := hsolved [1] .satisfied
    (Payload.wellFormed_iff.mpr ⟨.unit 1, rfl⟩) (by decide +kernel) rfl
  refine ⟨interrupted, used, by decide +kernel, ?_, _, report, by decide +kernel, hstatus,
    hreceived, hrun⟩
  exact hmalformed [-1, 5, 6] _ (.badGlue (List.cons_ne_nil _ _) (by decide)) [[3]]

end Importer

end ClauseSharing
