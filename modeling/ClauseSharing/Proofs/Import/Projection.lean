import ClauseSharing.Proofs.Import.Consumption

/-!
A pass sees its recipient through the interface only.

A map between recipients is a projection if the interface cannot tell a recipient from its image:
all questions get the same answers, and what is done to the one is done to the other
(`Recipient.Projects`). A run over the image of a recipient is the image of the run, with the same
result (`Selector.run_map`). So whatever a projection forgets has no influence on a pass.
-/

namespace ClauseSharing

variable {T U K : Type} [Recipient T] [Recipient U]

/-- The interface cannot tell a recipient from its image. -/
structure Recipient.Projects (f : T → U) : Prop where
  forbids : ∀ t external, forbids (f t) external = forbids t external
  resolve : ∀ t external, resolve (f t) external = resolve t external
  standing : ∀ t l, standing (f t) l = standing t l
  fix : ∀ t l, fix (f t) l = f (fix t l)
  adopt : ∀ t c, adopt (f t) c = f (adopt t c)
  refuted : ∀ t, refuted (f t) = refuted t
  isComplete : ∀ t, isComplete (f t) = isComplete t

namespace Recipient.Projects

variable {f : T → U}

/-! ## Questions -/

theorem literalVerdict (h : Projects f) (t : T) (external : Int32) :
    LiteralVerdict.of (f t) external = LiteralVerdict.of t external := by
  simp only [LiteralVerdict.of, h.forbids, h.resolve, h.standing]

theorem survey (h : Projects f) (t : T) (externals : List Int32) :
    Survey.of (f t) externals = Survey.of t externals := by
  induction externals with
  | nil => rfl
  | cons external rest ih => rw [Survey.of, Survey.of, h.literalVerdict, ih]

theorem unitToAssign (h : Projects f) (t : T) (external : Int32) :
    ClauseSharing.unitToAssign (f t) external = ClauseSharing.unitToAssign t external := by
  simp only [ClauseSharing.unitToAssign, h.forbids, h.resolve, h.standing]

theorem solveStatus (h : Projects f) (t : T) : SolveStatus.of (f t) = SolveStatus.of t := by
  simp only [SolveStatus.of, h.refuted, h.isComplete]

theorem foldl_adopt (h : Projects f) (chosen : List Candidate) (t : T) :
    chosen.foldl Recipient.adopt (f t) = f (chosen.foldl Recipient.adopt t) := by
  induction chosen generalizing t with
  | nil => rfl
  | cons c chosen ih => rw [List.foldl_cons, List.foldl_cons, h.adopt, ih]

end Recipient.Projects

/-! ## Passes -/

namespace Pass

/-- The pass with the image of its recipient. -/
def map (f : T → U) (p : Pass T K) : Pass U K := ⟨f p.recipient, p.report, p.candidates⟩

variable {f : T → U}

theorem takeUnit_map (h : Recipient.Projects f) (p : Pass T K) (external : Int32) :
    (p.map f).takeUnit external = (p.takeUnit external).map f := by
  unfold takeUnit
  rw [show (p.map f).recipient = f p.recipient from rfl, h.unitToAssign]
  split
  · rw [h.fix]
    rfl
  · rfl

theorem take_map (h : Recipient.Projects f) (p : Pass T K) (offer : Offer) :
    (p.map f).take offer = (p.take offer).map f := by
  cases offer with
  | unit external => exact takeUnit_map h p external
  | clause glue externals =>
    simp only [take, takeClause]
    rw [show (p.map f).recipient = f p.recipient from rfl, h.survey]
    split
    · rfl
    · next external _ =>
      let shrunk : Pass T K := { p with
        report.removedLiterals :=
          p.report.removedLiterals + (Survey.of p.recipient externals).dropped }
      exact takeUnit_map h shrunk external
    · rfl

theorem step_map (h : Recipient.Projects f) (p : Pass T K) (offer : Offer) (status : SolveStatus) :
    (p.map f).step offer status = (p.step offer status).map f :=
  congrArg (fun q : Pass U K => { q with report.status := status }) (take_map h p.receive offer)

theorem consume_map (h : Recipient.Projects f) (p : Pass T K) (batch : List (List Int32)) :
    (p.map f).consume batch = ((p.consume batch).1.map f, (p.consume batch).2) := by
  induction batch generalizing p with
  | nil => rfl
  | cons payload rest ih =>
    rw [consume_cons, consume_cons]
    cases Offer.ofPayload payload with
    | error e => rfl
    | ok offer =>
      have htake : (p.map f).receive.take offer = (p.receive.take offer).map f :=
        take_map h p.receive offer
      have hstatus : SolveStatus.of ((p.receive.take offer).map f).recipient =
          SolveStatus.of (p.receive.take offer).recipient :=
        h.solveStatus _
      simp only [htake, hstatus, step_map h]
      cases SolveStatus.of (p.receive.take offer).recipient with
      | error b => rfl
      | ok status =>
        dsimp only
        split
        · rfl
        · exact ih (p.step offer status)

theorem importRanked_map [Scalar K] (h : Recipient.Projects f) (p : Pass T K) (s : Selector K)
    (probabilities : LiteralLikelihood K) :
    (p.map f).importRanked s probabilities = (p.importRanked s probabilities).map f := by
  simp only [importRanked, map, offered, h.foldl_adopt]

end Pass

/-- A run over the image of a recipient is the image of the run. -/
theorem Selector.run_map [Scalar K] {f : T → U} (h : Recipient.Projects f) (s : Selector K)
    (probabilities : LiteralLikelihood K) (t : T) (batch : List (List Int32)) :
    s.run probabilities (f t) batch =
      (f (s.run probabilities t batch).1, (s.run probabilities t batch).2) := by
  have hconsume : (Pass.start (f t) : Pass U K).consume batch = _ :=
    Pass.consume_map h (.start t) batch
  unfold run
  rw [hconsume]
  rcases (Pass.start t : Pass T K).consume batch with ⟨p, _ | _ | _⟩
  · rfl
  · have hstatus : SolveStatus.of ((p.importRanked s probabilities).map f).recipient =
        SolveStatus.of (p.importRanked s probabilities).recipient :=
      h.solveStatus _
    simp only [Pass.importRanked_map h, hstatus]
    cases SolveStatus.of (p.importRanked s probabilities).recipient <;> rfl
  · rfl

end ClauseSharing
