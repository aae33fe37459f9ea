import ClauseSharing.Import.Admission
import ClauseSharing.Import.Filter
import ClauseSharing.Import.Payload

/-!
One import pass.

The batch is consumed payload by payload. Units are assigned at once, so that later payloads are
filtered against them; other clauses that pass the filter wait as candidates. The pass ends early,
and imports nothing, as soon as the recipient is solved. Otherwise the candidates are ranked and
admitted when the batch is drained.

A pass that is cut short, by a malformed payload or a breach, leaves behind the recipient as far as
it got.
-/

namespace ClauseSharing

variable {T K : Type} [Recipient T] [Scalar K]

/-- Why a pass was cut short. -/
inductive Interruption where
  | malformed (error : PayloadError)
  | breach (breach : Breach)
deriving DecidableEq

structure Pass (T K : Type) where
  recipient : T
  report : PassReport K
  /-- The candidates in the order of their arrival. -/
  candidates : Array Candidate

namespace PassReport

def discard (r : PassReport K) : Discard → PassReport K
  | .forbidden => { r with forbidden := r.forbidden + 1 }
  | .unknown => { r with unknown := r.unknown + 1 }
  | .eliminated => { r with eliminated := r.eliminated + 1 }
  | .satisfied => { r with satisfied := r.satisfied + 1 }
  | .falsified => { r with falsified := r.falsified + 1 }

end PassReport

namespace Pass

def start (recipient : T) : Pass T K := ⟨recipient, .start, #[]⟩

/-- Counts a payload taken from the batch. -/
def receive (p : Pass T K) : Pass T K :=
  { p with report.received := p.report.received + 1 }

/-- Takes an offered unit: assigns it if the recipient can take it, and skips it otherwise. A unit
costs its literal and a terminator. -/
def takeUnit (p : Pass T K) (external : Int32) : Pass T K :=
  match unitToAssign p.recipient external with
  | some literal =>
    { p with
      recipient := Recipient.fix p.recipient literal
      report.units := p.report.units + 1
      report.charged := p.report.charged + 2 }
  | none => { p with report.unitsPassedOver := p.report.unitsPassedOver + 1 }

/-- Takes an offered clause of two or more literals: drops it, assigns the unit that is left of
it, or queues it. -/
def takeClause (p : Pass T K) (glue : Nat) (externals : List Int32) : Pass T K :=
  let survey := Survey.of p.recipient externals
  let p := { p with report.removedLiterals := p.report.removedLiterals + survey.dropped }
  match survey.verdict with
  | .discarded reason => { p with report := p.report.discard reason }
  | .unit external => p.takeUnit external
  | .candidate literals =>
    { p with
      report.candidates := p.report.candidates + 1
      candidates := p.candidates.push ⟨literals, glue⟩ }

def take (p : Pass T K) : Offer → Pass T K
  | .unit external => p.takeUnit external
  | .clause glue externals => p.takeClause glue externals

/-- Consumes the batch until the recipient is solved (`true`) or the batch is drained (`false`). -/
def consume (p : Pass T K) : List (List Int32) → Pass T K × Except Interruption Bool
  | [] => (p, .ok false)
  | payload :: rest =>
    let p := p.receive
    match Offer.ofPayload payload with
    | .error e => (p, .error (.malformed e))
    | .ok offer =>
      let p := p.take offer
      match SolveStatus.of p.recipient with
      | .error b => (p, .error (.breach b))
      | .ok status =>
        let p := { p with report.status := status }
        if status.isFinal then (p, .ok true) else p.consume rest

/-- What was offered to the budget: the units and the candidates with their terminators. -/
def offered (p : Pass T K) : Nat := totalCharge p.candidates.toList + p.report.charged

/-- Ranks the candidates and adds them until the budget is met. -/
def importRanked (p : Pass T K) (s : Selector K) (probabilities : LiteralLikelihood K) :
    Pass T K :=
  let budget := s.budget p.offered
  let chosen := admitted budget p.report.charged (s.rank probabilities p.candidates.toList)
  { recipient := chosen.foldl Recipient.adopt p.recipient
    report := { p.report with
      budget := budget
      imported := chosen.length
      charged := p.report.charged + totalCharge chosen }
    candidates := #[] }

end Pass

def Selector.run (s : Selector K) (probabilities : LiteralLikelihood K) (recipient : T)
    (batch : List (List Int32)) : T × Except Interruption (PassReport K) :=
  match (Pass.start recipient : Pass T K).consume batch with
  | (p, .error e) => (p.recipient, .error e)
  | (p, .ok true) => (p.recipient, .ok p.report)
  | (p, .ok false) =>
    let p := p.importRanked s probabilities
    match SolveStatus.of p.recipient with
    | .error b => (p.recipient, .error (.breach b))
    | .ok status => (p.recipient, .ok { p.report with status := status })

end ClauseSharing
