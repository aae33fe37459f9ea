import ClauseSharing.Import.Pass

/-!
A selector that is used for one pass after the other.

It keeps two buffers from pass to pass: the queue of the candidates and their ranking, which holds
the candidates by their positions in the queue. A pass empties a buffer before it fills it. What a
pass leaves in the buffers when it is cut short stays there until the next pass.
-/

namespace ClauseSharing

variable {T K : Type} [Recipient T] [Scalar K]

/-- A candidate by its position in the queue, with its score. -/
structure Ranked (K : Type) where
  position : Nat
  score : K

/-- The candidate at a position of the queue. Positions are taken from a ranking of the same queue,
so there always is one. -/
def candidateAt (queue : Array Candidate) (position : Nat) : Candidate :=
  queue.getD position ⟨[], 0⟩

namespace Selector

/-- The order of ranked candidates: the better score first, then the shorter clause. -/
def compareRanked (s : Selector K) (queue : Array Candidate) (x y : Ranked K) : Ordering :=
  (s.heuristic.compareScores x.score y.score).then
    (compare (candidateAt queue x.position).literals.length
      (candidateAt queue y.position).literals.length)

/-- The positions of the queue with the scores of their candidates, in the order of arrival. -/
def scored (s : Selector K) (p : LiteralLikelihood K) (queue : Array Candidate) :
    Array (Ranked K) :=
  queue.mapIdx fun position c => ⟨position, s.score p c⟩

end Selector

namespace Pass

/-- Adds the candidate at a position and takes its literals out of the queue. -/
def admitAt (p : Pass T K) (position : Nat) : Pass T K :=
  let c := candidateAt p.candidates position
  { recipient := Recipient.adopt p.recipient c
    report := { p.report with
      charged := p.report.charged + c.charge
      imported := p.report.imported + 1 }
    candidates := p.candidates.modify position fun c => { c with literals := [] } }

/-- Adds ranked candidates one after the other until the budget is met. -/
def admitRanked (budget : K) (p : Pass T K) : List (Ranked K) → Pass T K
  | [] => p
  | r :: rest =>
    if Scalar.le budget (Scalar.ofNat p.report.charged : K) then p
    else (p.admitAt r.position).admitRanked budget rest

end Pass

/-- A selector with the buffers that it keeps from pass to pass. -/
structure Importer (K : Type) where
  selector : Selector K
  /-- The candidates in the order of their arrival. -/
  queue : Array Candidate
  /-- The candidates in the order of admission. -/
  ranking : Array (Ranked K)

namespace Importer

/-- A selector that has not been used. -/
def fresh (s : Selector K) : Importer K := ⟨s, #[], #[]⟩

def clearQueue (i : Importer K) : Importer K := { i with queue := #[] }

def clearRanking (i : Importer K) : Importer K := { i with ranking := #[] }

/-- Ranks the candidates of a queue. -/
def rank (i : Importer K) (p : LiteralLikelihood K) (queue : Array Candidate) : Importer K :=
  let i := i.clearRanking
  let filled := i.ranking ++ i.selector.scored p queue
  { i with
    ranking := (filled.toList.mergeSort fun x y =>
      (i.selector.compareRanked queue x y).isLE).toArray }

/-- Ranks the candidates of a pass and adds them until the budget is met. -/
def importRanked (i : Importer K) (probabilities : LiteralLikelihood K) (p : Pass T K) :
    Importer K × Pass T K :=
  let budget := i.selector.budget p.offered
  let i := i.rank probabilities p.candidates
  let p := { p with report.budget := budget }
  let p := p.admitRanked budget i.ranking.toList
  (i.clearQueue, { p with candidates := i.clearQueue.queue })

/-- Runs a pass, and answers with the importer, the recipient and the result of the pass. -/
def run (i : Importer K) (probabilities : LiteralLikelihood K) (recipient : T)
    (batch : List (List Int32)) : Importer K × T × Except Interruption (PassReport K) :=
  let i := i.clearQueue
  match (⟨recipient, .start, i.queue⟩ : Pass T K).consume batch with
  | (p, .error e) => ({ i with queue := p.candidates }, p.recipient, .error e)
  | (p, .ok true) => (i.clearQueue, p.recipient, .ok p.report)
  | (p, .ok false) =>
    let (i, p) := i.importRanked probabilities p
    match SolveStatus.of p.recipient with
    | .error b => (i, p.recipient, .error (.breach b))
    | .ok status => (i, p.recipient, .ok { p.report with status := status })

end Importer

end ClauseSharing
