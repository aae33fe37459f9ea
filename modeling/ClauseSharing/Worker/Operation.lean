import ClauseSharing.Worker.Basic

/-!
Runs of a worker: its operations as data, what they answer, and the worker they leave behind.

A breach ends a run. Every other answer, a refusal included, is followed by the next operation.
-/

namespace ClauseSharing

/-- A call on a worker that may change it. A recorder that is set has the type `R`. -/
inductive Operation (R : Type := Journal) where
  | addVariables (n : Nat)
  | renameVariable (external : Nat) (v : Variable)
  | forbid (external : Int32)
  | eliminate (v : Variable)
  | substitute (v : Variable)
  | assertClause (literals : List Literal)
  | decide (l : Literal)
  | assign (l : Literal)
  | backtrack (level : Nat)
  | conflict
  | catchUpAll
  | observeTrail
  | runPass (batch : List (List Int32))
  | learn (literals : List Literal) (glue : Nat)
  | noteLearned (literals : List Literal) (glue : Nat)
  | noteConflict (literals : List Literal)
  | setJournal (r : R)
  | setTracer

/-- What an operation answers. -/
inductive Answer (K : Type) where
  | done
  | refused (refusal : Refusal)
  | unassigned (error : Clash)
  /-- The position of a stored clause, if one was stored. -/
  | stored (position : Option Nat)
  | level (level : Nat)
  | tick (tick : Int)
  | report (report : PassReport K)
  | breach (breach : Breach)

namespace Worker

variable {K R : Type}

/-- The outcome of an operation that may refuse: the worker it leaves and its answer. -/
def settle {α : Type} (w : Worker K R) (answer : α → Answer K) :
    Except Breach (Worker K R × Except Refusal α) → Worker K R × Answer K
  | .error b => (w, .breach b)
  | .ok (w, .error r) => (w, .refused r)
  | .ok (w, .ok a) => (w, answer a)

/-- The outcome of an operation that cannot refuse. -/
def finish {α : Type} (w : Worker K R) (answer : α → Answer K) :
    Except Breach (Worker K R × α) → Worker K R × Answer K
  | .error b => (w, .breach b)
  | .ok (w, a) => (w, answer a)

/-- The outcome of an operation that only changes the worker. -/
def change (w : Worker K R) : Except Breach (Worker K R) → Worker K R × Answer K
  | .error b => (w, .breach b)
  | .ok w => (w, .done)

variable [Scalar K] [Recorder R K]

/-- Performs one operation. After a breach the worker is as it was, but for what a pass did before
it was cut short. -/
def step (w : Worker K R) : Operation R → Worker K R × Answer K
  | .addVariables n => w.settle (fun _ => .done) (w.addVariables n)
  | .renameVariable external v => w.settle (fun _ => .done) (w.renameVariable external v)
  | .forbid external => (w.forbid external, .done)
  | .eliminate v => w.settle (fun _ => .done) (w.eliminate v)
  | .substitute v => w.settle (fun _ => .done) (w.substitute v)
  | .assertClause literals => w.settle .stored (w.assertClause literals)
  | .decide l => w.settle .level (w.decide l)
  | .assign l =>
    match w.assign l with
    | .error b => (w, .breach b)
    | .ok (w, .error e) => (w, .unassigned e)
    | .ok (w, .ok ()) => (w, .done)
  | .backtrack level => w.change (w.backtrack level)
  | .conflict => w.finish .tick w.conflict
  | .catchUpAll => w.change w.catchUpAll
  | .observeTrail => w.change w.observeTrail
  | .runPass batch =>
    match w.runPass batch with
    | (w, .ok report) => (w, .report report)
    | (w, .error (.refused r)) => (w, .refused r)
    | (w, .error (.breach b)) => (w, .breach b)
  | .learn literals glue => w.finish .stored (w.learn literals glue)
  | .noteLearned literals glue => w.change (w.noteLearned literals glue)
  | .noteConflict literals => w.change (w.noteConflict literals)
  | .setJournal r => (w.setJournal r, .done)
  | .setTracer => (w.setTracer, .done)

/-- Performs operations one after the other, up to the first breach. -/
def run (w : Worker K R) : List (Operation R) → Worker K R × List (Answer K)
  | [] => (w, [])
  | op :: ops =>
    match w.step op with
    | (w, .breach b) => (w, [.breach b])
    | (w, answer) =>
      let (w, answers) := w.run ops
      (w, answer :: answers)

end Worker

/-- What a worker looks like from outside. -/
structure WorkerSummary where
  tick : Int
  level : Nat
  registered : Nat
  assigned : Nat
  clauses : Nat
  imported : Nat
  refuted : Bool
  satisfied : Bool
deriving DecidableEq, Repr

def Worker.summary {K R : Type} (w : Worker K R) : Except Breach WorkerSummary := do
  let satisfied ← w.core.isComplete
  return {
    tick := w.tick
    level := w.core.assignment.level
    registered := w.core.size
    assigned := w.core.assignment.trail.size
    clauses := w.core.store.clauses.size
    imported := w.core.store.imported
    refuted := w.core.refuted
    satisfied := satisfied }

end ClauseSharing
