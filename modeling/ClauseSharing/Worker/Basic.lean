import ClauseSharing.Diagnostics.Journal
import ClauseSharing.Glue.Statistics
import ClauseSharing.Import.Pass
import ClauseSharing.Polarity.Stability
import ClauseSharing.Polarity.TrailSamples
import ClauseSharing.Settings
import ClauseSharing.Worker.Core

/-!
A worker of a portfolio: the state that estimates and import are attached to.

The search itself is not here. A worker offers the operations that a search calls on its
decisions, propagations, backjumps and conflicts, and keeps the estimates, samples and statistics
up to date while it does. Ticks count conflicts.

Every operation answers in one of three ways: with a result, with an ordinary error next to the
worker that it leaves behind, or with a breach of its contract.
-/

namespace ClauseSharing

/-- A worker that computes in the scalars `K` and may write its diagnostic samples to a recorder of
the type `R`. -/
structure Worker (K : Type) (R : Type := Journal) where
  settings : Settings K
  /-- The number of conflicts so far. -/
  tick : Int
  core : Core
  stability : Stability K
  samples : TrailSamples K
  glue : GlueStatistics K
  /-- Where diagnostic samples go, if anywhere. -/
  journal : Option R

namespace Worker

variable {K R : Type} [Scalar K]

/-- A worker without variables. -/
def create (settings : Settings K) : Except (SettingsError K) (Worker K R) := do
  settings.validate
  return {
    settings := settings
    tick := 0
    core := .empty
    stability := .empty settings.stabilityRate
    samples := .empty settings.trailSampleRate
    glue := .empty
    journal := none }

def size (w : Worker K R) : Nat := w.core.size

def level (w : Worker K R) : Nat := w.core.assignment.level

/-- What the worker selects clauses by. -/
def selector (w : Worker K R) : Selector K :=
  ⟨w.settings.heuristic, w.settings.scoreParameters, w.settings.share⟩

/-! ## Variables -/

/-- The largest count that a number of variables can be asked for. -/
def maxRequest : Nat := 0xffffffffffffffff

def addVariables (w : Worker K R) (n : Nat) : Except Breach (Worker K R × Except Refusal Unit) :=
  let requested := min (w.size + n) maxRequest
  if Variable.maxCount < requested then .ok (w, .error (.beyondCapacity requested))
  else do
    let stability ← w.stability.register n w.tick
    let samples ← w.samples.register n
    return (
      { w with core := w.core.register n, stability := stability, samples := samples }, .ok ())

/-- Names a variable by an external variable. -/
def renameVariable (w : Worker K R) (external : Nat) (v : Variable) :
    Except Breach (Worker K R × Except Refusal Unit) := do
  let (names, result) ← w.core.names.rename external v
  return ({ w with core.names := names }, result)

/-- Keeps clauses with the external literal from being imported. -/
def forbid (w : Worker K R) (external : Int32) : Worker K R :=
  { w with core.forbidden := w.core.forbidden.insert external }

/-- Takes an unassigned variable out of the search. -/
def retire (w : Worker K R) (v : Variable) (state : Participation) :
    Except Breach (Worker K R × Except Refusal Unit) := do
  w.core.require v
  if (w.core.assignment.value v).isSome then return (w, .error (.assignedVariable v))
  return ({ w with core := w.core.retire v state }, .ok ())

def eliminate (w : Worker K R) (v : Variable) : Except Breach (Worker K R × Except Refusal Unit) :=
  w.retire v .eliminated

/-- Marks an unassigned variable as replaced by an equivalent one. -/
def substitute (w : Worker K R) (v : Variable) : Except Breach (Worker K R × Except Refusal Unit) :=
  w.retire v .substituted

/-! ## Search -/

/-- Catches the estimates of a variable up to the present tick. -/
def catchUp (w : Worker K R) (v : Variable) : Except Breach (Worker K R) := do
  return { w with stability := ← w.stability.catchUp v w.tick (w.core.assignment.value v) }

/-- Assigns a literal that follows from what is assigned. -/
def assign (w : Worker K R) (l : Literal) : Except Breach (Worker K R × Except Clash Unit) := do
  let w ← w.catchUp l.var
  let (core, result) := w.core.assign l .propagation
  return ({ w with core := core }, result)

/-- Opens a decision level with a literal; the answer is the new level. -/
def decide (w : Worker K R) (l : Literal) : Except Breach (Worker K R × Except Refusal Nat) := do
  w.core.require l.var
  if w.core.stateOf l.var ≠ .active then return (w, .error (.retiredVariable l.var))
  if (w.core.assignment.value l.var).isSome then return (w, .error (.assignedVariable l.var))
  let w ← w.catchUp l.var
  let core := { w.core with assignment := w.core.assignment.openLevel }
  match core.assign l .decision with
  | (core, .ok ()) => return ({ w with core := core }, .ok core.assignment.level)
  | (_, .error _) => throw .precondition

/-- Backjumps to a level and unassigns everything above it. -/
def backtrack (w : Worker K R) (level : Nat) : Except Breach (Worker K R) := do
  let start ← w.core.assignment.startOf level
  let above := w.core.assignment.trail.toList.drop start
  let stability ←
    w.stability.catchUpEach (above.map (·.literal.var)) w.tick w.core.assignment.value
  return { w with
    core.assignment := w.core.assignment.cut level start
    stability := stability }

/-- Counts a conflict; the answer is the new tick. -/
def conflict (w : Worker K R) : Except Breach (Worker K R × Int) := do
  let tick ← inWord64 (w.tick + 1)
  return ({ w with tick := tick }, tick)

/-- Catches the estimates of all variables up to the present tick. -/
def catchUpAll (w : Worker K R) : Except Breach (Worker K R) := do
  return { w with stability := ← w.stability.catchUpAll w.tick w.core.assignment.value }

def observeTrail (w : Worker K R) : Except Breach (Worker K R) := do
  return { w with samples := ← w.samples.sample w.core.assignment.trail.toList }

/-! ## Clauses -/

/-- Adds a clause of the formula. The empty clause makes the worker unsatisfiable and a unit is
assigned; the answer is the position of a stored clause. -/
def assertClause (w : Worker K R) (literals : List Literal) :
    Except Breach (Worker K R × Except Refusal (Option Nat)) :=
  if w.level ≠ 0 then .ok (w, .error (.aboveRoot w.level))
  else
    match literals with
    | [] => .ok ({ w with core.refuted := true }, .ok none)
    | [l] => do
      let (w, _) ← w.assign l
      return (w, .ok none)
    | first :: second :: _ => do
      w.core.require first.var
      w.core.require second.var
      return (
        { w with core := w.core.insertClause ⟨literals, literals.length, .input⟩ },
        .ok (some w.core.store.clauses.size))

/-- Writes a sample to the recorder. What goes wrong there is of no concern to the worker. -/
def record (w : Worker K R) (write : R → R × Except StreamFault Unit) : Worker K R :=
  { w with journal := w.journal.map fun r => (write r).1 }

/-- Records the glue of a learned clause next to its fuzzy glue. -/
def noteLearned [Recorder R K] (w : Worker K R) (literals : List Literal) (glue : Nat) :
    Except Breach (Worker K R) := do
  let fuzzy ← w.samples.fuzzyGlue literals
  let w := { w with glue := w.glue.record (w.core.externalImage literals) glue }
  return w.record fun r => Recorder.writeGlue r (⟨fuzzy, glue, literals.length⟩ : GlueSample K)

def noteConflict [Recorder R K] (w : Worker K R) (literals : List Literal) :
    Except Breach (Worker K R) := do
  let probability ← w.samples.falsityProbability literals
  let satisfactionSum ← w.samples.satisfactionSum literals
  return w.record fun r =>
    Recorder.writeConflict r
      (⟨probability, satisfactionSum, literals.length⟩ : ConflictEstimate K)

/-- Records a learned clause and stores it if it has two literals or more; the answer is its
position. -/
def learn [Recorder R K] (w : Worker K R) (literals : List Literal) (glue : Nat) :
    Except Breach (Worker K R × Option Nat) := do
  let w ← w.noteLearned literals glue
  if literals.length < 2 then return (w, none)
  return (
    { w with core := w.core.insertClause ⟨literals, glue, .learned⟩ },
    some w.core.store.clauses.size)

/-- Why an import pass gave no report. -/
inductive ImportFailure where
  | refused (refusal : Refusal)
  | breach (breach : Breach)
deriving DecidableEq, Repr

/-- Runs an import pass over a batch of payloads. All estimates are caught up first, so the units
that the pass assigns need no synchronization. A pass that is cut short leaves behind what it did.
-/
def runPass (w : Worker K R) (batch : List (List Int32)) :
    Worker K R × Except ImportFailure (PassReport K) :=
  if w.level ≠ 0 then (w, .error (.refused (.aboveRoot w.level)))
  else
    match w.catchUpAll with
    | .error b => (w, .error (.breach b))
    | .ok w =>
      let (core, result) := w.selector.run w.stability.probabilities w.core batch
      ({ w with core := core },
        match result with
        | .ok report => .ok report
        | .error (.malformed e) => .error (.refused (.malformedPayload e))
        | .error (.breach b) => .error (.breach b))

/-! ## Observers -/

def setJournal (w : Worker K R) (r : R) : Worker K R := { w with journal := some r }

def setTracer (w : Worker K R) : Worker K R := { w with core.trace := some #[] }

def value (w : Worker K R) (l : Literal) : Except Breach (Option Bool) := do
  w.core.require l.var
  return w.core.assignment.truth l

def participation (w : Worker K R) (v : Variable) : Except Breach Participation :=
  w.core.states.fetch v

def watchers (w : Worker K R) (l : Literal) : Except Breach (Array Watcher) := do
  w.core.require l.var
  return w.core.store.watchersOf l

/-- The probabilities of a literal to be true, false and unassigned. -/
def probabilities (w : Worker K R) (l : Literal) : Except Breach (K × K × K) := do
  w.core.require l.var
  let p := w.stability.probabilities
  return (p.isTrue l, p.isFalse l, p.isUnassigned l)

end Worker

end ClauseSharing
