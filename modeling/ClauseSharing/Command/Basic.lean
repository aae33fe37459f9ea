import ClauseSharing.Decimal.Fixed
import ClauseSharing.Exchange.Receiver
import ClauseSharing.Failure
import ClauseSharing.Scalar.Double

/-!
The command line as a function of its arguments and of the files.
-/

namespace ClauseSharing

/-- The contents of files, or why they cannot be read. -/
abbrev Files := String → Except StreamFault (List UInt8)

def StreamFault.missingFile : StreamFault := ⟨false, "No such file or directory (os error 2)"⟩

/-- The options of an import. The heuristic is given by its code. -/
structure ImportOptions where
  sharePercent : Nat
  heuristicCode : Nat
  falseCutoffPercent : Nat
  trueCutoffPercent : Nat
  trueWeightPercent : Nat
  stabilityRate : Float
  trailSampleRate : Float

def ImportOptions.standard : ImportOptions where
  sharePercent := 100
  heuristicCode := 0
  falseCutoffPercent := 90
  trueCutoffPercent := 90
  trueWeightPercent := 50
  stabilityRate := Settings.standard.stabilityRate
  trailSampleRate := Settings.standard.trailSampleRate

/-- The settings that the options give, with the code of the heuristic checked before all ranges. -/
def ImportOptions.settings (o : ImportOptions) : Except (SettingsError Float) (Settings Float) := do
  let heuristic ← Settings.heuristicOfCode o.heuristicCode
  let settings : Settings Float := {
    sharePercent := o.sharePercent
    heuristic := heuristic
    falseCutoffPercent := o.falseCutoffPercent
    trueCutoffPercent := o.trueCutoffPercent
    trueWeightPercent := o.trueWeightPercent
    stabilityRate := o.stabilityRate
    trailSampleRate := o.trailSampleRate }
  settings.validate
  return settings

/-- An import of a clause stream into the worker of a formula. -/
structure ImportJob where
  formula : String
  stream : String
  /-- External variables to eliminate before the import. -/
  eliminate : List Nat
  /-- External literals that must not be imported. -/
  forbidden : List Int32
  options : ImportOptions

inductive Command where
  | runPass (job : ImportJob)
  /-- Gathers the glue of every clause in the streams and prints where it varied. -/
  | aggregate (streams : List String)

/-- Why a command failed. -/
inductive CommandFailure where
  | file (path : String) (fault : StreamFault)
  | noSuchVariable (external : Nat)
  | failed (failure : Failure Float)

namespace CommandFailure

def message : CommandFailure → String
  | .file path _ => "couldn't read " ++ path
  | .noSuchVariable external => "unknown external variable " ++ toString external
  | .failed f => f.message

def causes : CommandFailure → List String
  | .file _ fault => [fault.text]
  | .noSuchVariable _ => []
  | .failed f => f.causes

def lines (f : CommandFailure) : List String :=
  ("error: " ++ f.message) :: f.causes.map fun cause => "  caused by: " ++ cause

end CommandFailure

/-- A command under way: it may fail, and a breach ends everything. -/
abbrev CommandM := ExceptT CommandFailure (Except Breach)

def readFile (files : Files) (path : String) : CommandM (List UInt8) :=
  match files path with
  | .ok bytes => return bytes
  | .error fault => throw (.file path fault)

/-- The clauses of a stream up to its end or the first error, and that error. -/
def readStream (files : Files) (path : String) :
    CommandM (List SharedClause × Option TransportError) := do
  return Source.clauses ⟨[], ← readFile files path⟩

def requireIntact : Option TransportError → CommandM Unit
  | none => return ()
  | some e => throw (.failed (.transport e))

namespace ImportJob

def eliminateVariable (w : Worker Float) (external : Nat) : CommandM (Worker Float) := do
  let internal := if external < 0x80000000 then w.core.names.internal[external]? else none
  match internal with
  | none => throw (.noSuchVariable external)
  | some v =>
    match ← (w.eliminate v : Except Breach _) with
    | (w, .ok ()) => return w
    | (_, .error refusal) => throw (.failed (.worker refusal))

def run (files : Files) (job : ImportJob) : CommandM (PassReport Float) := do
  let settings ← match job.options.settings with
    | .ok settings => pure settings
    | .error e => throw (.failed (.settings e))
  let bytes ← readFile files job.formula
  let worker ← match ← (Worker.ofFormula settings bytes : Except Breach _) with
    | .ok worker => pure worker
    | .error f => throw (.failed f)
  let worker ← job.eliminate.foldlM eliminateVariable worker
  let worker := job.forbidden.foldl Worker.forbid worker
  let (clauses, error) ← readStream files job.stream
  requireIntact error
  match (worker.runPass (clauses.map SharedClause.payload)).2 with
  | .ok report => return report
  | .error (.refused refusal) => throw (.failed (.worker refusal))
  | .error (.breach b) => (throw b : Except Breach _)

end ImportJob

def PassReport.lines (r : PassReport Float) : List String :=
  [ "status = " ++ r.status.name
  , "received = " ++ toString r.received
  , "units = " ++ toString r.units ++ " (skipped " ++ toString r.unitsPassedOver ++ ")"
  , "candidates = " ++ toString r.candidates
  , "imported = " ++ toString r.imported
  , "discarded = " ++ toString r.discarded ++ " (witness " ++ toString r.forbidden ++ ", unknown " ++
      toString r.unknown ++ ", eliminated " ++ toString r.eliminated ++ ", satisfied " ++
      toString r.satisfied ++ ", falsified " ++ toString r.falsified ++ ")"
  , "dropped literals = " ++ toString r.removedLiterals
  , "charged = " ++ toString r.charged ++ " of budget " ++ Decimal.fixed 1 r.budget ]

/-- Records the glue of a clause. Glue is a count, so it must not be negative. -/
def writeGlue (statistics : GlueStatistics Float) (c : SharedClause) :
    CommandM (GlueStatistics Float) :=
  if c.glue < 0 then throw (.failed (.payload (.badGlue c.glue)))
  else return statistics.record c.literals c.glue.toInt.toNat

def aggregateStream (files : Files) (statistics : GlueStatistics Float) (path : String) :
    CommandM (GlueStatistics Float) := do
  let (clauses, error) ← readStream files path
  let statistics ← clauses.foldlM writeGlue statistics
  requireIntact error
  return statistics

def aggregateStreams (files : Files) (streams : List String) : CommandM (GlueStatistics Float) :=
  streams.foldlM (aggregateStream files) .empty

/-- The lines of statistics: the clauses whose glue varied, and the number of clauses. -/
def GlueStatistics.lines (s : GlueStatistics Float) : List String :=
  s.varying.map (fun (signature, moments) =>
    "[" ++ ", ".intercalate (signature.map fun l => toString l.toInt) ++ "]: count = " ++
      toString moments.count ++ ", mean = " ++ Decimal.fixed 3 moments.mean ++ ", variance = " ++
      Decimal.fixed 3 moments.variance) ++
    ["unique clauses = " ++ toString s.size]

/-- The result of a command: its exit code and the lines on its two outputs. -/
structure CommandOutcome where
  code : Nat
  output : List String
  errors : List String
deriving DecidableEq, Repr

def Command.run (files : Files) (command : Command) : Except Breach CommandOutcome := do
  let result ← match command with
    | .runPass job => ExceptT.run (PassReport.lines <$> job.run files)
    | .aggregate streams => ExceptT.run (GlueStatistics.lines <$> aggregateStreams files streams)
  match result with
  | .ok lines => return ⟨0, lines, []⟩
  | .error failure => return ⟨1, [], failure.lines⟩

end ClauseSharing
