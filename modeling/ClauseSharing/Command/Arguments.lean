import ClauseSharing.Command.Basic
import ClauseSharing.Decimal.Read

/-!
Reading a command from its arguments.

An option is given as `--name=value` or as `--name value`, and may stand anywhere after the word
that selects the command.
-/

namespace ClauseSharing

def usage : String :=
  "usage: clause-sharing import <input .cnf file> <clause stream> [options]\n" ++
    "       clause-sharing aggregate <wire streams>..."

/-- The largest value of an option that is given as a percentage or a code. -/
def maxPercent : Nat := 255

/-- The largest external variable that can be asked for. -/
def maxVariable : Nat := 0xffffffff

/-- The value of a count that is at most `limit`. -/
def countUpTo (limit : Nat) (value : String) : Except String Nat :=
  match Decimal.natural? value.toList with
  | some n => if n ≤ limit then .ok n else .error ("number too large: " ++ value)
  | none => .error ("invalid number: " ++ value)

def externalLiteral (value : String) : Except String Int32 :=
  match Decimal.integer? value.toList with
  | some n =>
    if Scalar.fitsWord32 n then .ok (Int32.ofInt n) else .error ("number too large: " ++ value)
  | none => .error ("invalid number: " ++ value)

def rate (value : String) : Except String Float :=
  match Decimal.read? value with
  | some x => .ok x
  | none => .error ("invalid number: " ++ value)

namespace ImportJob

def setOption (job : ImportJob) (name value : String) : Except String ImportJob := do
  match name with
  | "eliminate" =>
    return { job with eliminate := job.eliminate ++ [← countUpTo maxVariable value] }
  | "witness" => return { job with forbidden := job.forbidden ++ [← externalLiteral value] }
  | "import-percent" => return { job with options.sharePercent := ← countUpTo maxPercent value }
  | "import-heuristic" => return { job with options.heuristicCode := ← countUpTo maxPercent value }
  | "false-stability-threshold" =>
    return { job with options.falseCutoffPercent := ← countUpTo maxPercent value }
  | "true-stability-threshold" =>
    return { job with options.trueCutoffPercent := ← countUpTo maxPercent value }
  | "true-literal-penalty" =>
    return { job with options.trueWeightPercent := ← countUpTo maxPercent value }
  | "stability-ema-alpha" => return { job with options.stabilityRate := ← rate value }
  | "trail-sample-alpha" => return { job with options.trailSampleRate := ← rate value }
  | _ => throw ("unknown option: --" ++ name)

def optionName? (argument : String) : Option String :=
  match argument.toList with
  | '-' :: '-' :: name => some (String.ofList name)
  | _ => none

/-- An argument with the value of an option as an argument of its own. -/
def separateValue (argument : String) : List String :=
  let name := argument.toList.takeWhile (· != '=')
  match optionName? argument, argument.toList.drop name.length with
  | some _, _ :: value => [String.ofList name, String.ofList value]
  | _, _ => [argument]

/-- Reads the arguments of an import and gathers the files among them. -/
def ofArguments (job : ImportJob) (files : List String) :
    List String → Except String (ImportJob × List String)
  | [] => return (job, files)
  | [argument] =>
    match optionName? argument with
    | some name => throw ("missing value of option: --" ++ name)
    | none => return (job, files ++ [argument])
  | argument :: value :: rest =>
    match optionName? argument with
    | some name => do
      let job ← job.setOption name value
      job.ofArguments files rest
    | none => job.ofArguments (files ++ [argument]) (value :: rest)

end ImportJob

def Command.ofArguments : List String → Except String Command
  | "import" :: arguments => do
    let arguments := arguments.flatMap ImportJob.separateValue
    match ← ImportJob.ofArguments ⟨"", "", [], [], .standard⟩ [] arguments with
    | (job, [formula, stream]) =>
      return .runPass { job with formula := formula, stream := stream }
    | _ => throw usage
  | "aggregate" :: stream :: streams => return .aggregate (stream :: streams)
  | _ => throw usage

def Command.paths : Command → List String
  | .runPass job => [job.formula, job.stream]
  | .aggregate streams => streams

end ClauseSharing
