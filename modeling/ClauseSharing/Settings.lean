import ClauseSharing.Score.Evaluate

/-!
The options of a worker and their ranges.
-/

namespace ClauseSharing

open Scalar

/-- The options that have a range. -/
inductive RangedOption where
  | sharePercent
  | falseCutoffPercent
  | trueCutoffPercent
  | trueWeightPercent
  | stabilityRate
  | trailSampleRate
deriving DecidableEq, Repr

def RangedOption.name : RangedOption → String
  | .sharePercent => "import_percent"
  | .falseCutoffPercent => "false_stability_threshold"
  | .trueCutoffPercent => "true_stability_threshold"
  | .trueWeightPercent => "true_literal_penalty"
  | .stabilityRate => "stability_ema_alpha"
  | .trailSampleRate => "trail_sample_alpha"

/-- What is wrong with the options. -/
inductive SettingsError (K : Type) where
  | badPercent (option : RangedOption) (value : Nat)
  | badRate (option : RangedOption) (value : K)
  | noSuchHeuristic (code : Nat)
deriving DecidableEq

def SettingsError.message {K : Type} [Scalar K] : SettingsError K → String
  | .badPercent option value =>
    "option `" ++ option.name ++ "` must be a percent in 0..=100 but is " ++ toString value
  | .badRate option value =>
    "option `" ++ option.name ++ "` must lie in (0, 1] but is " ++ text value
  | .noSuchHeuristic code =>
    "unknown import heuristic code " ++ toString code ++ ", expected 0..=8"

/-- The options that steer the estimates and the import of clauses. -/
structure Settings (K : Type) where
  /-- The share of the offered literals that one pass may import, in percent. -/
  sharePercent : Nat
  heuristic : Heuristic
  falseCutoffPercent : Nat
  trueCutoffPercent : Nat
  trueWeightPercent : Nat
  stabilityRate : K
  trailSampleRate : K
deriving DecidableEq

namespace Settings

variable {K : Type} [Scalar K]

/-- The options of a worker that was given none. -/
def standard : Settings K where
  sharePercent := 100
  heuristic := .size
  falseCutoffPercent := 90
  trueCutoffPercent := 90
  trueWeightPercent := 50
  stabilityRate := one / ofInt 1000
  trailSampleRate := one / ofInt 100

def heuristicOfCode (code : Nat) : Except (SettingsError K) Heuristic :=
  match Heuristic.ofCode? code with
  | some h => .ok h
  | none => .error (.noSuchHeuristic code)

def checkPercent (option : RangedOption) (value : Nat) : Except (SettingsError K) Unit :=
  if 100 < value then .error (.badPercent option value) else .ok ()

/-- Checks one decay rate. What is no number is refused as well. -/
def checkRate (option : RangedOption) (value : K) : Except (SettingsError K) Unit :=
  if isDecayRate value then .ok () else .error (.badRate option value)

/-- Checks the range of every option and names the first one that is out of it. -/
def validate (s : Settings K) : Except (SettingsError K) Unit := do
  checkPercent .sharePercent s.sharePercent
  checkPercent .falseCutoffPercent s.falseCutoffPercent
  checkPercent .trueCutoffPercent s.trueCutoffPercent
  checkPercent .trueWeightPercent s.trueWeightPercent
  checkRate .stabilityRate s.stabilityRate
  checkRate .trailSampleRate s.trailSampleRate

def share (s : Settings K) : K := percent s.sharePercent

/-- The thresholds of the heuristics as fractions. -/
def scoreParameters (s : Settings K) : ScoreParameters K :=
  ⟨percent s.falseCutoffPercent, percent s.trueCutoffPercent,
    percent s.trueWeightPercent⟩

end Settings

end ClauseSharing
