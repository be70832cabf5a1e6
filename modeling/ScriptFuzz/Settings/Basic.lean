import ScriptFuzz.Json.Writer
import ScriptFuzz.Settings.Value

/-!
# Settings

What a fuzzing run can be told: limits, probabilities, the target and how it is started. Every
setting has a default; `Settings.ofSetting?` reads the settings that a configuration gives.
-/

namespace ScriptFuzz

set_option autoImplicit false

open ScriptFuzz.Number

/-- Settings of the mutators. -/
structure MutationSettings where
  /-- The largest number of observed instructions that one mutation follows up. -/
  maxTargets : Nat := 3
  /-- How likely an argument is a visible variable and not a fresh literal. -/
  reuseProbability : Binary64 := Decimal.nearest ⟨8, -1⟩
  /-- Whether names that were rarely chosen are preferred. -/
  favorsRare : Bool := false
  /-- The largest number of operations that one mutation changes. -/
  maxAlterations : Nat := 3
deriving DecidableEq, Inhabited

/-- How the target is started. -/
structure TargetSettings where
  interpreter : String := "python3"
  /-- The arguments before the path of the script. -/
  arguments : List String := []
  /-- Further environment variables, names ascending. -/
  environment : List (String × String) := []
  /-- The directory of scripts and captured output; a temporary one if there is none. -/
  workDirectory : Option String := none
  /-- A replacement for the hook module. -/
  hookScript : Option String := none
deriving DecidableEq, Inhabited

/-- Settings of logs and traces. -/
structure TelemetrySettings where
  endpoint : Option String := none
  jsonLogs : Bool := false
deriving DecidableEq, Inhabited

/-- The settings of a run. -/
structure Settings where
  /-- Mutations made on one seed before another is chosen. -/
  rounds : Nat := 8
  /-- The time that one execution may take. -/
  timeoutMilliseconds : Nat := 1000
  /-- The time that the target may take to list its builtins. -/
  bootstrapMilliseconds : Nat := 1000
  /-- Seeds that fail in a row before the executor is reset. -/
  failureThreshold : Nat := 3
  /-- Whether a seed gets a random preamble before it is mutated. -/
  warmsUp : Bool := true
  /-- Whether interesting programs are annotated with what is interesting. -/
  inspects : Bool := false
  /-- Whether failing programs are annotated with their output. -/
  diagnoses : Bool := false
  seed : Nat := 0
  mutation : MutationSettings := {}
  target : TargetSettings := {}
  telemetry : TelemetrySettings := {}
deriving DecidableEq, Inhabited

def Settings.countLimit : Nat := 0x10000000000000000

/-- The bound of the failure threshold. -/
def Settings.thresholdLimit : Nat := 0x100000000

open Settings (countLimit thresholdLimit)

namespace MutationSettings

def ofSetting? (strict : Bool) (s : Setting) : Option MutationSettings := do
  let es ← s.entries? strict
    ["max_selected_targets", "reuse_argument_probability", "favor_rare_attributes",
      "max_operation_mutations"]
  let d : MutationSettings := {}
  return {
    maxTargets := ← Setting.entry? es "max_selected_targets" d.maxTargets (Setting.nat? countLimit)
    reuseProbability :=
      ← Setting.entry? es "reuse_argument_probability" d.reuseProbability Setting.float?
    favorsRare := ← Setting.entry? es "favor_rare_attributes" d.favorsRare Setting.bool?
    maxAlterations :=
      ← Setting.entry? es "max_operation_mutations" d.maxAlterations (Setting.nat? countLimit) }

end MutationSettings

namespace TargetSettings

def ofSetting? (strict : Bool) (s : Setting) : Option TargetSettings := do
  let es ← s.entries? strict ["interpreter", "interpreter_args", "env", "work_dir", "hook_script"]
  let d : TargetSettings := {}
  return {
    interpreter := ← Setting.entry? es "interpreter" d.interpreter Setting.text?
    arguments := ← Setting.entry? es "interpreter_args" d.arguments (Setting.list? Setting.text?)
    environment := ← Setting.entry? es "env" d.environment (Setting.map? Setting.text?)
    workDirectory := ← Setting.entry? es "work_dir" none (Setting.optional? Setting.text?)
    hookScript := ← Setting.entry? es "hook_script" none (Setting.optional? Setting.text?) }

end TargetSettings

namespace TelemetrySettings

def ofSetting? (strict : Bool) (s : Setting) : Option TelemetrySettings := do
  let es ← s.entries? strict ["otel_endpoint", "json_logs"]
  let d : TelemetrySettings := {}
  return {
    endpoint := ← Setting.entry? es "otel_endpoint" none (Setting.optional? Setting.text?)
    jsonLogs := ← Setting.entry? es "json_logs" d.jsonLogs Setting.bool? }

end TelemetrySettings

namespace Settings

def ofSetting? (strict : Bool) (s : Setting) : Option Settings := do
  let es ← s.entries? strict
    ["rounds_per_iteration", "timeout_ms", "bootstrap_timeout_ms", "failure_threshold",
      "enable_warmup", "enable_inspection", "enable_diagnostics", "seed", "mutator", "runtime",
      "telemetry"]
  let d : Settings := {}
  let count (key : String) (default : Nat) : Option Nat :=
    Setting.entry? es key default (Setting.nat? countLimit)
  let switch (key : String) (default : Bool) : Option Bool :=
    Setting.entry? es key default Setting.bool?
  return {
    rounds := ← count "rounds_per_iteration" d.rounds
    timeoutMilliseconds := ← count "timeout_ms" d.timeoutMilliseconds
    bootstrapMilliseconds := ← count "bootstrap_timeout_ms" d.bootstrapMilliseconds
    failureThreshold :=
      ← Setting.entry? es "failure_threshold" d.failureThreshold (Setting.nat? thresholdLimit)
    warmsUp := ← switch "enable_warmup" d.warmsUp
    inspects := ← switch "enable_inspection" d.inspects
    diagnoses := ← switch "enable_diagnostics" d.diagnoses
    seed := ← count "seed" d.seed
    mutation := ← Setting.entry? es "mutator" {} (MutationSettings.ofSetting? strict)
    target := ← Setting.entry? es "runtime" {} (TargetSettings.ofSetting? strict)
    telemetry := ← Setting.entry? es "telemetry" {} (TelemetrySettings.ofSetting? strict) }

/-- The settings as JSON; `number` writes a floating-point number. -/
def toJson (number : Binary64 → Json) (s : Settings) : Json :=
  let m := s.mutation
  let t := s.target
  .ofFields
    [("rounds_per_iteration", .ofNat s.rounds), ("timeout_ms", .ofNat s.timeoutMilliseconds),
      ("bootstrap_timeout_ms", .ofNat s.bootstrapMilliseconds),
      ("failure_threshold", .ofNat s.failureThreshold), ("enable_warmup", .bool s.warmsUp),
      ("enable_inspection", .bool s.inspects), ("enable_diagnostics", .bool s.diagnoses),
      ("seed", .ofNat s.seed),
      ("mutator", .ofFields
        [("max_selected_targets", .ofNat m.maxTargets),
          ("reuse_argument_probability", number m.reuseProbability),
          ("favor_rare_attributes", .bool m.favorsRare),
          ("max_operation_mutations", .ofNat m.maxAlterations)]),
      ("runtime", .ofFields
        [("interpreter", .ofText t.interpreter),
          ("interpreter_args", .array (t.arguments.map .ofText)),
          ("env", .ofFields (t.environment.map fun (k, v) => (k, .ofText v))),
          ("work_dir", .ofText? t.workDirectory), ("hook_script", .ofText? t.hookScript)]),
      ("telemetry", .ofFields
        [("otel_endpoint", .ofText? s.telemetry.endpoint),
          ("json_logs", .bool s.telemetry.jsonLogs)])]

def ofJson? (j : Json) : Option Settings := (Setting.ofJson? j).bind (ofSetting? true)

end Settings

/-- The settings of mutators that a JSON value gives. -/
def MutationSettings.ofJson? (j : Json) : Option MutationSettings :=
  (Setting.ofJson? j).bind (ofSetting? true)

def TargetSettings.ofJson? (j : Json) : Option TargetSettings :=
  (Setting.ofJson? j).bind (ofSetting? true)

end ScriptFuzz
