import ScriptFuzz.Campaign
import ScriptFuzz.CommandLine.LogFilter
import ScriptFuzz.CommandLine.Options
import ScriptFuzz.CommandLine.Tracing
import ScriptFuzz.Settings.Document

/-!
# Invocations

An invocation of the program: arguments, variables and files go in, and a status, an error and the
last lines of the log come out. The files are those that the campaign leaves.
-/

namespace ScriptFuzz.CommandLine

set_option autoImplicit false

/-- What the program is invoked with. -/
structure Invocation where
  arguments : List String
  site : Site := {}
  /-- The iterations of a worker whose number the arguments leave open. -/
  patience : Nat := 1000
  time : String := ""

/-- How an invocation ended. -/
structure Ending where
  status : Nat
  error : Option String := none
  /-- The final size of the corpus, if it was logged in a form that programs read. -/
  corpus : Option Nat := none
  /-- The final statistics by contributor, as far as they were logged in such a form. -/
  statistics : List (String × Tally) := []

namespace Ending

/-- The status of a run that came to its end. -/
def success : Nat := 0

/-- The status of a run that an error ended. -/
def failure : Nat := 1

/-- The status of arguments that are no request. -/
def usage : Nat := 2

/-- The status of a run that broke down. -/
def breakdown : Nat := 101

def ofError (text : String) : Ending := { status := failure, error := some ("Error: " ++ text) }

end Ending

namespace Invocation

def interpreterVariable : String := "REFUZZ_INTERPRETER"

def filterVariable : String := "RUST_LOG"

def endMessage : LogMessage :=
  { part := "refuzz", level := .info, fields := ["message", "corpus"] }

def statisticsMessage : LogMessage :=
  { part := "refuzz_engine::statistics", level := .info
    fields :=
      ["event", "contributor", "valid", "interesting", "invalid", "timed_out", "crashing",
        "failed_to_generate", "success_rate", "avg_added_instructions"] }

/-- The value of a variable. -/
def valueOf? (i : Invocation) (name : String) : Option String := i.site.environment.lookup name

/-- The log filter: that of the variable, if it holds one. Nothing is left of a run whose filter is
cut inside of a character. -/
def filter? (i : Invocation) : Option LogFilter :=
  match (i.valueOf? filterVariable).map LogFilter.ofText with
  | some (.ok f) => some f
  | some (.error .divided) => none
  | some (.error .malformed) | none => some .standard

/-- The settings of a run, or the file that does not give any. -/
def settings (i : Invocation) (o : Options) (files : Files) : Except String Settings :=
  match o.config with
  | none => .ok (o.apply {})
  | some name =>
    match (files.readText? i.site.directory name).bind Settings.ofToml? with
    | some s => .ok (o.apply s)
    | none => .error name

def campaign (i : Invocation) (o : Options) (s : Settings) : Campaign :=
  { site := i.site, settings := s, seeds := o.corpus, output := o.output, workers := o.workers
    iterations := o.iterations.getD i.patience, time := i.time }

def ending (s : Settings) (f : LogFilter) : Except CampaignError Shared → Ending
  | .error .oversized | .error (.fault _) => { status := Ending.breakdown }
  | .error e => .ofError e.text
  | .ok shared =>
    let logs (m : LogMessage) : Bool := s.telemetry.jsonLogs && f.admits m
    { status := Ending.success
      corpus := if logs endMessage then some shared.corpus.size else none
      statistics := if logs statisticsMessage then shared.statistics.contributors else [] }

/-- What the program does. -/
def run (i : Invocation) : StateM Files Ending := do
  match Request.ofArguments i.arguments (i.valueOf? interpreterVariable) with
  | .malformed => return { status := Ending.usage }
  | .about => return { status := Ending.success }
  | .run o =>
    match i.settings o (← get) with
    | .error name => return .ofError ("loading " ++ name)
    | .ok s =>
      match Tracing.check i.valueOf? s.telemetry.endpoint, i.filter? with
      | .error e, _ => return .ofError e.text
      | .ok (), none => return { status := Ending.breakdown }
      | .ok (), some f => return ending s f (← (i.campaign o s).run.run)

end Invocation

end ScriptFuzz.CommandLine
