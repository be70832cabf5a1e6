import ScriptFuzz.Bootstrap
import ScriptFuzz.Engine
import ScriptFuzz.Random.ChaCha
import ScriptFuzz.Report

/-!
# Campaigns

A campaign is a run of several workers against one target: the target lists its builtins, the corpus
is filled, and then every worker goes through its iterations. Workers share the corpus, the sense of
what is new, and the statistics. Here they work one after the other.
-/

namespace ScriptFuzz

set_option autoImplicit false

/-- Workers are known by their numbers. -/
def Worker.name (number : Nat) : String := "worker-" ++ toString number

/-- What a campaign is to do. -/
structure Campaign where
  site : Site := {}
  settings : Settings := {}
  /-- The directory of the programs to start from. -/
  seeds : Option String := none
  output : String
  workers : Nat := 1
  /-- The iterations of each worker. -/
  iterations : Nat := 0
  /-- The time that accounts of crashes give. -/
  time : String := ""

/-- Why a campaign did not come to its end. -/
inductive CampaignError where
  | workbench
  | bootstrap
  | seeds (path : String)
  | report (error : ReportError)
  /-- A seed was read with a fault. -/
  | fault (f : Fault)
  /-- There are more workers than memory can hold. -/
  | oversized
deriving DecidableEq

def CampaignError.text : CampaignError → String
  | workbench => "creating executor for bootstrap"
  | bootstrap => "environment bootstrap failed"
  | seeds path => Failure.text { kind := .corpus, detail := "cannot read " ++ path }
  | report error => error.text
  | fault f => f.text
  | oversized => "capacity overflow"

/-- What the workers share. -/
structure Shared where
  corpus : Corpus := {}
  evaluator : Evaluator := .novelty {}
  statistics : Statistics := {}
  /-- The number of identifiers that were handed out. -/
  serial : Nat := 0

namespace Campaign

def temporary (number : Nat) : String := "/tmp/workbench-" ++ toString number

/-- Asks the target for its builtins. -/
def environment (c : Campaign) : ExceptT CampaignError (StateM Files) Environment := do
  match ← (Workbench.setUp c.site c.settings.target (temporary 0)).run with
  | .error _ => throw .workbench
  | .ok w =>
    let answer ←
      (Environment.bootstrap w.executor (.fresh 0) c.settings.bootstrapMilliseconds).run
    w.tearDown
    match answer with
    | .ok (.ok e) => return e
    | _ => throw .bootstrap

open Build in
/-- The program that a campaign without seeds starts from. -/
def trivialSeed (id : Uuid) : Except Fault Program := do
  let (_, b) ← (do
    let s ← loadString "refuzz"
    let f ← loadBuiltin "len"
    let _ ← callFunction f [s]
    loadInt 1 : StateT Builder (Except Fault) Variable).run {}
  b.finalize id

def textsIn (files : Files) (p : Path) : List (String × String) :=
  (files.names p).filterMap fun name => (files.readText? p name).map (name, ·)

/-- The programs to start from. There is always one. -/
def corpus (c : Campaign) : ExceptT CampaignError (StateM Files) Corpus := do
  let files ← getThe Files
  let loaded ←
    match c.seeds with
    | none => pure {}
    | some name =>
      match files.findDirectory c.site.directory name with
      | .ok p =>
        match ({} : Corpus).load (textsIn files p) with
        | .ok (_, corpus) => pure corpus
        | .error f => throw (.fault f)
      | .error _ => throw (.seeds name)
  match loaded.programs, trivialSeed (.fresh 1) with
  | [], .ok seed => return loaded.add seed
  | _, _ => return loaded

/-- The iterations of a worker; what they report is written after each. A fault ends them. -/
def iterate (time : String) (report : Report) : Nat → Engine → Fuzzer Files → Engine × Fuzzer Files
  | 0, engine, fuzzer => (engine, fuzzer)
  | n + 1, engine, fuzzer =>
    let ((ended, engine), fuzzer) := (Engine.fuzzOne.run.run engine).run fuzzer
    let files := (engine.events.forM (report.observe time)).run fuzzer.target
    let engine := { engine with events := [] }
    let fuzzer := { fuzzer with target := files.2 }
    match ended with
    | .ok _ => iterate time report n engine fuzzer
    | .error _ => (engine, fuzzer)

/-- How a worker starts the target: in a directory of its own. -/
def targetOf (c : Campaign) (worker : Nat) : TargetSettings :=
  let target := c.settings.target
  { target with workDirectory := target.workDirectory.map (Path.join · (Worker.name worker)) }

/-- The work of one worker. A worker without a workbench does nothing. -/
def work (c : Campaign) (environment : Environment) (report : Report) (shared : Shared)
    (worker : Nat) : StateM Files Shared := do
  match ← (Workbench.setUp c.site (c.targetOf worker) (temporary (worker + 1))).run with
  | .error _ => return shared
  | .ok w =>
    let fuzzer : Fuzzer Files :=
      { random := .ofSeed (.ofNat (c.settings.seed + worker)), settings := c.settings, environment
        executor := w.executor, target := ← get, serial := shared.serial }
    let engine : Engine :=
      { mutators := Mutator.standard c.settings.mutation, corpus := shared.corpus
        evaluator := shared.evaluator, statistics := shared.statistics }
    let (engine, fuzzer) := iterate c.time report c.iterations engine fuzzer
    set fuzzer.target
    w.tearDown
    return {
      corpus := engine.corpus, evaluator := engine.evaluator, statistics := engine.statistics
      serial := fuzzer.serial }

/-- The number of workers for which there are no addresses. -/
def tooManyWorkers : Nat := 0x1000000000000000

/-- The campaign; gives what the workers shared in the end. -/
def run (c : Campaign) : ExceptT CampaignError (StateM Files) Shared := do
  let environment ← c.environment
  let corpus ← c.corpus
  match ← (Report.setUp c.site c.output).run with
  | .error e => throw (.report e)
  | .ok report =>
    if tooManyWorkers ≤ c.workers then throw .oversized
    ExceptT.lift
      ((List.range c.workers).foldlM (c.work environment report) { corpus, serial := 2 })

end Campaign

end ScriptFuzz
