import ScriptFuzz.Corpus
import ScriptFuzz.Event
import ScriptFuzz.Generator
import ScriptFuzz.Mutation.Mutator
import ScriptFuzz.Novelty
import ScriptFuzz.Pruning
import ScriptFuzz.Tally

/-!
# The engine

One worker's loop: choose a seed, mutate it for a few rounds, classify every mutant, and go on from
the last one that ran to its end. Everything that happens is kept in logs that only grow.
-/

namespace ScriptFuzz

set_option autoImplicit false

/-- Decides whether an execution is interesting. -/
inductive Evaluator where
  | never
  | novelty (seen : Novelty)

/-- What is interesting in an execution, if anything is. -/
def Evaluator.evaluate (e : Execution) : Evaluator → Option String × Evaluator
  | never => (none, never)
  | novelty n => let (aspects, n) := n.evaluate e; (aspects, novelty n)

/-- How an attempt of a mutator ended. -/
inductive Attempt where
  | failed
  /-- It gave a program with so many instructions more. -/
  | added (delta : Int)

/-- The state of a loop. -/
structure Engine where
  mutators : List Mutator
  corpus : Corpus := {}
  evaluator : Evaluator := .novelty {}
  statistics : Statistics := {}
  /-- Failures of seeds in a row since the last reset. -/
  failures : Nat := 0
  /-- What was reported, the latest last. -/
  events : List Event := []
  /-- The attempts of mutators by name, the latest last. -/
  attempts : List (String × Attempt) := []

/-- A step of a loop. A fault ends it; what it did before stays done. -/
abbrev Looping (σ : Type) := ExceptT Fault (StateT Engine (StateM (Fuzzer σ)))

namespace Engine

variable {σ : Type}

/-- A step of the worker as a step of its loop. -/
def work {α : Type} (x : Fuzzing σ α) : Looping σ α :=
  ExceptT.mk (liftM x.run : StateT Engine (StateM (Fuzzer σ)) (Except Fault α))

def settings : Looping σ Settings := work do return (← getThe (Fuzzer σ)).settings

def report (e : Event) : Looping σ Unit :=
  modifyThe Engine fun s => { s with events := s.events ++ [e] }

def count (p : Program) (k : SampleKind) : Looping σ Unit :=
  modifyThe Engine fun s => { s with statistics := s.statistics.record p.contributors k }

/-- Notes how an attempt of a mutator ended. -/
def note (name : String) (a : Attempt) : Looping σ Unit :=
  modifyThe Engine fun s =>
    { s with
      attempts := s.attempts ++ [(name, a)]
      statistics :=
        match a with
        | .failed => s.statistics.failedToGenerate name
        | .added delta => s.statistics.addedInstructions name delta }

/-- The state of the loop in one line. -/
def summary (s : Engine) : String :=
  "ReflectionEngine \x7b mutators: [" ++
    ", ".intercalate (s.mutators.map fun m => "\"" ++ m.name ++ "\"") ++ "], corpus: " ++
    toString s.corpus.size ++ ", consecutive_failures: " ++ toString s.failures ++ ", .. \x7d"

/-- Runs a seed as it is. Seeds are known to work: when too many fail in a row, the executor is
reset and the count starts anew. -/
def healthCheck (seed : Program) : Looping σ Bool := do
  let e ← work (Fuzzing.execute seed)
  if e.outcome.isSuccess then
    modifyThe Engine fun s => { s with failures := 0 }
    return true
  let failures := (← getThe Engine).failures + 1
  if failures < (← settings).failureThreshold then
    modifyThe Engine fun s => { s with failures }
  else
    work Fuzzing.reset
    report (.reset failures)
    modifyThe Engine fun s => { s with failures := 0 }
  return false

/-- The seed, behind a random preamble if the settings ask for one and the result still runs. -/
def prepare (seed : Program) : Looping σ Program := do
  if !(← settings).warmsUp then return seed
  let id ← work Fuzzing.freshId
  let environment ← work do return (← getThe (Fuzzer σ)).environment
  let warmed ← work (Fuzzing.draw (seed.warmUp environment id))
  let e ← work (Fuzzing.execute warmed)
  return if e.outcome.isSuccess then warmed else seed

def annotated (p : Program) (line : String) : Program :=
  { p with comments := p.comments.addFooter line }

/-- Classifies an execution of `executed`, of which `p` is what is left after pruning. Gives the
program to go on from, if the execution succeeded. -/
def process (p executed : Program) (e : Execution) : Looping σ (Option Program) := do
  match e.outcome with
  | .crashed _ =>
    count p .crashing
    let line := e.outcome.text ++ " after " ++ toString e.milliseconds ++ " ms"
    report (.crash (annotated executed line) e)
    return none
  | .succeeded =>
    let (aspects, evaluator) := (← getThe Engine).evaluator.evaluate e
    modifyThe Engine fun s => { s with evaluator }
    match aspects with
    | some aspects =>
      let line := "Program may be interesting due to " ++ aspects
      let p := if (← settings).inspects then annotated p line else p
      count p .interesting
      modifyThe Engine fun s => { s with corpus := s.corpus.add p }
      report (.interesting p aspects)
      return some p
    | none =>
      count p .valid
      report (.valid p)
      return some p
  | .failed _ =>
    let p := if (← settings).diagnoses then annotated p ("Stdout:\n" ++ e.stdout) else p
    count p .invalid
    report (.invalid p)
    return none
  | .timedOut =>
    count p .timedOut
    report (.timedOut p)
    return none

/-- One round: a mutator at random derives a program from `parent`, which is executed, pruned and
classified. Gives the program to go on from. -/
def round (parent : Program) : Looping σ Program := do
  let mutators := (← getThe Engine).mutators
  let choice ← work (Fuzzing.draw (liftM (Draw.below .double mutators.length)))
  match mutators[choice]? with
  | none => return parent
  | some m =>
    let (mutated, m) ← work (m.mutate parent)
    modifyThe Engine fun s => { s with mutators := s.mutators.set choice m }
    match mutated with
    | none =>
      note m.name .failed
      return parent
    | some mutated =>
      note m.name (.added ((mutated.size : Int) - parent.size))
      let e ← work (Fuzzing.execute mutated)
      let pruned ← work mutated.pruneObserved
      report (.generated pruned)
      return (← process pruned mutated e).getD parent

/-- Several rounds in a row. -/
def rounds (parent : Program) : Nat → Looping σ Program
  | 0 => return parent
  | n + 1 => do rounds (← round parent) n

/-- One iteration. Gives the program that the last round went on to; nothing if there is no seed. -/
def fuzzOne : Looping σ (Option Program) := do
  let corpus := (← getThe Engine).corpus
  match ← work (Fuzzing.draw (liftM corpus.choose)) with
  | none => return none
  | some seed =>
    let _ ← healthCheck seed
    let parent ← prepare seed
    if (← getThe Engine).mutators.isEmpty then return some parent
    return some (← rounds parent (← settings).rounds)

end Engine

end ScriptFuzz
