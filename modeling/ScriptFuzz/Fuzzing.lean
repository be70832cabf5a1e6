import ScriptFuzz.Builder.Construct
import ScriptFuzz.Environment
import ScriptFuzz.Executor
import ScriptFuzz.Settings.Basic

/-!
# Fuzzing steps

What one worker has at hand: a random source, settings, the model of the target, an executor, and a
supply of identifiers. A step may end in a fault; what it did before stays done.
-/

namespace ScriptFuzz

set_option autoImplicit false

/-- The state of a worker; `σ` is the state of its executor. -/
structure Fuzzer (σ : Type) where
  random : Random
  settings : Settings := {}
  environment : Environment := .ofBuiltins []
  executor : Executor σ
  target : σ
  /-- The number of identifiers that were handed out. -/
  serial : Nat := 0

/-- A step of a worker. -/
abbrev Fuzzing (σ : Type) := ExceptT Fault (StateM (Fuzzer σ))

/-- Code under construction with random choices. A fault gives up the code but not the position in
the random source. -/
abbrev Assembly := StateT Builder (ExceptT Fault (StateM Random))

namespace Fuzzing

variable {σ : Type}

def freshId : Fuzzing σ Uuid := do
  let f ← getThe (Fuzzer σ)
  set { f with serial := f.serial + 1 }
  return .fresh f.serial

/-- Uses the random source. -/
def draw {α : Type} (x : ExceptT Fault (StateM Random) α) : Fuzzing σ α := do
  let f ← getThe (Fuzzer σ)
  let (r, random) := x.run.run f.random
  set { f with random }
  Build.orRaise r

/-- Runs a program for as long as the settings allow. -/
def execute (p : Program) : Fuzzing σ Execution := do
  let f ← getThe (Fuzzer σ)
  let (r, target) := (f.executor.execute p f.settings.timeoutMilliseconds).run.run f.target
  set { f with target }
  Build.orRaise r

def reset : Fuzzing σ Unit :=
  modifyThe (Fuzzer σ) fun f => { f with target := (f.executor.reset.run f.target).2 }

end Fuzzing

end ScriptFuzz
