import ScriptFuzz.Execution
import ScriptFuzz.Fault
import ScriptFuzz.Program.Basic

/-!
# Executors

An executor runs programs and has a state of its own, such as a directory of files. It answers every
request: a target that cannot be started is a failed execution.
-/

namespace ScriptFuzz

set_option autoImplicit false

/-- Something that runs programs; `σ` is its state. -/
structure Executor (σ : Type) where
  /-- Runs a program, for at most the given number of milliseconds. -/
  execute : Program → Nat → ExceptT Fault (StateM σ) Execution
  /-- Goes back to a clean state after repeated failures. -/
  reset : StateM σ Unit

end ScriptFuzz
