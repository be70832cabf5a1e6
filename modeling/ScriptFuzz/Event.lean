import ScriptFuzz.Execution
import ScriptFuzz.Program.Basic

/-!
# Events

What an engine reports to observers outside of the fuzzing loop.
-/

namespace ScriptFuzz

set_option autoImplicit false

inductive Event where
  /-- A mutation gave a program. -/
  | generated (program : Program)
  | valid (program : Program)
  | interesting (program : Program) (aspects : String)
  | invalid (program : Program)
  | timedOut (program : Program)
  | crash (program : Program) (execution : Execution)
  /-- The executor was reset after so many failures in a row. -/
  | reset (failures : Nat)

namespace Event

def name : Event → String
  | generated _ => "program_generated"
  | valid _ => "valid_program_found"
  | interesting _ _ => "interesting_program_found"
  | invalid _ => "invalid_program_found"
  | timedOut _ => "timeout_found"
  | crash _ _ => "crash_found"
  | reset _ => "executor_reset"

def program? : Event → Option Program
  | generated p | valid p | interesting p _ | invalid p | timedOut p | crash p _ => some p
  | reset _ => none

end Event

end ScriptFuzz
