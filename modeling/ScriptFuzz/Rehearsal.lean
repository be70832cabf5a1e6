import ScriptFuzz.Executor
import ScriptFuzz.Simulation
import ScriptFuzz.Text.Lines

/-!
# Rehearsed executions

An executor whose answers are laid down beforehand: a list of answers for the first executions,
which may be gone through again and again, answers for scripts that contain a certain text, and an
answer for all others. Where no answer is laid down, the hook is simulated.
-/

namespace ScriptFuzz

set_option autoImplicit false

/-- Answers that are laid down; `none` asks for a simulation. -/
structure Rehearsal where
  answers : List (Option Execution) := []
  /-- Whether the answers start anew after the last. -/
  repeats : Bool := false
  /-- Texts of scripts with the answers for them; the first that occurs counts. -/
  rules : List (String × Option Execution) := []
  otherwise : Option Execution := none

/-- What a rehearsal has seen: the executed scripts, and the number of resets. -/
structure Rehearsal.Log where
  scripts : List String := []
  resets : Nat := 0
deriving Inhabited

namespace Rehearsal

def answer? (r : Rehearsal) (number : Nat) (script : String) : Option Execution :=
  let listed :=
    if r.repeats then r.answers[number % r.answers.length]? else r.answers[number]?
  match listed with
  | some (some e) => some e
  | _ =>
    match r.rules.find? fun (text, _) => Text.occursIn text.toList script.toList with
    | some (_, answer) => answer
    | none => r.otherwise

/-- The executor that gives the answers. -/
def executor (r : Rehearsal) : Executor Log where
  execute p _ := do
    let log ← getThe Log
    let script := Hook.script p
    set { log with scripts := log.scripts ++ [script] }
    match r.answer? log.scripts.length script with
    | some e => return e
    | none => liftExcept (Simulation.run p)
  reset := modify fun log => { log with resets := log.resets + 1 }

end Rehearsal

end ScriptFuzz
