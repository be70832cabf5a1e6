import ScriptFuzz.Environment
import ScriptFuzz.Executor
import ScriptFuzz.Failure
import ScriptFuzz.Hook
import ScriptFuzz.Json.Reader
import ScriptFuzz.Text.Blank

/-!
# Getting to know the target

Before a run the target is asked for its builtins: a program calls the hook, which writes a JSON
array of paths to the side channel. Without an answer there is no run.
-/

namespace ScriptFuzz.Environment

set_option autoImplicit false

open Build in
/-- The program that asks for the builtins. -/
def inquiry (id : Uuid) : Except Fault Program := do
  let (_, b) ← (do
    let hook ← loadBuiltin Hook.builtinName
    callMethod Hook.enumerateMethod hook [] : StateT Builder (Except Fault) Variable).run {}
  b.finalize id

def pathsOf? (fuzzout : String) : Option (List String) :=
  (Json.read? (String.ofList (Text.trim fuzzout.toList))).bind (Json.list? Json.text?)

def ofExecution (e : Execution) : Except Failure Environment :=
  match pathsOf? e.fuzzout with
  | none => .error { kind := .bootstrap, detail := "undecodable builtin list" }
  | some paths =>
    if e.outcome.isSuccess then .ok (ofBuiltins paths)
    else .error { kind := .bootstrap, detail := "enumeration " ++ e.outcome.text }

/-- Asks the target for its builtins, for at most the given number of milliseconds. -/
def bootstrap {σ : Type} (executor : Executor σ) (id : Uuid) (milliseconds : Nat) :
    ExceptT Fault (StateM σ) (Except Failure Environment) := do
  let p ← liftExcept (inquiry id)
  return ofExecution (← executor.execute p milliseconds)

end ScriptFuzz.Environment
