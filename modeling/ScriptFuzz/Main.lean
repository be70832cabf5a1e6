import ScriptFuzz.CommandLine.Exchange
import ScriptFuzz.Shell.Evaluation

/-!
# The command

The program as a command. It is told about files on standard input and answers on standard output;
an error goes to standard error, and the status is that of the invocation.
-/

set_option autoImplicit false

namespace ScriptFuzz.CommandLine

/-- The variables that the program looks at, as far as they are set. -/
def environment : IO (List (String × String)) :=
  ([Invocation.interpreterVariable, Invocation.filterVariable] ++ Tracing.variableNames).filterMapM
    fun name => do return (← IO.getEnv name).map (name, ·)

end ScriptFuzz.CommandLine

open ScriptFuzz.CommandLine in
/-- Runs the program on its arguments. -/
def main (arguments : List String) : IO UInt32 := do
  match Exchange.read? (← (← IO.getStdin).getLine) with
  | none =>
    IO.eprintln "Error: standard input is no line of JSON about files"
    return UInt32.ofNat Ending.failure
  | some x =>
    let (e, answer) := x.run ScriptFuzz.Launch.run? arguments (← environment)
    if let some text := e.error then IO.eprintln text
    IO.println answer.compact
    return UInt32.ofNat e.status
