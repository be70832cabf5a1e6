import ScriptFuzz.Json.Fields
import ScriptFuzz.Json.Writer

/-!
# Executions

What is observed while the target runs a program: how the run ended, what it wrote, and how long it
took. The side channel is written only by the hook that the target loads.
-/

namespace ScriptFuzz

set_option autoImplicit false

/-- How a run ended. -/
inductive Outcome where
  | succeeded
  /-- Ended by itself with a code other than zero. -/
  | failed (code : Int)
  | crashed (signal : Int)
  | timedOut
deriving DecidableEq, Repr

namespace Outcome

def isSuccess : Outcome → Bool
  | succeeded => true
  | _ => false

def isCrash : Outcome → Bool
  | crashed _ => true
  | _ => false

def text : Outcome → String
  | succeeded => "succeeded"
  | failed code => "failed(" ++ toString code ++ ")"
  | crashed signal => "crashed(" ++ toString signal ++ ")"
  | timedOut => "timed out"

/-- The bounds of exit codes and signals. -/
def codeBounds : Int × Int := (-0x80000000, 0x7fffffff)

def toJson : Outcome → Json
  | succeeded => .ofText "Succeeded"
  | failed code => .ofFields [("Failed", .ofInt code)]
  | crashed signal => .ofFields [("Crashed", .ofInt signal)]
  | timedOut => .ofText "TimedOut"

def ofJson? (j : Json) : Option Outcome :=
  match j.variant? with
  | some ("Succeeded", none) | some ("Succeeded", some .null) => some succeeded
  | some ("TimedOut", none) | some ("TimedOut", some .null) => some timedOut
  | some ("Failed", some c) => (c.int? codeBounds.1 codeBounds.2).map failed
  | some ("Crashed", some c) => (c.int? codeBounds.1 codeBounds.2).map crashed
  | _ => none

end Outcome

/-- One run of a program. -/
structure Execution where
  outcome : Outcome := .succeeded
  stdout : String := ""
  stderr : String := ""
  /-- What the hook wrote to the side channel. -/
  fuzzout : String := ""
  nanoseconds : Nat := 0
deriving DecidableEq

namespace Execution

/-- The length of the run in whole milliseconds. -/
def milliseconds (e : Execution) : Nat := e.nanoseconds / 1000000

def toJson (e : Execution) : Json :=
  .ofFields
    [("outcome", e.outcome.toJson), ("stdout", .ofText e.stdout), ("stderr", .ofText e.stderr),
      ("fuzzout", .ofText e.fuzzout),
      ("exec_time", .ofFields
        [("secs", .ofNat (e.nanoseconds / 1000000000)),
          ("nanos", .ofNat (e.nanoseconds % 1000000000))])]

end Execution

end ScriptFuzz
