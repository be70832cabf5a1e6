import ScriptFuzz.Builder.Construct
import ScriptFuzz.Python.Source

/-!
# The hook

Every executed script imports a hook module. The hook is an object that programs load as a builtin;
its methods write to the side channel that only the fuzzer reads.
-/

namespace ScriptFuzz.Hook

set_option autoImplicit false

/-- The module that holds the hook. -/
def moduleName : String := "refuzz_mirror"

/-- The name of the hook object. -/
def builtinName : String := "Mirror"

/-- The method that reports a value. -/
def recordMethod : String := "record"

/-- The method that lists the builtins. -/
def enumerateMethod : String := "enumerate"

/-- The first line of every executed script. -/
def opening : String := "from " ++ moduleName ++ " import *\n"

/-- The layout of executed scripts. -/
def rendering : Rendering := { opening }

def script (p : Program) : String := rendering.source p

def isLoad (i : Instruction) : Bool := i.op = .loadBuiltin builtinName

/-- Whether an instruction calls a method that is named like the one that reports a value. -/
def isRecordCall (i : Instruction) : Bool :=
  match i.op with
  | .callMethod name _ => name = recordMethod
  | _ => false

end ScriptFuzz.Hook
