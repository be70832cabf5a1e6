import ScriptFuzz.Execution
import ScriptFuzz.Hook
import ScriptFuzz.Json.Writer

/-!
# A simulated hook

`Simulation.run` answers the calls of the hook in a program the way the target would for a plausible
choice of values: what a value is like follows from the operation that declares it. Calls of other
functions do nothing, and the run always succeeds.
-/

namespace ScriptFuzz.Simulation

set_option autoImplicit false

/-- What the hook reports about a value, without the position. -/
structure Portrait where
  kind : String
  typeName : String
  arity : Option Nat := none
  fields : List String := []
  methods : List (String × String) := []

/-- What the value that an operation declares is like, if the hook can tell. -/
def portrait? : Operation → Option Portrait
  | .loadInteger _ | .loadBigInt _ | .loadBoolean _ =>
    some
      { kind := "primitive", typeName := "int", fields := ["real"]
        methods := [("bit_length", "0"), ("to_bytes", "null")] }
  | .loadFloat _ =>
    some
      { kind := "primitive", typeName := "float", fields := ["imag"]
        methods := [("is_integer", "0")] }
  | .loadString _ =>
    some
      { kind := "primitive", typeName := "str", methods := [("upper", "0"), ("split", "null")] }
  | .loadBuiltin name =>
    some
      { kind := "function", typeName := "builtin_function_or_method." ++ name, arity := some 1 }
  | .beginPlainFunction n =>
    some { kind := "function", typeName := "function.f", arity := some n }
  | .beginClassDefinition _ =>
    some { kind := "class", typeName := "type.C", arity := some 0, methods := [("mro", "0")] }
  | .createArray _ =>
    some
      { kind := "object", typeName := "list", methods := [("append", "1"), ("pop", "null")] }
  | .callMethod name _ =>
    if name = Hook.recordMethod then none
    else some { kind := "object", typeName := "object", fields := ["x"], methods := [("m", "0")] }
  | .callFunction _ | .construct _ =>
    some { kind := "object", typeName := "object", fields := ["x"], methods := [("m", "0")] }
  | .getProperty _ =>
    some
      { kind := "primitive", typeName := "int", fields := ["real"]
        methods := [("bit_length", "0")] }
  | _ => none

/-- The report of a value at a position. Its keys ascend. -/
def Portrait.toJson (p : Portrait) (index : Int) : Json :=
  .ofFields
    [("arity", .ofNat? p.arity), ("fields", .array (p.fields.map .ofText)),
      ("index", .ofInt index), ("kind", .ofText p.kind),
      ("methods", .array (p.methods.map fun (n, a) => .array [.ofText n, .ofText a])),
      ("type", .ofText p.typeName)]

/-- The operations that declared the variables so far, the latest first. -/
abbrev Origins := List (Variable × Operation)

def input (i : Instruction) (n : Nat) : Except Fault Variable :=
  match i.inputs[n]? with
  | some v => .ok v
  | none => .error (.outside i.inputs.length n)

/-- The line that the hook writes at an instruction, if the instruction calls it. -/
def line? (origins : Origins) (i : Instruction) : Except Fault (Option String) := do
  if !Hook.isRecordCall i then return none
  if origins.lookup (← input i 0) ≠ some (.loadBuiltin Hook.builtinName) then return none
  match origins.lookup (← input i 2) with
  | some (.loadInteger index) =>
    let value ← input i 1
    return do
      let p ← portrait? (← origins.lookup value)
      return (p.toJson index.toInt).compact
  | _ => return none

/-- The lines that the hook writes from an instruction on. -/
def lines (origins : Origins) : Code → Except Fault (List String)
  | [] => return []
  | i :: is => do
    let origins := (i.allOutputs.map fun v => (v, i.op)).reverse ++ origins
    let line ← line? origins i
    return line.toList ++ (← lines origins is)

def run (p : Program) : Except Fault Execution := do
  let ls ← lines [] p.code
  return { outcome := .succeeded, fuzzout := String.join (ls.map (· ++ "\n")) }

end ScriptFuzz.Simulation
