import ScriptFuzz.Fuzzing
import ScriptFuzz.Hook
import ScriptFuzz.Record

/-!
# Observing values

A program is instrumented by loading the hook once and calling it after every instruction that
produces a single value, with the value and the position of the instruction. The records that come
back are attached to the program as it was before.
-/

namespace ScriptFuzz

set_option autoImplicit false

/-- Whether the instruction declares exactly one variable for what follows it. -/
def Instruction.hasOneOutput (i : Instruction) : Bool := i.shape.outputs == 1

/-- Whether it makes sense to observe what the instruction produces. -/
def Instruction.isObservable (i : Instruction) : Bool := i.isSimple && i.hasOneOutput

/-- A program with the records of one execution, at most one for each position. -/
structure Observed where
  program : Program
  /-- The records by position, positions ascending. -/
  records : List (Nat × Record)

namespace Observed

def record? (o : Observed) (position : Nat) : Option Record := o.records.lookup position

/-- The positions that have a record, ascending. -/
def positions (o : Observed) : List Nat := o.records.map (·.1)

end Observed

namespace Program

open Build in
/-- Copies instructions and reports each observable value to the hook. -/
def reportAll (hook : Variable) : Code → StateT Builder (Except Fault) Unit
  | [] => return ()
  | i :: is => do
    let _ ← adopt i
    if i.isObservable then
      match i.output? with
      | none => throw (.noSingleOutput i.op)
      | some v =>
        let value ← adopted v
        let index ← loadInt (Int64.ofNat i.index)
        let _ ← callMethod Hook.recordMethod hook [value, index]
    reportAll hook is

open Build in
/-- A copy of the program that reports the value of every observable instruction, together with
the position that the instruction has in the program. -/
def instrument (id : Uuid) (p : Program) : Except Fault Program := do
  let (_, b) ← (do
    let hook ← reuseBuiltin Hook.builtinName
    beginAdoption
    reportAll hook p.code : StateT Builder (Except Fault) Unit).run (.derivedFrom p)
  b.finalize id

/-- Whether a record describes a value of the program and tells anything about it. -/
def admits (p : Program) (r : Record) : Bool :=
  (p.code[r.index]?).any Instruction.hasOneOutput && r.isUsable

/-- The program with the records of an execution; nothing if the execution did not succeed or left
no record that can be used. Of two records for one position the later counts. -/
def reflectOn (p : Program) (e : Execution) : Option Observed :=
  if !e.outcome.isSuccess then none
  else
    match (Record.ofStream e.fuzzout).filter p.admits with
    | [] => none
    | rs => some { program := p, records := Ordered.ofPairs (rs.map fun r => (r.index, r)) }

/-- Runs the instrumented program and attaches the records to the program. -/
def observe {σ : Type} (p : Program) : Fuzzing σ (Option Observed) := do
  let instrumented ← Build.orRaise (p.instrument (← Fuzzing.freshId))
  return p.reflectOn (← Fuzzing.execute instrumented)

end Program

end ScriptFuzz
