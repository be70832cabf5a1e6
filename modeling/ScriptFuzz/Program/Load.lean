import ScriptFuzz.Failure
import ScriptFuzz.Fault
import ScriptFuzz.Program.Basic

/-!
# Loading programs

Why a text or a byte string is refused as a program. Data that are no program at all are told from
a program whose code is not well formed, and both from an operation whose arity is no count.
-/

namespace ScriptFuzz

set_option autoImplicit false

inductive LoadError where
  /-- The data do not describe a program. -/
  | malformed
  /-- The data describe a program whose code is not well formed. -/
  | invalid (id : Uuid) (reason : Failure)
  | fault (f : Fault)
deriving DecidableEq

/-- A wrong number of variables as a failure. -/
def ArityError.failure (op : Operation) (got : Nat) : Failure :=
  { kind := .validation, detail := ArityError.mismatchText op got }

/-- A defect of code as a failure, if it is no fault. -/
def CodeError.failure : CodeError → Except Fault Failure
  | fault f => .error f
  | e => .ok { kind := .validation, detail := e.text }

/-- Why a program is refused, from what is wrong with its code. -/
def LoadError.ofCode (id : Uuid) (e : CodeError) : LoadError :=
  match e.failure with
  | .ok reason => .invalid id reason
  | .error f => .fault f

/-- A refusal as a failure, if it is no fault. -/
def LoadError.failure : LoadError → Except Fault Failure
  | malformed => .ok { kind := .serialization, detail := "no program" }
  | invalid id reason =>
    .ok { kind := .validation, detail := "program " ++ id.text ++ ": " ++ reason.text }
  | fault f => .error f

/-- The instruction with the given parts; a wrong number of variables makes the data malformed. -/
def Instruction.load (op : Operation) (inouts : List Variable) (index : Nat) :
    Except LoadError Instruction :=
  (Instruction.ofParts op inouts index).mapError fun
    | .uncountable => .fault .uncountable
    | .mismatch _ _ => .malformed

/-- The program itself, if its code is well formed. -/
def Program.validated (p : Program) : Except LoadError Program := do
  p.code.check.mapError (.ofCode p.id)
  return p

end ScriptFuzz
