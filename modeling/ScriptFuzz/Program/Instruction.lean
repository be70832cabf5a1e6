import ScriptFuzz.Program.Operation

/-!
# Instructions

An instruction is an operation with its variables: inputs, outputs and inner outputs in one list,
whose length is the one that the operation's shape asks for. The length is part of the type, so an
instruction of the wrong arity cannot be written down; `Instruction.ofParts` tells why parts do not
form an instruction.
-/

namespace ScriptFuzz

set_option autoImplicit false

/-- A slot for a value. Variables are numbered from zero in the order of their declarations. -/
structure Variable where
  number : Nat
deriving DecidableEq, Inhabited, Hashable

namespace Variable

/-- The bound below which variable numbers lie. -/
def limit : Nat := 0x100000000

def text (v : Variable) : String := "v" ++ toString v.number

/-- Variables with commas between them. -/
def listText (vs : List Variable) : String := ", ".intercalate (vs.map text)

end Variable

/-- An operation and its variables. -/
structure Instruction where
  op : Operation
  /-- Inputs, outputs and inner outputs, in this order. -/
  inouts : List Variable
  /-- The position that the instruction claims to have. -/
  index : Nat := 0
  arity : inouts.length = op.shape.size
deriving DecidableEq

/-- Why an operation and variables do not form an instruction. -/
inductive ArityError where
  /-- The number of variables that the operation asks for is no count. -/
  | uncountable
  /-- The number of variables is not the one that the operation asks for. -/
  | mismatch (op : Operation) (got : Nat)

def ArityError.mismatchText (op : Operation) (got : Nat) : String :=
  op.name ++ " expects " ++ toString op.shape.size ++ " variables, got " ++ toString got

namespace Instruction

instance : Inhabited Instruction := ⟨{ op := .nop, inouts := [], arity := rfl }⟩

/-- The instruction with the given parts, if they fit. -/
def ofParts (op : Operation) (inouts : List Variable) (index : Nat) :
    Except ArityError Instruction :=
  if ¬op.isCountable then .error .uncountable
  else if h : inouts.length = op.shape.size then .ok { op, inouts, index, arity := h }
  else .error (.mismatch op inouts.length)

def shape (i : Instruction) : Shape := i.op.shape

/-- The instruction at another position. -/
def placed (i : Instruction) (index : Nat) : Instruction := { i with index }

def inputs (i : Instruction) : List Variable := i.inouts.take i.shape.inputs

/-- Outputs followed by inner outputs. -/
def allOutputs (i : Instruction) : List Variable := i.inouts.drop i.shape.inputs

def outputs (i : Instruction) : List Variable := i.allOutputs.take i.shape.outputs

def innerOutputs (i : Instruction) : List Variable := i.allOutputs.drop i.shape.outputs

/-- The inputs that belong to the group of any length. -/
def variadicInputs (i : Instruction) : List Variable :=
  match i.shape.variadicFrom with
  | some first => i.inputs.drop first
  | none => []

theorem length_inputs (i : Instruction) : i.inputs.length = i.shape.inputs := by
  simp only [inputs, List.length_take, i.arity, Shape.size, shape]
  omega

theorem length_outputs (i : Instruction) : i.outputs.length = i.shape.outputs := by
  simp only [outputs, allOutputs, List.length_take, List.length_drop, i.arity, Shape.size, shape]
  omega

theorem length_innerOutputs (i : Instruction) :
    i.innerOutputs.length = i.shape.innerOutputs := by
  simp only [innerOutputs, allOutputs, List.length_drop, i.arity, Shape.size, shape]
  omega

/-- The input at a position; a position beyond the arity gives the first variable. -/
def input (i : Instruction) (n : Nat) : Variable := i.inputs[n]?.getD default

/-- The output of an instruction that has exactly one. -/
def output? (i : Instruction) : Option Variable :=
  match i.outputs with
  | [v] => some v
  | _ => none

def has (i : Instruction) (a : Attribute) : Bool := i.shape.has a

def isBlockStart (i : Instruction) : Bool := i.has .blockStart

def isBlockEnd (i : Instruction) : Bool := i.has .blockEnd

def isBlock (i : Instruction) : Bool := i.isBlockStart || i.isBlockEnd

def isJump (i : Instruction) : Bool := i.has .jump

def isPure (i : Instruction) : Bool := i.has .pure

def isInternal (i : Instruction) : Bool := i.has .internal

def isMutable (i : Instruction) : Bool := i.has .mutable

/-- Neither control flow nor internal to the fuzzer. -/
def isSimple (i : Instruction) : Bool := !i.isBlock && !i.isJump && !i.isInternal

/-- The instruction for people to read: what it declares, its operation, what it uses, and what it
declares for its body. -/
def text (i : Instruction) : String :=
  let declared := if i.outputs.isEmpty then "" else Variable.listText i.outputs ++ " <- "
  let used := if i.inputs.isEmpty then "" else " " ++ Variable.listText i.inputs
  let inner := if i.innerOutputs.isEmpty then "" else " -> " ++ Variable.listText i.innerOutputs
  declared ++ i.op.text ++ used ++ inner

end Instruction

end ScriptFuzz
