import ScriptFuzz.Fault
import ScriptFuzz.Program.Basic

/-!
# Building programs

A `Builder` holds a program under construction together with what decides which instruction may come
next: the visible variables, the contexts and the open blocks. `Builder.emit` adds one instruction
and refuses one that would break the rules of well-formed code; `Builder.adopt` copies an
instruction of another program and renames its variables.
-/

namespace ScriptFuzz

set_option autoImplicit false

/-- A program under construction. The stacks have their innermost element first. -/
structure Builder where
  code : Code := []
  comments : Comments := {}
  contributors : List String := []
  parent : Option Uuid := none
  nextVariable : Nat := 0
  scopes : List (List Variable) := [[]]
  contexts : List Context := [.top]
  openBlocks : List Nat := []
  /-- For each declared variable, in order, the position of the instruction that declares it. -/
  definitions : List Nat := []
  /-- Our variables for those of the program being adopted, the latest first. -/
  adoption : List (Variable × Variable) := []
deriving Inhabited

namespace Builder

def derivedFrom (p : Program) : Builder := { parent := some p.id }

def context (b : Builder) : Context := b.contexts.headD .empty

/-- The position of the next instruction. -/
def nextIndex (b : Builder) : Nat := b.code.length

def isVisible (b : Builder) (v : Variable) : Bool := b.scopes.any fun s => s.contains v

/-- The visible variables, those of the outermost scope first. -/
def visibleVariables (b : Builder) : List Variable := b.scopes.reverse.flatten

def definition? (b : Builder) (v : Variable) : Option Instruction :=
  b.definitions[v.number]?.bind fun n => b.code[n]?

def addContributor (b : Builder) (name : String) : Builder :=
  { b with contributors := Ordered.insert name b.contributors }

/-- `count` variables from a number on. -/
def variablesFrom (first count : Nat) : List Variable :=
  (List.range' first count).map Variable.mk

@[simp] theorem length_variablesFrom (first count : Nat) :
    (variablesFrom first count).length = count := by simp [variablesFrom]

/-- The largest number of variables that one instruction can declare in memory. -/
def capacity : Nat := 0x2000000000000000

/-- What an instruction is refused for. -/
def fault? (b : Builder) (op : Operation) (inputs : List Variable) : Option Fault :=
  let s := op.shape
  if Operation.countLimit ≤ s.inputs ∨ Operation.countLimit ≤ s.innerOutputs then
    some .uncountable
  else if inputs.length ≠ s.inputs then some (.arity op)
  else
    match inputs.find? fun v => !b.isVisible v with
    | some v => some (.invisible op v)
    | none => if b.context.contains s.requires then none else some (.context op b.context)

/-- Leaves the innermost block at an operation that ends one. -/
def close (b : Builder) (op : Operation) : Except Fault Builder :=
  if !op.shape.has .blockEnd then .ok b
  else
    match b.openBlocks with
    | [] => .error (.unopened op)
    | opener :: rest =>
      match b.code[opener]? with
      | none => .error (.outside b.code.length opener)
      | some i =>
        if op.closes i.op then
          .ok { b with openBlocks := rest, contexts := b.contexts.tail, scopes := b.scopes.tail }
        else .error (.cannotClose op i.op)

/-- Refuses to declare more variables than there are numbers or memory for. -/
def checkRoom (b : Builder) (op : Operation) : Except Fault Unit :=
  let s := op.shape
  if Operation.countLimit ≤ s.outputs + s.innerOutputs then .error .uncountable
  else if capacity ≤ s.outputs + s.innerOutputs then .error .oversized
  else if Variable.limit ≤ b.nextVariable + s.outputs + s.innerOutputs then .error .exhausted
  else .ok ()

/-- Adds `count` new variables to the innermost scope, declared by the next instruction. -/
def allocate (b : Builder) (count : Nat) : Builder :=
  { b with
    nextVariable := b.nextVariable + count
    definitions := b.definitions ++ List.replicate count b.nextIndex
    scopes := (b.scopes.headD [] ++ variablesFrom b.nextVariable count) :: b.scopes.tail }

/-- Enters the body of the block that the next instruction starts. -/
def enter (b : Builder) (op : Operation) : Builder :=
  if op.shape.has .blockStart then
    { b with
      contexts := op.shape.mode.body b.contexts op.shape.opens :: b.contexts
      openBlocks := b.nextIndex :: b.openBlocks
      scopes := [] :: b.scopes }
  else b

/-- Adds an instruction; gives the variables that it declares, outputs before inner outputs. -/
def emit (b : Builder) (op : Operation) (inputs : List Variable) :
    Except Fault (List Variable × Builder) := do
  if let some f := b.fault? op inputs then throw f
  let closed ← b.close op
  closed.checkRoom op
  let outputs := variablesFrom closed.nextVariable op.shape.outputs
  let entered := (closed.allocate op.shape.outputs).enter op
  let inner := variablesFrom entered.nextVariable op.shape.innerOutputs
  let declared := entered.allocate op.shape.innerOutputs
  if h : (inputs ++ (outputs ++ inner)).length = op.shape.size then
    let i : Instruction := { op, inouts := inputs ++ (outputs ++ inner), arity := h }
    return (outputs ++ inner, { declared with code := declared.code.append i })
  else throw (.arity op)

/-- Starts to adopt from another program. -/
def beginAdoption (b : Builder) : Builder := { b with adoption := [] }

def adopted (b : Builder) (v : Variable) : Except Fault Variable :=
  match b.adoption.lookup v with
  | some w => .ok w
  | none => .error (.notAdopted v)

/-- Copies an instruction of another program with its operation replaced by one with the same number
of variables. -/
def adoptAs (b : Builder) (i : Instruction) (op : Operation) :
    Except Fault (List Variable × Builder) := do
  if !op.isCountable then throw .uncountable
  if op.shape.size ≠ i.shape.size then throw (.cannotReplace op i.op)
  let inputs ← i.inputs.mapM b.adopted
  let (produced, b) ← b.emit op inputs
  return (produced, { b with adoption := (i.allOutputs.zip produced).reverse ++ b.adoption })

/-- Copies an instruction of another program. -/
def adopt (b : Builder) (i : Instruction) : Except Fault (List Variable × Builder) :=
  b.adoptAs i i.op

/-- Copies instructions one after the other. -/
def adoptAll (b : Builder) : Code → Except Fault Builder
  | [] => .ok b
  | i :: is => do
    let (_, b) ← b.adopt i
    b.adoptAll is

/-- Copies every instruction of a program. -/
def appendProgram (b : Builder) (p : Program) : Except Fault Builder :=
  b.beginAdoption.adoptAll p.code

/-- The finished program, under a new identifier. -/
def finalize (b : Builder) (id : Uuid) : Except Fault Program := do
  if !b.openBlocks.isEmpty then throw (.openBlocks b.openBlocks.length)
  if !b.code.isWellFormed then throw .illFormed
  return {
    id, parent := b.parent, code := b.code, comments := b.comments
    contributors := b.contributors }

end Builder

end ScriptFuzz
