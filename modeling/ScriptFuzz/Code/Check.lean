import ScriptFuzz.Code.Basic
import ScriptFuzz.Fault

/-!
# Well-formed code

`Code.check` reads code from front to back and accepts it if every index is its position, variables
are declared in the order of their numbers, every input is visible where it is used, every
instruction stands in the context that it requires, and blocks nest properly. The state of the
reading is one stack frame per open block; a rejected instruction is reported with its reason. To
run out of numbers for variables is no such reason but a fault.
-/

namespace ScriptFuzz

set_option autoImplicit false

/-- What is wrong with an instruction at its position. -/
inductive Flaw where
  | index (got : Nat)
  | invisible (input : Variable)
  | context (required current : Context)
  /-- An end of a block with no block open. -/
  | unopened
  | cannotClose (opener : Operation)
  | afterDefault
  | outsideSwitch
  /-- Variables for a body that is not there. -/
  | strayInner
deriving DecidableEq

/-- Why code is not well formed. -/
inductive CodeError where
  | flawed (position : Nat) (instruction : Instruction) (flaw : Flaw)
  | undeclarable (position : Nat) (declared : Variable)
  | unclosed (opener : Instruction)
  | fault (f : Fault)
deriving DecidableEq

def Flaw.text : Flaw → String
  | index got => "has index " ++ toString got
  | invisible v => "input " ++ v.text ++ " is not visible"
  | context required current =>
    "requires context " ++ required.text ++ " but only " ++ current.text ++ " is active"
  | unopened => "closes a block that was never opened"
  | cannotClose opener => "cannot close " ++ opener.name
  | afterDefault => "case follows the default case"
  | outsideSwitch => "case outside of a switch"
  | strayInner => "inner outputs outside of a block start"

def CodeError.text : CodeError → String
  | flawed position i flaw =>
    "instruction " ++ toString position ++ " (" ++ i.text ++ "): " ++ flaw.text
  | undeclarable position v =>
    "instruction " ++ toString position ++ ": variable " ++ v.text ++ " declared out of order"
  | unclosed opener =>
    "block opened by instruction " ++ toString opener.index ++ " (" ++ opener.op.name ++
      ") is never closed"
  | fault f => f.text

namespace Code

/-- What is known after a part of the code. The stacks have their innermost element first; there is
one scope and one context more than there are open blocks. -/
structure Progress where
  /-- The number of the next variable to be declared. -/
  next : Nat := 0
  scopes : List (List Variable) := [[]]
  contexts : List Context := [.top]
  blocks : List Instruction := []
  /-- For each open switch, whether its default case was seen. -/
  defaults : List Bool := []

namespace Progress

def isVisible (p : Progress) (v : Variable) : Bool := p.scopes.any fun s => s.contains v

def context (p : Progress) : Context := p.contexts.headD .empty

/-- What an instruction is rejected for before it has any effect. -/
def flaw? (p : Progress) (position : Nat) (i : Instruction) : Option Flaw :=
  if i.index ≠ position then some (.index i.index)
  else
    match i.inputs.find? fun v => !p.isVisible v with
    | some v => some (.invisible v)
    | none =>
      if p.context.contains i.shape.requires then none
      else some (.context i.shape.requires p.context)

/-- Leaves the innermost block at an instruction that ends one. -/
def close (p : Progress) (i : Instruction) : Except Flaw Progress :=
  if !i.isBlockEnd then .ok p
  else
    match p.blocks with
    | [] => .error .unopened
    | opener :: blocks =>
      if i.op.closes opener.op then
        .ok
          { p with
            scopes := p.scopes.tail
            contexts := p.contexts.tail
            blocks
            defaults := if i.op = .endSwitch then p.defaults.tail else p.defaults }
      else .error (.cannotClose opener.op)

/-- Keeps track of the cases of a switch: nothing follows the default case. -/
def countCase (p : Progress) (i : Instruction) : Except Flaw Progress :=
  match i.op, p.defaults with
  | .beginSwitch, ds => .ok { p with defaults := false :: ds }
  | .beginSwitchCase, [] | .beginSwitchDefaultCase, [] => .error .outsideSwitch
  | .beginSwitchCase, true :: _ | .beginSwitchDefaultCase, true :: _ => .error .afterDefault
  | .beginSwitchCase, false :: _ => .ok p
  | .beginSwitchDefaultCase, false :: ds => .ok { p with defaults := true :: ds }
  | _, _ => .ok p

/-- Adds variables to the innermost scope; the first that is not the next one is an error. Behind
the last number there is none for the variable after it, which is a fault. -/
def declare (p : Progress) (position : Nat) : List Variable → Except CodeError Progress
  | [] => .ok p
  | v :: vs =>
    if v.number ≠ p.next then .error (.undeclarable position v)
    else if Variable.limit ≤ p.next + 1 then .error (.fault .exhausted)
    else
      declare
        { p with
          next := p.next + 1
          scopes := ((p.scopes.headD []) ++ [v]) :: p.scopes.tail }
        position vs

/-- Enters the body of a block. -/
def enter (p : Progress) (i : Instruction) : Progress :=
  { p with
    scopes := [] :: p.scopes
    contexts := i.shape.mode.body p.contexts i.shape.opens :: p.contexts
    blocks := i :: p.blocks }

def step (p : Progress) (position : Nat) (i : Instruction) : Except CodeError Progress := do
  let flawed (f : Flaw) : CodeError := .flawed position i f
  if let some f := p.flaw? position i then throw (flawed f)
  let p ← (p.close i).mapError flawed
  let p ← (p.countCase i).mapError flawed
  let p ← p.declare position i.outputs
  if i.isBlockStart then (p.enter i).declare position i.innerOutputs
  else if i.innerOutputs.isEmpty then return p
  else throw (flawed .strayInner)

/-- Reads the instructions from a position on. -/
def run (p : Progress) (position : Nat) : Code → Except CodeError Progress
  | [] => .ok p
  | i :: is => do (← p.step position i).run (position + 1) is

end Progress

/-- Accepts well-formed code. -/
def check (c : Code) : Except CodeError Unit := do
  let p ← ({} : Progress).run 0 c
  match p.blocks with
  | [] => return ()
  | opener :: _ => throw (.unclosed opener)

def isWellFormed (c : Code) : Bool :=
  match c.check with
  | .ok _ => true
  | .error _ => false

end Code

end ScriptFuzz
