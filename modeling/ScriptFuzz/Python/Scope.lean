import ScriptFuzz.Code.Basic
import ScriptFuzz.Ordered
import ScriptFuzz.Python.Expression

/-!
# Names and scopes

Every variable has a name that tells the role of its declaration. A function or method that assigns
to a variable declared outside of it must say so: `Code.outerAssignments` lists, for each such body,
the variables of the module and those of enclosing functions.
-/

namespace ScriptFuzz

set_option autoImplicit false

open Python

def Instruction.roles (i : Instruction) : List (Variable × Role) :=
  let outer : Role :=
    match i.op with
    | .beginPlainFunction _ => .function
    | .beginClassDefinition _ => .classObject
    | _ => .value
  let inner (n : Nat) : Role :=
    match i.op, n with
    | .beginClassMethod _ _, 0 => .receiver
    | .beginCatch, _ => .exception
    | .beginForLoop, _ => .counter
    | _, _ => .parameter
  i.outputs.map (fun v => (v, outer)) ++ i.innerOutputs.mapIdx fun n v => (v, inner n)

/-- The roles of all declared variables, the last declaration first. -/
def Code.roles (c : Code) : List (Variable × Role) := (c.flatMap Instruction.roles).reverse

/-- Whether an instruction starts the body of a function or method. -/
def Operation.opensFrame : Operation → Bool
  | .beginPlainFunction _ | .beginClassMethod _ _ => true
  | _ => false

/-- The variables declared elsewhere that a body assigns to, in ascending order. -/
structure OuterAssignments where
  globals : List Nat := []
  nonlocals : List Nat := []
deriving DecidableEq

/-- The state of the search for assignments to outer variables. A frame is the position of the
instruction that starts a function or method; `none` is the module. -/
structure Frames where
  /-- The frames that are open, innermost first. -/
  frames : List (Option Nat) := [none]
  /-- For each open block, innermost first, whether it is a frame. -/
  blocks : List Bool := []
  /-- The frame in which each variable was declared, the last declaration first. -/
  homes : List (Variable × Option Nat) := []
  found : List (Nat × OuterAssignments) := []

namespace Frames

def current (f : Frames) : Option Nat := f.frames.headD none

/-- Leaves the innermost block. -/
def leave (f : Frames) : Frames :=
  match f.blocks with
  | [] => f
  | isFrame :: blocks => { f with blocks, frames := if isFrame then f.frames.tail else f.frames }

def enter (f : Frames) (i : Instruction) : Frames :=
  { f with
    blocks := i.op.opensFrame :: f.blocks
    frames := if i.op.opensFrame then some i.index :: f.frames else f.frames }

def declare (f : Frames) (vs : List Variable) : Frames :=
  { f with homes := (vs.map fun v => (v, f.current)).reverse ++ f.homes }

/-- Notes an assignment that the frame `frame` makes. -/
def assign (f : Frames) (frame : Option Nat) (target : Variable) : Frames :=
  match frame, f.homes.lookup target with
  | some position, some home =>
    if home = some position then f
    else
      let old := (f.found.lookup position).getD {}
      let new : OuterAssignments :=
        if home.isNone then { old with globals := Ordered.insert target.number old.globals }
        else { old with nonlocals := Ordered.insert target.number old.nonlocals }
      { f with found := Ordered.put position new f.found }
  | _, _ => f

/-- Reads one instruction. An assignment counts for the frame around the instruction. -/
def step (f : Frames) (i : Instruction) : Frames :=
  let f := if i.isBlockEnd then f.leave else f
  let frame := f.current
  let f := f.declare i.outputs
  let f := if i.isBlockStart then (f.enter i).declare i.innerOutputs else f
  if i.op.assigns then f.assign frame (i.input 0) else f

end Frames

/-- For each function or method that assigns to outer variables, these variables. -/
def Code.outerAssignments (c : Code) : List (Nat × OuterAssignments) :=
  (c.foldl Frames.step {}).found

end ScriptFuzz
