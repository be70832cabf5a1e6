import ScriptFuzz.Program.Instruction

/-!
# Code

Code is a list of instructions. `Code.append` gives an instruction its position; `Code.usage` counts
how often a variable is used and assigned.
-/

namespace ScriptFuzz

set_option autoImplicit false

/-- A sequence of instructions. -/
abbrev Code := List Instruction

namespace Code

/-- The code with an instruction added at the end, at its position. -/
def append (c : Code) (i : Instruction) : Code := c ++ [i.placed c.length]

/-- The code with every instruction at its position. -/
def renumber (c : Code) : Code := c.mapIdx fun n i => i.placed n

/-- The code without the instructions that fail `keep`, renumbered. -/
def retain (c : Code) (keep : Instruction → Bool) : Code := renumber (c.filter keep)

@[simp] theorem length_renumber (c : Code) : (renumber c).length = c.length := by
  simp [renumber]

def numVariables (c : Code) : Nat := c.foldr (fun i n => i.allOutputs.length + n) 0

def positions (c : Code) : List (Nat × Instruction) := c.mapIdx fun n i => (n, i)

end Code

/-- How often a variable is used, and how often it gets a value. -/
structure Usage where
  uses : Nat := 0
  assignments : Nat := 0
deriving DecidableEq

namespace Usage

/-- The counts after one more instruction. A declaration starts the counts anew and is the first
assignment; each occurrence as an input is a use, also as the target of an assignment. -/
def step (v : Variable) (u : Usage) (i : Instruction) : Usage :=
  let u := if v ∈ i.allOutputs then { uses := 0, assignments := 1 } else u
  let u := { u with uses := u.uses + i.inputs.count v }
  if i.op.assigns && i.input 0 == v then { u with assignments := u.assignments + 1 } else u

/-- Declared once and never changed afterwards. -/
def isSingleAssignment (u : Usage) : Bool := u.assignments ≤ 1

end Usage

def Code.usage (c : Code) (v : Variable) : Usage := c.foldl (Usage.step v) {}

end ScriptFuzz
