import ScriptFuzz.Code.Check
import ScriptFuzz.Ordered
import ScriptFuzz.Uuid

/-!
# Programs

A program is code together with what does not influence its meaning: identifiers, comments and the
names of the components that contributed to it.
-/

namespace ScriptFuzz

set_option autoImplicit false

/-- Annotations of a program. -/
structure Comments where
  header : Option String := none
  footer : Option String := none
  /-- Texts by instruction position, positions ascending. -/
  instructions : List (Nat × String) := []
deriving DecidableEq, Inhabited

namespace Comments

/-- The text with a further line. -/
def addLine (slot : Option String) (line : String) : String :=
  match slot with
  | some existing => existing ++ "\n" ++ line
  | none => line

def addHeader (c : Comments) (line : String) : Comments :=
  { c with header := some (addLine c.header line) }

def addFooter (c : Comments) (line : String) : Comments :=
  { c with footer := some (addLine c.footer line) }

def get? (c : Comments) (position : Nat) : Option String := c.instructions.lookup position

def addAt (c : Comments) (position : Nat) (line : String) : Comments :=
  { c with
    instructions := Ordered.put position (addLine (c.get? position) line) c.instructions }

def isEmpty (c : Comments) : Bool :=
  c.header.isNone && c.footer.isNone && c.instructions.isEmpty

end Comments

/-- A program. -/
structure Program where
  id : Uuid
  parent : Option Uuid := none
  code : Code
  comments : Comments := {}
  /-- The names of the components that contributed, ascending. -/
  contributors : List String := []
deriving DecidableEq, Inhabited

namespace Program

def size (p : Program) : Nat := p.code.length

def isEmpty (p : Program) : Bool := p.code.isEmpty

/-- A program without annotations, if the code is well formed. -/
def ofCode (id : Uuid) (code : Code) : Except CodeError Program := do
  code.check
  return { id, code }

def addContributor (p : Program) (name : String) : Program :=
  { p with contributors := Ordered.insert name p.contributors }

/-- The comments of the kept instructions, at the positions that these have among themselves. -/
def keptComments (c : Comments) (keep : Instruction → Bool) : Nat → Code → List (Nat × String)
  | _, [] => []
  | new, i :: is =>
    if keep i then
      let rest := keptComments c keep (new + 1) is
      match c.get? i.index with
      | some text => (new, text) :: rest
      | none => rest
    else keptComments c keep new is

/-- The program without the instructions that serve the fuzzer itself. The comments of the other
instructions move with them. -/
def stripInternal (p : Program) : Program :=
  let keep (i : Instruction) : Bool := !i.isInternal
  { p with
    code := p.code.retain keep
    comments := { p.comments with instructions := keptComments p.comments keep 0 p.code } }

end Program

end ScriptFuzz
