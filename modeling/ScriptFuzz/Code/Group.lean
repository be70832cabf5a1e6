import ScriptFuzz.Code.Basic

/-!
# Block groups

A block group is a region from an instruction that starts a block to the one that finally ends it,
together with the instructions in between that end one block of the group and start the next.
-/

namespace ScriptFuzz

set_option autoImplicit false

/-- A matched region of the code. -/
structure BlockGroup where
  head : Nat
  tail : Nat
  /-- The group's own block instructions, head and tail included, in ascending order. -/
  own : List Nat
deriving DecidableEq

namespace BlockGroup

def contains (g : BlockGroup) (n : Nat) : Bool := g.head ≤ n && n ≤ g.tail

def isOwn (g : BlockGroup) (n : Nat) : Bool := g.own.contains n

/-- The positions from head to tail, both included. -/
def range (g : BlockGroup) : List Nat := List.range' g.head (g.tail + 1 - g.head)

/-- The positions inside of the group that are not its own block instructions. -/
def body (g : BlockGroup) : List Nat := g.range.filter fun n => !g.isOwn n

end BlockGroup

namespace Code

/-- Groups that are open, innermost first, and groups that are complete, last first. -/
structure Matching where
  opened : List BlockGroup := []
  closed : List BlockGroup := []

/-- Reads one instruction; an end of a block with no group open is skipped. -/
def Matching.step (m : Matching) (i : Instruction) : Matching :=
  match i.isBlockEnd, i.isBlockStart, m.opened with
  | true, true, g :: gs => { m with opened := { g with own := g.own ++ [i.index] } :: gs }
  | true, false, g :: gs =>
    { opened := gs
      closed := { g with tail := i.index, own := g.own ++ [i.index] } :: m.closed }
  | false, true, gs =>
    { m with opened := { head := i.index, tail := i.index, own := [i.index] } :: gs }
  | _, _, _ => m

/-- Every complete group, in the order in which the groups end. -/
def closedGroups (c : Code) : List BlockGroup := (c.foldl Matching.step {}).closed.reverse

/-- Every group whose head satisfies `p`, ordered by head. -/
def blockGroups (code : Code) (p : Instruction → Bool) : List BlockGroup :=
  (code.closedGroups.filter fun g => code[g.head]?.any p).mergeSort fun a b => a.head ≤ b.head

/-- The group that the block start at `head` opens. -/
def blockGroupAt? (c : Code) (head : Nat) : Option BlockGroup :=
  (c.blockGroups fun i => i.index == head).head?

/-- The first group whose head is no position of the code, as happens when an instruction claims a
position that it does not have. -/
def misplacedGroup? (c : Code) : Option BlockGroup :=
  c.closedGroups.find? fun g => c.length ≤ g.head

end Code

end ScriptFuzz
