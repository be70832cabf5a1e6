import ScriptFuzz.Code.Group
import ScriptFuzz.Observation

/-!
# Pruning

Guarded regions are cut down to the values that were observed in them. `Code.doomed` gives the
positions that go: first what a guarded region holds besides observed values, then what depends on
values that go, and last the regions in which nothing is left. Without an observation every guarded
region goes as a whole.
-/

namespace ScriptFuzz

set_option autoImplicit false

namespace Code

/-- Whether the value of an instruction was worth guarding: it was observed, and the instruction
does not serve the observation itself. -/
def isNoteworthy (o : Observed) (i : Instruction) : Bool :=
  (o.record? i.index).isSome && i.isObservable && !Hook.isRecordCall i && !Hook.isLoad i

/-- Whether a position lies in a block inside of the bodies of a group. -/
def isNested (groups : List BlockGroup) (g : BlockGroup) (n : Nat) : Bool :=
  groups.any fun h => g.contains h.head && !g.isOwn h.head && h.contains n

/-- The positions of a guarded region that hold nothing worth guarding. -/
def unnoticed (code : Code) (o : Observed) (g : BlockGroup) : List Nat :=
  let groups := code.blockGroups fun _ => true
  g.body.filter fun n => isNested groups g n || !code[n]?.any (isNoteworthy o)

/-- The positions that go with an instruction: the whole group if it starts a block. -/
def extent (groups : List BlockGroup) (i : Instruction) : List Nat :=
  match groups.find? fun g => i.isBlockStart && g.head == i.index with
  | some g => g.range
  | none => [i.index]

/-- Adds the positions that depend on values declared at positions that go; `lost` are the variables
declared there so far. -/
def dependents (groups : List BlockGroup) (lost : List Variable) (gone : List Nat) :
    Code → List Nat
  | [] => gone
  | i :: is =>
    let gone :=
      if i.index ∉ gone ∧ i.inputs.any (fun v => lost.contains v) then extent groups i ++ gone
      else gone
    let lost := if i.index ∈ gone then i.allOutputs ++ lost else lost
    dependents groups lost gone is

/-- Adds a region in which nothing is left. -/
def collapse (gone : List Nat) (g : BlockGroup) : List Nat :=
  if g.body.all fun n => gone.contains n then g.range ++ gone else gone

def doomed (c : Code) (o : Option Observed) : List Nat :=
  let guarded := c.blockGroups fun i => i.op.isTryStart
  let gone :=
    match o with
    | none => guarded.flatMap BlockGroup.range
    | some o => guarded.flatMap (c.unnoticed o)
  guarded.reverse.foldl collapse (dependents (c.blockGroups fun _ => true) [] gone c)

end Code

namespace Program

/-- A new program with the instructions at the other positions. Comments on instructions are given
up. -/
def without (id : Uuid) (gone : List Nat) (p : Program) : Except Fault Program := do
  let start : Builder := { contributors := p.contributors }
  let b ← start.beginAdoption.adoptAll (p.code.filter fun i => i.index ∉ gone)
  let pruned ← b.finalize id
  return {
    pruned with
    parent := p.parent
    comments :=
      { pruned.comments with header := p.comments.header, footer := p.comments.footer } }

/-- The program cut down to what was observed; the program itself if nothing goes. -/
def prune (id : Uuid) (p : Program) (o : Option Observed) : Except Fault Program :=
  match p.code.doomed o with
  | [] => .ok p
  | gone => p.without id gone

def pruneObserved {σ : Type} (p : Program) : Fuzzing σ Program := do
  let o ← p.observe
  Build.orRaise (p.prune (← Fuzzing.freshId) o)

end Program

end ScriptFuzz
