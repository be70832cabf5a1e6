/-!
# Contexts

A context is the set of structural capabilities at a program position: whether statements may
stand there, and whether the position is inside a function, a loop or one of the blocks that hold
only certain instructions. An instruction requires a context; a block opens one for its body.
-/

namespace ScriptFuzz

set_option autoImplicit false

/-- A structural capability of a program position. -/
inductive Capability where
  /-- Ordinary statements are allowed. -/
  | script
  /-- Inside the body of a function or method. -/
  | subroutine
  /-- Inside the body of a method. -/
  | method
  /-- Inside the body of a loop. -/
  | loop
  /-- Directly inside the body of a class. -/
  | classDefinition
  /-- Directly inside a switch, between its cases. -/
  | switchBlock
  /-- Inside the body of a switch case. -/
  | switchCase
deriving DecidableEq, Repr

namespace Capability

/-- Every capability, in the order in which contexts are written. -/
def all : List Capability :=
  [script, subroutine, method, loop, classDefinition, switchBlock, switchCase]

theorem mem_all (c : Capability) : c ∈ all := by cases c <;> decide

def name : Capability → String
  | script => "script"
  | subroutine => "subroutine"
  | method => "method"
  | loop => "loop"
  | classDefinition => "class-definition"
  | switchBlock => "switch-block"
  | switchCase => "switch-case"

/-- The weight of the capability in the number that stands for a set. -/
def weight : Capability → Nat
  | script => 1
  | subroutine => 2
  | method => 4
  | loop => 8
  | classDefinition => 16
  | switchBlock => 32
  | switchCase => 64

end Capability

/-- A set of capabilities. -/
structure Context where
  script : Bool := false
  subroutine : Bool := false
  method : Bool := false
  loop : Bool := false
  classDefinition : Bool := false
  switchBlock : Bool := false
  switchCase : Bool := false
deriving DecidableEq, Repr, Inhabited

namespace Context

def has (c : Context) : Capability → Bool
  | .script => c.script
  | .subroutine => c.subroutine
  | .method => c.method
  | .loop => c.loop
  | .classDefinition => c.classDefinition
  | .switchBlock => c.switchBlock
  | .switchCase => c.switchCase

/-- The set with the capabilities that satisfy `p`. -/
def ofPredicate (p : Capability → Bool) : Context :=
  { script := p .script, subroutine := p .subroutine, method := p .method, loop := p .loop
    classDefinition := p .classDefinition, switchBlock := p .switchBlock
    switchCase := p .switchCase }

@[simp] theorem has_ofPredicate (p : Capability → Bool) (x : Capability) :
    (ofPredicate p).has x = p x := by cases x <;> rfl

def empty : Context := {}

/-- The set with exactly the listed capabilities. -/
def ofList (xs : List Capability) : Context := ofPredicate fun x => x ∈ xs

/-- The context of a position outside of all blocks. -/
def top : Context := ofList [.script]

def union (a b : Context) : Context := ofPredicate fun x => a.has x || b.has x

/-- Whether every capability of `b` is in `a`. -/
def contains (a b : Context) : Bool := Capability.all.all fun x => !b.has x || a.has x

def isEmpty (c : Context) : Bool := Capability.all.all fun x => !c.has x

theorem contains_iff {a b : Context} :
    a.contains b = true ↔ ∀ x, b.has x = true → a.has x = true := by
  simp only [contains, List.all_eq_true, Bool.or_eq_true, Bool.not_eq_true']
  constructor
  · intro h x hx
    exact (h x x.mem_all).resolve_left (by simp [hx])
  · intro h x _
    by_cases hx : b.has x = true
    · exact .inr (h x hx)
    · exact .inl (by simpa using hx)

/-- The names of the capabilities with bars between them, or `empty`. -/
def text (c : Context) : String :=
  match (Capability.all.filter c.has).map Capability.name with
  | [] => "empty"
  | names => "|".intercalate names

/-- The number that stands for the set: the sum of the weights. -/
def code (c : Context) : Nat :=
  (Capability.all.filter c.has).foldr (fun x n => x.weight + n) 0

end Context

/-- How the body of a block derives its context. -/
inductive ContextMode where
  /-- The body sees only what the block opens. -/
  | isolate
  /-- The body keeps the enclosing context and adds what the block opens. -/
  | propagate
  /-- The body has the context from outside of the enclosing block and what the block opens; this
  is how a switch case returns to the statements around its switch. -/
  | resume
deriving DecidableEq, Repr

def ContextMode.name : ContextMode → String
  | isolate => "Isolate"
  | propagate => "Propagate"
  | resume => "Resume"

/-- The context of a body, from the contexts around the block (innermost first) and what the block
opens. -/
def ContextMode.body (mode : ContextMode) (contexts : List Context) (opened : Context) : Context :=
  match mode with
  | .isolate => opened
  | .propagate => (contexts.headD .empty).union opened
  | .resume => (contexts[1]?.getD Context.top).union opened

end ScriptFuzz
