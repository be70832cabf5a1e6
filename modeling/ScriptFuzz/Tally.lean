import ScriptFuzz.Json.Fields
import ScriptFuzz.Json.Writer
import ScriptFuzz.Ordered

/-!
# Tallies of samples

Every executed sample is counted for each component that contributed to it, by how the execution was
classified. A component is also charged for its failed attempts and credited with the instructions
that it added.
-/

namespace ScriptFuzz

set_option autoImplicit false

open ScriptFuzz.Number

/-- The classification of an executed sample. -/
inductive SampleKind where
  | valid
  | interesting
  | invalid
  | timedOut
  | crashing
deriving DecidableEq, Repr

namespace SampleKind

def all : List SampleKind := [valid, interesting, invalid, timedOut, crashing]

def name : SampleKind → String
  | valid => "Valid"
  | interesting => "Interesting"
  | invalid => "Invalid"
  | timedOut => "TimedOut"
  | crashing => "Crashing"

def ofJson? (j : Json) : Option SampleKind :=
  match j.variant? with
  | some (k, none) | some (k, some .null) => all.find? fun x => x.name == k
  | _ => none

end SampleKind

/-- The counts of one component. -/
structure Tally where
  valid : Nat := 0
  interesting : Nat := 0
  invalid : Nat := 0
  timedOut : Nat := 0
  crashing : Nat := 0
  /-- Attempts that produced no program. -/
  failedToGenerate : Nat := 0
  /-- The sum of the changes in size over all produced programs. -/
  addedInstructions : Int := 0
deriving DecidableEq, Inhabited

namespace Tally

def count (t : Tally) : SampleKind → Nat
  | .valid => t.valid
  | .interesting => t.interesting
  | .invalid => t.invalid
  | .timedOut => t.timedOut
  | .crashing => t.crashing

def record (t : Tally) : SampleKind → Tally
  | .valid => { t with valid := t.valid + 1 }
  | .interesting => { t with interesting := t.interesting + 1 }
  | .invalid => { t with invalid := t.invalid + 1 }
  | .timedOut => { t with timedOut := t.timedOut + 1 }
  | .crashing => { t with crashing := t.crashing + 1 }

theorem count_record (t : Tally) (k l : SampleKind) :
    (t.record k).count l = t.count l + if k = l then 1 else 0 := by
  cases k <;> cases l <;> simp [record, count]

/-- The number of executed samples. -/
def total (t : Tally) : Nat := t.valid + t.interesting + t.invalid + t.timedOut + t.crashing

theorem total_record (t : Tally) (k : SampleKind) : (t.record k).total = t.total + 1 := by
  cases k <;> simp only [record, total] <;> omega

def merge (s t : Tally) : Tally :=
  { valid := s.valid + t.valid
    interesting := s.interesting + t.interesting
    invalid := s.invalid + t.invalid
    timedOut := s.timedOut + t.timedOut
    crashing := s.crashing + t.crashing
    failedToGenerate := s.failedToGenerate + t.failedToGenerate
    addedInstructions := s.addedInstructions + t.addedInstructions }

/-- A natural number of 64 bits as a floating-point number. -/
private def float (n : Nat) : Float := (UInt64.ofNat n).toFloat

/-- The share of the samples that ran to their end; zero if there are none. -/
def successRate (t : Tally) : Binary64 :=
  if t.total = 0 then ⟨0⟩ else .ofFloat (float (t.valid + t.interesting) / float t.total)

/-- The instructions added for each sample; zero if there are none. -/
def averageAdded (t : Tally) : Binary64 :=
  if t.total = 0 then ⟨0⟩
  else
    let magnitude := float t.addedInstructions.natAbs
    .ofFloat ((if t.addedInstructions < 0 then -magnitude else magnitude) / float t.total)

def fields (t : Tally) : List (String × Json) :=
  [("valid", .ofNat t.valid), ("interesting", .ofNat t.interesting), ("invalid", .ofNat t.invalid),
    ("timed_out", .ofNat t.timedOut), ("crashing", .ofNat t.crashing),
    ("failed_to_generate", .ofNat t.failedToGenerate),
    ("added_instructions", .ofInt t.addedInstructions)]

/-- The tally with what follows from its counts; `number` writes a floating-point number. -/
def toJson (number : Binary64 → Json) (t : Tally) : Json :=
  .ofFields
    (t.fields ++
      [("total", .ofNat t.total), ("success_rate", number t.successRate),
        ("avg_added", number t.averageAdded)])

/-- The tally that an object with all counts describes. -/
def ofJson? (j : Json) : Option Tally := do
  let fs ← j.record?
    ["valid", "interesting", "invalid", "timed_out", "crashing", "failed_to_generate",
      "added_instructions"]
  let count (name : String) : Option Nat := do (← Json.field? fs name).nat? 0x10000000000000000
  return {
    valid := ← count "valid"
    interesting := ← count "interesting"
    invalid := ← count "invalid"
    timedOut := ← count "timed_out"
    crashing := ← count "crashing"
    failedToGenerate := ← count "failed_to_generate"
    addedInstructions :=
      ← (← Json.field? fs "added_instructions").int? (-0x8000000000000000) 0x7fffffffffffffff }

/-- Whether every count fits its machine word. -/
def isRepresentable (t : Tally) : Bool :=
  t.total < 0x10000000000000000 && t.failedToGenerate < 0x10000000000000000 &&
    -0x8000000000000000 ≤ t.addedInstructions && t.addedInstructions < 0x8000000000000000

end Tally

/-- The tallies of all components by name, names ascending. -/
structure Statistics where
  contributors : List (String × Tally) := []
deriving DecidableEq, Inhabited

namespace Statistics

/-- The tally of a component, if it was ever counted. -/
def get? (s : Statistics) (name : String) : Option Tally := s.contributors.lookup name

/-- Changes the tally of a component. -/
def update (s : Statistics) (name : String) (f : Tally → Tally) : Statistics :=
  { contributors := Ordered.put name (f ((s.get? name).getD {})) s.contributors }

/-- Counts a sample for each of its contributors. -/
def record (s : Statistics) (names : List String) (kind : SampleKind) : Statistics :=
  names.foldl (fun s name => s.update name (·.record kind)) s

def failedToGenerate (s : Statistics) (name : String) : Statistics :=
  s.update name fun t => { t with failedToGenerate := t.failedToGenerate + 1 }

def addedInstructions (s : Statistics) (name : String) (delta : Int) : Statistics :=
  s.update name fun t => { t with addedInstructions := t.addedInstructions + delta }

def totals (s : Statistics) : Tally := s.contributors.foldl (fun t (_, u) => t.merge u) {}

/-- The tallies and their sum; `number` writes a floating-point number. -/
def toJson (number : Binary64 → Json) (s : Statistics) : Json :=
  .ofFields
    [("contributors", .ofFields (s.contributors.map fun (name, t) => (name, t.toJson number))),
      ("totals", s.totals.toJson number)]

/-- Whether the tallies and their partial sums all fit their machine words. -/
def isRepresentable (s : Statistics) : Bool :=
  let step (acc : Tally × Bool) (entry : String × Tally) : Tally × Bool :=
    let sum := acc.1.merge entry.2
    (sum, acc.2 && entry.2.isRepresentable && sum.isRepresentable)
  (s.contributors.foldl step ({}, true)).2

end Statistics

end ScriptFuzz
