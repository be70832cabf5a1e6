import ScriptFuzz.Mutation.Alteration
import ScriptFuzz.Mutation.FollowUp

/-!
# Mutators

The ways to derive a new program from a given one. A mutator may decline, for example because the
program offers nothing to work with.
-/

namespace ScriptFuzz

set_option autoImplicit false

inductive Mutator where
  /-- Follows up observed values; the frequencies are those of the names chosen so far. -/
  | followUp (settings : MutationSettings) (frequencies : Frequencies)
  /-- Alters parameters. -/
  | alter (settings : MutationSettings)
  /-- Adds a fixed program. -/
  | append (extra : Program)
  /-- Declines always. -/
  | decline

namespace Mutator

def name : Mutator → String
  | followUp _ _ => FollowUp.name
  | alter _ => Alteration.name
  | append _ => "Append"
  | decline => "Decline"

/-- The mutators that a worker starts with. -/
def standard (s : MutationSettings) : List Mutator := [followUp s [], alter s]

/-- A program followed by another, under the name of the mutator that put them together. -/
def appended (id : Uuid) (name : String) (p extra : Program) : Except Fault Program := do
  let start : Builder := { Builder.derivedFrom p with contributors := p.contributors }
  let b ← (start.addContributor name).appendProgram p
  (← b.appendProgram extra).finalize id

/-- A new program, unless the mutator declines, and the mutator afterwards. -/
def mutate {σ : Type} (m : Mutator) (p : Program) : Fuzzing σ (Option Program × Mutator) := do
  match m with
  | followUp s f =>
    match ← FollowUp.mutate s f p with
    | some (q, f) => return (some q, followUp s f)
    | none => return (none, m)
  | alter s =>
    let id ← Fuzzing.freshId
    let e := (← getThe (Fuzzer σ)).environment
    return (← Fuzzing.draw (Alteration.mutate s e id p), m)
  | append extra =>
    let id ← Fuzzing.freshId
    return (some (← Build.orRaise (appended id m.name p extra)), m)
  | decline => return (none, m)

/-- How often a name was chosen by the mutator. -/
def frequency : Mutator → String → Nat
  | followUp _ f, name => (f.lookup name).getD 0
  | _, _ => 0

end Mutator

end ScriptFuzz
