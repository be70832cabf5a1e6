import ScriptFuzz.Proofs.Engine

/-!
# Loops of any strategy

The loop of the engine with its two decisions left open: how a program is derived from another, and
what is interesting in an execution. `Strategy.own` is what the engine itself decides, and its loop
is the engine's (`Strategy.iterations_own`).
-/

namespace ScriptFuzz

set_option autoImplicit false

/-- The decisions of a loop. Both may use the worker and change the state of the loop. -/
structure Strategy (σ : Type) where
  /-- Whether there is no mutator to choose. -/
  isIdle : Engine → Bool
  /-- Chooses a mutator and lets it derive a program: its name and the program, unless it
  declines. -/
  derive : Program → Looping σ (Option (String × Option Program))
  /-- What is interesting in an execution, if anything is. -/
  judge : Execution → StateT Engine (StateM (Fuzzer σ)) (Option String)

namespace Strategy

open Engine

variable {σ : Type}

/-- Classifies an execution of `executed`, of which `p` is what is left after pruning. -/
def process (S : Strategy σ) (p executed : Program) (e : Execution) :
    Looping σ (Option Program) := do
  match e.outcome with
  | .crashed _ =>
    count p .crashing
    let line := e.outcome.text ++ " after " ++ toString e.milliseconds ++ " ms"
    report (.crash (annotated executed line) e)
    return none
  | .succeeded =>
    match ← ExceptT.lift (S.judge e) with
    | some aspects =>
      let line := "Program may be interesting due to " ++ aspects
      let p := if (← settings).inspects then annotated p line else p
      count p .interesting
      modifyThe Engine fun s => { s with corpus := s.corpus.add p }
      report (.interesting p aspects)
      return some p
    | none =>
      count p .valid
      report (.valid p)
      return some p
  | .failed _ =>
    let p := if (← settings).diagnoses then annotated p ("Stdout:\n" ++ e.stdout) else p
    count p .invalid
    report (.invalid p)
    return none
  | .timedOut =>
    count p .timedOut
    report (.timedOut p)
    return none

/-- Executes, prunes and classifies a derived program. Gives the program to go on from. -/
def sample (S : Strategy σ) (parent mutated : Program) : Looping σ Program := do
  let e ← work (Fuzzing.execute mutated)
  let pruned ← work mutated.pruneObserved
  report (.generated pruned)
  return (← S.process pruned mutated e).getD parent

/-- One round. Gives the program to go on from. -/
def round (S : Strategy σ) (parent : Program) : Looping σ Program := do
  match ← S.derive parent with
  | none => return parent
  | some (name, none) =>
    note name .failed
    return parent
  | some (name, some mutated) =>
    note name (.added ((mutated.size : Int) - parent.size))
    S.sample parent mutated

/-- Several rounds in a row. -/
def rounds (S : Strategy σ) (parent : Program) : Nat → Looping σ Program
  | 0 => return parent
  | n + 1 => do S.rounds (← S.round parent) n

/-- One iteration. -/
def fuzzOne (S : Strategy σ) : Looping σ (Option Program) := do
  let corpus := (← getThe Engine).corpus
  match ← work (Fuzzing.draw (liftM corpus.choose)) with
  | none => return none
  | some seed =>
    let _ ← healthCheck seed
    let parent ← prepare seed
    if S.isIdle (← getThe Engine) then return some parent
    return some (← S.rounds parent (← settings).rounds)

/-- Several iterations in a row, with what each of them gives. -/
def iterations (S : Strategy σ) : Nat → Looping σ (List (Option Program))
  | 0 => return []
  | n + 1 => do
    let p ← S.fuzzOne
    return p :: (← S.iterations n)

/-- The decisions of the engine: a mutator of its list at random, and its evaluator. -/
def own : Strategy σ where
  isIdle s := s.mutators.isEmpty
  derive parent := do
    let mutators := (← getThe Engine).mutators
    let choice ← work (Fuzzing.draw (liftM (Draw.below .double mutators.length)))
    match mutators[choice]? with
    | none => return none
    | some m =>
      let (mutated, m) ← work (m.mutate parent)
      modifyThe Engine fun s => { s with mutators := s.mutators.set choice m }
      return some (m.name, mutated)
  judge e := fun s =>
    let (aspects, evaluator) := s.evaluator.evaluate e
    return (aspects, { s with evaluator })

theorem process_own (p executed : Program) (e : Execution) :
    (own : Strategy σ).process p executed e = Engine.process p executed e := by
  unfold process Engine.process
  cases e.outcome <;> rfl

theorem sample_own (parent mutated : Program) :
    (own : Strategy σ).sample parent mutated = (do
      let e ← work (Fuzzing.execute mutated)
      let pruned ← work mutated.pruneObserved
      report (.generated pruned)
      return (← Engine.process pruned mutated e).getD parent) := by
  unfold sample
  simp only [process_own]

theorem round_own (parent : Program) :
    (own : Strategy σ).round parent = Engine.round parent := by
  unfold round Engine.round
  simp only [sample_own]
  simp only [own, bind_assoc]
  refine bind_congr fun s => bind_congr fun choice => ?_
  cases s.mutators[choice]? with
  | none => rfl
  | some m =>
    simp only [bind_assoc, pure_bind]
    refine bind_congr fun r => bind_congr fun _ => ?_
    obtain ⟨mutated, m⟩ := r
    cases mutated <;> rfl

theorem rounds_own (parent : Program) (n : Nat) :
    (own : Strategy σ).rounds parent n = Engine.rounds parent n := by
  induction n generalizing parent with
  | zero => rfl
  | succ n ih =>
    unfold rounds Engine.rounds
    rw [round_own]
    exact congrArg _ (funext ih)

theorem fuzzOne_own : (own : Strategy σ).fuzzOne = Engine.fuzzOne := by
  unfold fuzzOne Engine.fuzzOne
  simp only [rounds_own]
  rfl

/-- The loop of the engine is the loop of its own decisions. -/
theorem iterations_own (n : Nat) :
    (own : Strategy σ).iterations n = Engine.iterations n := by
  induction n with
  | zero => rfl
  | succ n ih =>
    unfold iterations Engine.iterations
    rw [fuzzOne_own, ih]

end Strategy

end ScriptFuzz
