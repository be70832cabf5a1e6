import ScriptFuzz.Observation

/-!
# Following up observed values

A mutation that copies an observed program and adds operations that fit what a few of its values are
like: calls of functions, constructions of objects, method calls, and accesses to fields. A call is
guarded, since it may raise an exception, and reports its result to the hook.
-/

namespace ScriptFuzz

set_option autoImplicit false

open ScriptFuzz.Number

/-- How often each name of a method or field was chosen, names ascending. -/
abbrev Frequencies := List (String × Nat)

namespace FollowUp

def name : String := "ReflectionMutator"

/-- Code under construction with random choices, where choices of names are counted. -/
abbrev Synthesis := StateT Frequencies Assembly

/-- How likely a value is followed up by a call of itself, by method calls, and by accesses to its
fields. -/
structure Odds where
  invoke : Float
  methods : Float
  fields : Float

def odds : ValueKind → Odds
  | .primitive => { invoke := 0.0, methods := 0.5, fields := 0.5 }
  | .object => { invoke := 0.0, methods := 0.8, fields := 0.8 }
  | .function => { invoke := 0.8, methods := 0.2, fields := 0.2 }
  | .classObject => { invoke := 0.8, methods := 0.5, fields := 0.2 }

/-- The odds that a field is read and not written. -/
def readOdds : Float := 0.9

/-- A number of surplus arguments. None is the likeliest. -/
def drawSurplus : Draw Nat := do return (← Draw.weighted .single [4, 1]).getD 0

/-- A number of arguments for something that takes an unknown number of them. -/
def drawGuess : Draw Nat := do return (← Draw.weighted .single [4, 4, 2, 1]).getD 0

/-- A number of arguments, never less than the required one. -/
def argumentCount : Option Nat → Synthesis Nat
  | some arity => do
    let count := arity + (← drawSurplus)
    if count < Operation.countLimit then return count else throw .uncountable
  | none => drawGuess

/-- A probability as it was configured, brought between zero and one. -/
def clamped (x : Binary64) : Float :=
  let p := x.toFloat
  if p < 0 then 0 else if 1 < p then 1 else p

/-- Loads a value of any type. -/
def literal (e : Environment) : Synthesis Variable := do
  match ← Draw.below .single 6 with
  | 0 => Build.loadInt (← Environment.drawInt)
  | 1 => Build.loadFloat (← Environment.drawFloat)
  | 2 => Build.loadString (← e.drawString)
  | 3 => Build.loadBool (← Draw.bool)
  | 4 =>
    match ← e.drawBuiltin with
    | some name => Build.loadBuiltin name
    | none => Build.loadNull
  | _ => Build.loadNull

/-- A visible variable or a fresh value. -/
def argument (s : MutationSettings) (e : Environment) : Synthesis Variable := do
  let p := clamped s.reuseProbability
  if !Draw.isProbability p then throw .probability
  if ← Draw.chance p then
    match ← Build.randomVariable with
    | some v => return v
    | none => literal e
  else literal e

def argumentList (s : MutationSettings) (e : Environment) : Nat → Synthesis (List Variable)
  | 0 => return []
  | n + 1 => do
    let v ← argument s e
    return v :: (← argumentList s e n)

/-- The arguments for something that takes the given number of them. -/
def arguments (s : MutationSettings) (e : Environment) (arity : Option Nat) :
    Synthesis (List Variable) := do
  let count ← argumentCount arity
  if Builder.capacity ≤ count then throw .oversized
  argumentList s e count

/-- Guards a call and reports its result to the hook, together with the position of the call. -/
def guarded (call : Synthesis Variable) : Synthesis Unit :=
  Build.tryCatch
    (do
      let position := (← getThe Builder).nextIndex + 1
      let index ← Build.loadInt (Int64.ofNat position)
      let result ← call
      let hook ← Build.reuseBuiltin Hook.builtinName
      let _ ← Build.callMethod Hook.recordMethod hook [result, index]
      return ())
    fun _ => return ()

/-- The weights of names: the rarer a name was chosen, the larger. -/
def rarity (f : Frequencies) (names : List String) : List Nat :=
  let counts := names.map fun n => max ((f.lookup n).getD 1) 1
  counts.map fun c => max (Draw.totalWeight counts / c) 1

/-- The position of one of several names. -/
def drawName (s : MutationSettings) (f : Frequencies) (names : List String) : Draw Nat := do
  if s.favorsRare then
    match ← Draw.weighted .double (rarity f names) with
    | some n => return n
    | none => Draw.below .double names.length
  else Draw.below .double names.length

/-- Chooses one of several names and counts the choice. -/
def selectName (s : MutationSettings) (names : List String) : Synthesis Nat := do
  let f ← getThe Frequencies
  let choice ← drawName s f names
  if let some n := names[choice]? then
    set (Ordered.put n ((f.lookup n).getD 0 + 1) f)
  return choice

def callMethods (s : MutationSettings) (e : Environment) (methods : List (String × String))
    (object : Variable) : Nat → Synthesis Unit
  | 0 => return ()
  | n + 1 => do
    let choice ← selectName s (methods.map (·.1))
    if let some (method, arity) := methods[choice]? then
      let args ← arguments s e (Record.methodArity? arity)
      guarded (Build.callMethod method object args)
    callMethods s e methods object n

/-- Reads fields of an object, at times writes them. Only writing is guarded. -/
def accessFields (s : MutationSettings) (e : Environment) (fields : List String)
    (object : Variable) : Nat → Synthesis Unit
  | 0 => return ()
  | n + 1 => do
    let choice ← selectName s fields
    if let some field := fields[choice]? then
      if ← Draw.chance readOdds then
        let _ ← Build.getProperty field object
      else
        let value ← argument s e
        Build.tryCatch (Build.setProperty field object value) fun _ => return ()
    accessFields s e fields object n

/-- How often methods are called or fields are accessed in a row. -/
def drawRepetitions : Draw Nat := do return 1 + (← Draw.below .single 3)

/-- Adds operations that fit a value. -/
def followUp (s : MutationSettings) (e : Environment) (r : Record) (value : Variable) :
    Synthesis Unit := do
  let odds := odds r.kind
  if ← Draw.chance odds.invoke then
    let args ← arguments s e r.arity
    if r.kind = .classObject then guarded (Build.construct value args)
    else guarded (Build.callFunction value args)
  if ← Draw.chance odds.methods then
    if !r.methods.isEmpty then callMethods s e r.methods value (← drawRepetitions)
  if ← Draw.chance odds.fields then
    if !r.fields.isEmpty then accessFields s e r.fields value (← drawRepetitions)

/-- Copies instructions and follows up the selected ones. -/
def copyAll (s : MutationSettings) (e : Environment) (o : Observed) (selected : List Nat) :
    Code → Synthesis Unit
  | [] => return ()
  | i :: is => do
    let _ ← Build.adopt i
    if i.index ∈ selected then
      if let some v := i.output? then
        if let some r := o.record? i.index then
          followUp s e r (← Build.adopted v)
    copyAll s e o selected is

/-- Several observed positions, of which some may be the same. -/
def drawPositions (o : Observed) : Nat → Draw (List Nat)
  | 0 => return []
  | n + 1 => do
    let position ← Draw.choose o.positions
    return position.toList ++ (← drawPositions o n)

/-- The positions that are followed up: at least one and at most as many as the settings allow. -/
def selectPositions (s : MutationSettings) (o : Observed) : Draw (List Nat) := do
  drawPositions o (1 + (← Draw.below .double (max s.maxTargets 1)))

/-- A copy of an observed program in which a few values are followed up, and the frequencies of
names afterwards. -/
def synthesize (s : MutationSettings) (e : Environment) (id : Uuid) (f : Frequencies)
    (o : Observed) : ExceptT Fault (StateM Random) (Program × Frequencies) := do
  let selected ← selectPositions s o
  let p := o.program
  let start : Builder := { Builder.derivedFrom p with contributors := p.contributors }
  let ((_, f), b) ← ((copyAll s e o selected p.code).run f).run (start.addContributor name)
  return (← liftExcept (b.finalize id), f)

/-- Observes a program and follows up what was observed, if anything was. -/
def mutate {σ : Type} (s : MutationSettings) (f : Frequencies) (p : Program) :
    Fuzzing σ (Option (Program × Frequencies)) := do
  match ← p.observe with
  | none => return none
  | some o =>
    let id ← Fuzzing.freshId
    let e := (← getThe (Fuzzer σ)).environment
    return some (← Fuzzing.draw (synthesize s e id f o))

end FollowUp

end ScriptFuzz
