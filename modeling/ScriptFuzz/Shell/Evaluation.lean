import ScriptFuzz.Launch
import ScriptFuzz.Shell.Builtin

/-!
# Evaluation of commands

One step of evaluation for each kind of command, the evaluator that takes steps to any depth, and the
launcher that starts a shell or one of the utilities that shells call.
-/

namespace ScriptFuzz

set_option autoImplicit false

namespace Shell.Evaluator

open Effect

/-- Calls a function: its arguments are those of the call, and variables that it made local get
their values back. -/
def call (e : Evaluator) (body : Command) (vs : List Value) : Effect Unit := do
  let outer ← frame
  modifyFrame fun f => { f with arguments := vs, saved := some [], loops := 0 }
  let stop? : Option Stop ← tryCatch (e.run body *> pure none) fun stop => return some stop
  modifyFrame fun f =>
    let bindings := (f.saved.getD []).foldl
      (fun vs (name, old) =>
        match old with
        | some v => Ordered.put name v vs
        | none => vs.filter (·.1 ≠ name))
      f.bindings
    { f with bindings, arguments := outer.arguments, saved := outer.saved, loops := outer.loops }
  match stop? with
  | none | some .returned => return
  | some stop => throw stop

/-- Runs a command that is no function. -/
def plain (e : Evaluator) (name : Value) (vs : List Value) : Effect Unit := do
  match Builtin.run? e (String.ofList name) with
  | some run => run vs
  | none => e.spawned name vs

/-- Runs a command by its name and arguments. -/
def dispatch (e : Evaluator) (name : Value) (vs : List Value) : Effect Unit := do
  match (← frame).functions.lookup (String.ofList name), name == "command".toList, vs with
  | some body, _, _ => e.call body vs
  | none, true, ['-', 'v'] :: names => Builtin.describe false names
  | none, true, ['-', 'V'] :: names => Builtin.describe true names
  | none, true, ['-', 'p'] :: name :: vs => e.plain name vs
  | none, true, [] => setStatus 0
  | none, true, name :: vs => e.plain name vs
  | none, false, vs => e.plain name vs

/-- Makes variables have values during an action. -/
def withAssignments (settings : List (String × Value)) (x : Effect Unit) : Effect Unit := do
  let outer ← frame
  settings.forM fun (name, v) => do
    assign name v
    publish name
  x
  modifyFrame fun f =>
    let bindings := settings.foldl
      (fun vs (name, _) =>
        match outer.bindings.lookup name with
        | some v => Ordered.put name v vs
        | none => vs.filter (·.1 ≠ name))
      f.bindings
    { f with bindings, exported := outer.exported }

def hasOutput (w : Word) : Bool :=
  w.any fun p =>
    match p with
    | .output _ _ => true
    | _ => false

def simple (e : Evaluator) (line : Nat) (assignments : List (List Char × Word)) (words : List Word)
    (redirections : List Redirection) : Effect Unit := do
  spend commandTime
  modifyFrame fun f => { f with line }
  let vs ← Expansion.arguments e.means words
  let settings : Effect (List (String × Value)) := assignments.mapM fun (name, w) =>
    return (String.ofList name, ← e.text w)
  match vs with
  | [] =>
    keepingDescriptors do
      if ← e.redirectAll redirections then
        assignments.forM fun (name, w) => do assign (String.ofList name) (← e.text w)
        if !(assignments.any fun (_, w) => hasOutput w) && !words.any hasOutput then setStatus 0
      else setStatus 2
  | name :: vs =>
    let isSpecial := Builtin.special.contains (String.ofList name)
    let run : Effect Unit := do
      if ← e.redirectAll redirections then
        let settings ← settings
        if isSpecial then
          settings.forM fun (name, v) => assign name v
          e.dispatch name vs
        else if settings.isEmpty then e.dispatch name vs
        else withAssignments settings (e.dispatch name vs)
      else if isSpecial then Effect.exit 2
      else setStatus 2
    if name = "exec".toList ∧ vs.isEmpty then run else keepingDescriptors run
  checkFailure

/-- Commands of which each reads what the one before it writes. -/
def pipeline (e : Evaluator) : List Command → Effect Unit
  | [] => return
  | [c] => do setStatus (← inSubshell (e.run c))
  | c :: cs => do
    let number := (← getThe State).files.contents.size
    let _ ← inSubshell do
      let _ ← openValue 1 []
      e.run c
    openAt 0 { file := some number, passed := true }
    pipeline e cs

/-- What a command does in the background before its first pause; what it would do later comes too
late to be seen. -/
def inBackground (x : Effect Unit) : Effect Unit := do
  let s ← getThe State
  let instant := 1000000
  set { s with limit := s.nanoseconds + instant }
  tryCatch
    (do
      let _ ← inSubshell do
        openAt 0 { file := none }
        x)
    fun stop =>
      match stop with
      | .timedOut => modifyFrame fun _ => s.frame
      | stop => throw stop
  modifyThe State fun t => { t with nanoseconds := s.nanoseconds, limit := s.limit }
  assign "!" (.ofNat ((← frame).process + 1))
  setStatus 0

/-- The first clause with a pattern that matches a value. -/
def clause? (e : Evaluator) (v : Value) :
    List (List Word × List Command) → Effect (Option (List Command))
  | [] => return none
  | (patterns, body) :: rest => do
    if ← patterns.anyM fun p => do
        return Pattern.accepts (Pattern.atoms (Expansion.marks (← e.expand p))) v
    then return some body
    else clause? e v rest

/-- The commands of a branch for the first condition that holds. -/
def branch (e : Evaluator) (otherwise : List Command) :
    List (List Command × List Command) → Effect Unit
  | [] => do
    setStatus 0
    e.all otherwise
  | (condition, body) :: rest => do
    if ← asCondition (e.all condition) then e.all body else branch e otherwise rest

/-- The body of a loop for each of some values. -/
def each (e : Evaluator) (name : String) (body : List Command) : List Value → Effect Unit
  | [] => return
  | v :: vs => do
    assign name v
    if ← round (e.all body) then each e name body vs

/-- The body of a loop for as long as the condition asks for it. The status is that of the last
round, or zero if there is none. -/
def loop (e : Evaluator) (untilTrue : Bool) (condition body : List Command) : Effect Unit := do
  let last : Nat ← foldRounds endless 0
  setStatus last
where
  /-- Goes on with the status of the round before. -/
  foldRounds : Nat → Nat → Effect Nat
    | 0, _ => throw .timedOut
    | n + 1, status => do
      spend commandTime
      let goesOn ← round do
        if (← asCondition (e.all condition)) = untilTrue then
          setStatus status
          throw (.broke 1)
        e.all body
      let now := (← frame).status
      if goesOn then foldRounds n now else return now

/-- Runs a command, given the means to run what is inside of it. -/
def step (e : Evaluator) : Command → Effect Unit
  | .simple line assignments words redirections => e.simple line assignments words redirections
  | .pipeline cs => do
    keepingDescriptors (e.pipeline cs)
    checkFailure
  | .not c => do
    let held ← asCondition (e.run c)
    setStatus (if held then 1 else 0)
  | .and l r => do if ← asCondition (e.run l) then e.run r
  | .or l r => do if !(← asCondition (e.run l)) then e.run r
  | .background c => inBackground (e.run c)
  | .group cs => e.all cs
  | .subshell cs => do
    setStatus (← inSubshell (e.whole (e.all cs)))
    checkFailure
  | .branch cases otherwise => e.branch otherwise cases
  | .loop untilTrue condition body => do
    inLoop (e.loop untilTrue condition body)
  | .each name words body => do
    let vs ←
      match words with
      | some ws => Expansion.arguments e.means ws
      | none => pure (← frame).arguments
    setStatus 0
    inLoop (e.each (String.ofList name) body vs)
  | .choice line word clauses => do
    modifyFrame fun f => { f with line }
    let v ← e.text word
    match ← e.clause? v clauses with
    | some body =>
      setStatus 0
      e.all body
    | none => setStatus 0
  | .define name body => do
    modifyFrame fun f =>
      { f with functions := Ordered.put (String.ofList name) body f.functions, status := 0 }
  | .redirected line c redirections => do
    modifyFrame fun f => { f with line }
    keepingDescriptors do
      if ← e.redirectAll redirections then e.run c
      else
        setStatus 2
        checkFailure

/-- The evaluator for commands and words of a depth. -/
def level : Nat → Evaluator
  | 0 => { run := fun _ => throw .timedOut, expand := fun _ => throw .timedOut }
  | n + 1 =>
    { run := fun c => step (level n) c
      expand := fun w =>
        Expansion.word { expand := (level n).expand, output := (level n).output } w }

/-- The depth that no script needs. -/
def depth : Nat := 5000

end Shell.Evaluator

/-! ## Launching -/

open Shell

namespace Launch

def outcomeOf (status : Nat) : Outcome :=
  let code := status % Effect.statuses
  if code = 0 then .succeeded else .failed code

/-- The variables as a program reads them: a name ends at the first equals sign. A shell knows only
those with the name of a variable. -/
def bindings (l : Launch) : List (String × Value) :=
  Ordered.ofPairs (l.environment.filterMap fun (name, value) =>
    let setting := name.toList ++ '=' :: value.toList
    let name := setting.takeWhile (· ≠ '=')
    let value := String.ofList (setting.drop (name.length + 1))
    if Reader.isName name then some (String.ofList name, .ofText value) else none)

def start (l : Launch) (files : Files) : State :=
  let bindings := Ordered.ofPairs
    ([("PATH", Utility.usualSearchPath)] ++ l.bindings ++
      [("PWD", Value.ofText l.directory.text)])
  { files
    opened := #[{ file := none }, { file := l.output }, { file := l.messages }]
    limit := l.milliseconds * 1000000
    frame :=
      { directory := l.directory, descriptors := [(0, 0), (1, 1), (2, 2)], bindings
        exported := bindings.map (·.1) } }

/-- The texts that the program is given. -/
def texts (l : Launch) : List String :=
  l.program :: l.arguments ++ l.environment.map fun (name, value) => name ++ "=" ++ value

/-- Whether a program can be given a text: it holds no zero and is not too long. -/
def isGivable (s : String) : Bool :=
  !s.contains (Char.ofNat 0) && s.utf8ByteSize < Evaluator.longestArgument

/-- What runs, if there is such a program and it can be given the texts. -/
def action? (l : Launch) (files : Files) : Option (Effect Unit) :=
  let name := Value.ofText l.program
  let searchPath :=
    ((l.environment.lookup "PATH").map Value.ofText).getD Utility.usualSearchPath
  match Utility.program files l.directory (some searchPath) name with
  | .notFound | .notExecutable | .unreachable _ => none
  | _ =>
    if l.texts.all isGivable then
      some do
        let _ ← (Evaluator.level Evaluator.depth).program 8 name (l.arguments.map Value.ofText)
    else none

/-- Starts the program; nothing if there is no such program. A program that gets no time does not
come to do anything. -/
def run? (l : Launch) (files : Files) : Option Launched :=
  (l.action? files).map fun x =>
    if l.milliseconds = 0 then { outcome := .timedOut, nanoseconds := 0, files }
    else
      let (ended, s) := x.run.run (l.start files)
      let outcome :=
        match ended with
        | .error .timedOut => .timedOut
        | .error (.killed n) => .crashed n
        | .error _ | .ok _ => outcomeOf s.frame.status
      { outcome, nanoseconds := s.nanoseconds, files := s.files }

end Launch

end ScriptFuzz
