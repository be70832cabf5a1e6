import ScriptFuzz.Shell.Line
import ScriptFuzz.Shell.State

/-!
# Utilities

The programs that scripts call and that shells do not have of their own. A utility is an action on
its arguments and gives its status.
-/

namespace ScriptFuzz.Shell.Utility

set_option autoImplicit false

open Effect

/-! ## Arguments -/

/-- The switches in one argument; a switch that takes a value takes what is left of the argument,
and the second part is the switch that finds nothing left. -/
def cluster (valued : String) : Value → List (Char × Value) × Option Char
  | [] => ([], none)
  | c :: cs =>
    if valued.contains c then if cs = [] then ([], some c) else ([(c, cs)], none)
    else
      let (rest, waiting) := cluster valued cs
      ((c, []) :: rest, waiting)

/-- The switches with their values, and the operands. -/
def options (valued : String) : Option Char → List Value → List (Char × Value) × List Value
  | _, [] => ([], [])
  | some c, v :: vs =>
    let (switches, operands) := options valued none vs
    ((c, v) :: switches, operands)
  | none, v :: vs =>
    match v with
    | ['-', '-'] => ([], vs)
    | '-' :: c :: cs =>
      let (found, waiting) :=
        if c.isDigit then ([('n', c :: cs)], none) else cluster valued (c :: cs)
      let (switches, operands) := options valued waiting vs
      (found ++ switches, operands)
    | _ =>
      let (switches, operands) := options valued none vs
      (switches, v :: operands)

/-- Arguments taken apart. -/
structure Arguments where
  switches : List (Char × Value)
  operands : List Value

namespace Arguments

def ofList (valued : String) (vs : List Value) : Arguments :=
  let (switches, operands) := options valued none vs
  { switches, operands }

def has (a : Arguments) (c : Char) : Bool := a.switches.any (·.1 = c)

/-- The last value given for a switch. -/
def value? (a : Arguments) (c : Char) : Option Value :=
  (a.switches.filter (·.1 = c)).getLast?.map (·.2)

end Arguments

/-- Tells how a utility is to be used. -/
def hint (utility : String) : String := "\nTry '" ++ utility ++ " --help' for more information."

/-- Tells that an operand is missing. -/
def missing (utility what : String) : Effect Nat := do
  report utility ("missing " ++ what ++ hint utility)
  return 1

/-- Runs an action on each operand; the status is the greatest one. -/
def onEach (vs : List Value) (x : Value → Effect Nat) : Effect Nat :=
  vs.foldlM (fun status v => return max status (← x v)) 0

/-- A name as messages show it that always quote. -/
def quoted (name : Value) : String :=
  if name.contains '\'' then "\"" ++ name.toText ++ "\"" else "'" ++ name.toText ++ "'"

/-- Whether a shell takes a name as it is. -/
def isPlain (name : Value) : Bool :=
  let isFree (c : Char) : Bool := c.isAlphanum || "%+,-./:@_]".contains c || 128 ≤ c.toNat
  match name with
  | [] => false
  | c :: cs => isFree c && cs.all fun c => isFree c || c = '#' || c = '~'

/-- A name as messages show it that quote only where they have to. -/
def shown (name : Value) : String := if isPlain name then name.toText else quoted name

/-- The content of a file, or why it cannot be read. -/
def read (name : Value) : Effect (Except FileError Value) := do
  if name = ['-'] then
    if ← readsDirectory then return .error .isDirectory
    return .ok (← input)
  match ← openNamed .read name with
  | .ok place => return .ok (← takeOpen place fun _ => false)
  | .error e => return .error e

/-- Runs an action on the name and the content of each operand, or on the input. What cannot be read
is reported by a message. -/
def onSources (utility : String) (failure : Nat) (operands : List Value)
    (message : Value → FileError → String) (x : Value → Value → Effect Unit) : Effect Nat :=
  onEach (if operands.isEmpty then [['-']] else operands) fun name => do
    match ← read name with
    | .ok v =>
      x name v
      return 0
    | .error e =>
      report utility (message name e)
      return failure

/-- The message of most utilities about a file that cannot be read. -/
def unread (name : Value) (e : FileError) : String := shown name ++ ": " ++ e.text

/-- The status of a change of the files, and a message if it was not possible. -/
def attempt (utility message : String) (x : Path → Files.Change Unit) : Effect Nat := do
  match ← change x with
  | .ok () => return 0
  | .error e =>
    report utility (message ++ ": " ++ e.text)
    return 1

/-! ## Files -/

def cat (vs : List Value) : Effect Nat := do
  let a := Arguments.ofList "" vs
  onSources "cat" 1 a.operands unread fun _ v =>
    put (if a.has 'n' then Line.numbered 1 v else v)

/-- The names in a directory, one on a line. -/
def listing (showsAll : Bool) (p : Path) : Effect Value := do
  let names := (← getThe State).files.names p
  return (names.filter fun n => showsAll || !n.startsWith ".").flatMap fun n =>
    Value.ofText n ++ ['\n']

def ls (vs : List Value) : Effect Nat := do
  let a := Arguments.ofList "" vs
  let operands := if a.operands.isEmpty then [['.']] else a.operands
  let found ← operands.mapM fun v => return (v, ← find v)
  let status ← onEach operands fun v => do
    match ← find v with
    | .ok _ => return 0
    | .error e =>
      report "ls" ("cannot access " ++ quoted v ++ ": " ++ e.text)
      return 2
  let plain := found.filterMap fun (v, place) =>
    match place with
    | .ok (_, .directory) => if a.has 'd' then some v else none
    | .ok _ => some v
    | .error _ => none
  let directories := found.filterMap fun (v, place) =>
    match place with
    | .ok (p, .directory) => if a.has 'd' then none else some (v, p)
    | _ => none
  (plain.mergeSort Value.isUpTo).forM putLine
  let headed := 1 < operands.length
  let _ ← (directories.mergeSort fun v w => v.1.isUpTo w.1).foldlM
    (fun isFirst (v, p) => do
      if headed then
        put (if isFirst then [] else ['\n'])
        putLine (v ++ [':'])
      if a.has 'a' then put ".\n..\n".toList
      put (← listing (a.has 'a' || a.has 'A') p)
      return false)
    plain.isEmpty
  return status

/-- The part of a way at which making directories fails. -/
def obstacle (files : Files) (directory : Path) (v : Value) : Value :=
  let ends := (List.range (v.length + 1)).filter fun n => n = v.length || v[n]? = some '/'
  let starts := (ends.map v.take).filter fun w => w ≠ [] ∧ w.getLast? ≠ some '/'
  (starts.find? fun w =>
    match files.find directory (Value.toText w) with
    | .ok (_, .directory) | .error .missing => false
    | _ => true).getD v

def mkdir (vs : List Value) : Effect Nat := do
  let a := Arguments.ofList "m" vs
  if a.operands.isEmpty then return ← missing "mkdir" "operand"
  onEach a.operands fun v => do
    let s ← getThe State
    let start := "cannot create directory "
    if a.has 'p' && v ≠ [] then
      let place := obstacle s.files s.frame.directory v
      attempt "mkdir" (start ++ quoted place) (Files.makeDirectories · v.toText)
    else attempt "mkdir" (start ++ quoted v) (Files.makeDirectory · v.toText)

def rmdir (vs : List Value) : Effect Nat := do
  let a := Arguments.ofList "" vs
  if a.operands.isEmpty then return ← missing "rmdir" "operand"
  onEach a.operands fun v =>
    attempt "rmdir" ("failed to remove " ++ quoted v) fun directory => do
      let fs ← getThe Files
      let p ← liftExcept (fs.findDirectory directory v.toText)
      if (Path.parts v.toText).getLast? = some "." then throw .malformed
      if !(fs.below p).isEmpty || p.isEmpty then throw .notEmpty
      set (fs.remove p)

def rm (vs : List Value) : Effect Nat := do
  let a := Arguments.ofList "" vs
  let forced := a.has 'f'
  let deep := a.has 'r' || a.has 'R'
  if a.operands.isEmpty && !forced then return ← missing "rm" "operand"
  onEach a.operands fun v => do
    let isDots := [some ".", some ".."].contains (Path.parts v.toText).getLast?
    match ← find v with
    | .ok (p, .directory) =>
      if deep && isDots then
        report "rm" ("refusing to remove '.' or '..' directory: skipping " ++ quoted v)
        return 1
      if !deep then
        report "rm" ("cannot remove " ++ quoted v ++ ": " ++ FileError.isDirectory.text)
        return 1
      modifyThe State fun s => { s with files := s.files.remove p }
      return 0
    | .ok (p, _) =>
      modifyThe State fun s => { s with files := s.files.remove p }
      return 0
    | .error e =>
      if forced && (e = .missing || e = .notDirectory) then return 0
      report "rm" ("cannot remove " ++ quoted v ++ ": " ++ e.text)
      return 1

def touch (vs : List Value) : Effect Nat := do
  let a := Arguments.ofList "dtr" vs
  if a.operands.isEmpty then return ← missing "touch" "file operand"
  onEach a.operands fun v => do
    let isClosed := v.getLast? = some '/'
    match ← find v with
    | .ok _ => return 0
    | .error e =>
      if a.has 'c' then return 0
      if isClosed then
        report "touch" ("setting times of " ++ quoted v ++ ": " ++ e.text)
        return 1
      attempt "touch" ("cannot touch " ++ quoted v) fun directory => do
        let _ ← Files.create directory v.toText

/-- The text of the place where a file goes that is copied or moved to a target: into it, if it is a
directory. -/
def destination (files : Files) (directory : Path) (source target : Value) : String :=
  if (files.findDirectory directory target.toText).isOk then
    Path.join target.toText ((Path.parts source.toText).getLastD "")
  else target.toText

def copyDirectory (source : Path) (directory : Path) (place : String) : Files.Change Unit := do
  let fs ← getThe Files
  Files.makeDirectories directory place
  for (q, n) in fs.below source do
    let text := Path.join place ("/".intercalate q)
    match n with
    | .directory => Files.makeDirectories directory text
    | .file n => Files.write directory text (fs.content n)
    | .program | .device _ => pure ()

/-- Copies or moves the operands but the last one to the last one. -/
def transfer (utility : String) (keeps : Bool) (vs : List Value) : Effect Nat := do
  let a := Arguments.ofList "" vs
  match a.operands.reverse with
  | [] => missing utility "file operand"
  | [v] => missing utility ("destination file operand after " ++ quoted v)
  | target :: sources =>
    let s ← getThe State
    if 1 < sources.length then
      if let .error e := s.files.findDirectory s.frame.directory target.toText then
        report utility ("target " ++ quoted target ++ ": " ++ e.text)
        return 1
    onEach sources.reverse fun v => do
      let s ← getThe State
      let place := destination s.files s.frame.directory v target
      let shownPlace := quoted (Value.ofText place)
      let same := quoted v ++ " and " ++ shownPlace ++ " are the same file"
      let isDeep := a.has 'r' || a.has 'R' || a.has 'a'
      match ← find v, ← find (Value.ofText place) with
      | .error e, _ =>
        report utility ("cannot stat " ++ quoted v ++ ": " ++ e.text)
        return 1
      | .ok (p, n), .ok (q, m) =>
        if keeps && n = .directory && !isDeep then
          report utility ("-r not specified; omitting directory " ++ quoted v)
          return 1
        if p = q ∨ (n = m ∧ n ≠ .directory) then
          report utility same
          return 1
        match n, m with
        | .directory, .directory =>
          if !keeps && !(s.files.below q).isEmpty then
            report utility
              ("cannot move " ++ quoted v ++ " to " ++ shownPlace ++ ": Directory not empty")
            return 1
          moved utility v shownPlace p (copyDirectory p · place)
        | .directory, _ =>
          report utility ("cannot overwrite non-directory " ++ shownPlace ++ " with directory " ++
            quoted v)
          return 1
        | _, .directory =>
          report utility ("cannot overwrite directory " ++ shownPlace ++ " with non-directory" ++
            (if keeps then "" else " " ++ quoted v))
          return 1
        | _, _ => moved utility v shownPlace p fun directory => do
          let fs ← getThe Files
          if !keeps then Files.removeFile directory place
          copyFile fs n directory place
      | .ok (p, .directory), .error _ =>
        if keeps && !isDeep then
          report utility ("-r not specified; omitting directory " ++ quoted v)
          return 1
        moved utility v shownPlace p (copyDirectory p · place)
      | .ok (p, n), .error _ =>
        moved utility v shownPlace p fun directory => do copyFile (← getThe Files) n directory place
where
  /-- Makes the content of a file that of another one. -/
  copyFile (fs : Files) (n : Node) (directory : Path) (place : String) : Files.Change Unit :=
    match n with
    | .file n => Files.write directory place (fs.content n)
    | _ => Files.write directory place []
  /-- Makes a copy, and takes the source away unless it is kept. -/
  moved (utility : String) (v : Value) (shownPlace : String) (p : Path)
      (x : Path → Files.Change Unit) : Effect Nat :=
    let start :=
      if keeps then "cannot create regular file " ++ shownPlace
      else "cannot move " ++ quoted v ++ " to " ++ shownPlace
    attempt utility start fun directory => do
      x directory
      if !keeps then modifyThe Files (·.remove p)

def chmod (vs : List Value) : Effect Nat := do
  match vs with
  | [] => missing "chmod" "operand"
  | [mode] => missing "chmod" ("operand after " ++ quoted mode)
  | _ :: vs =>
    onEach vs fun v => do
      match ← find v with
      | .ok _ => return 0
      | .error e =>
        report "chmod" ("cannot access " ++ quoted v ++ ": " ++ e.text)
        return 1

def tee (vs : List Value) : Effect Nat := do
  let a := Arguments.ofList "" vs
  let places ← a.operands.mapM fun name =>
    return (name, ← openNamed (if a.has 'a' then .append else .write) name)
  let v ← input
  put v
  places.foldlM
    (fun status (name, place) => do
      match place with
      | .ok place =>
        writeOpen place v
        return status
      | .error e =>
        report "tee" (unread name e)
        return 1)
    0

/-! ## Text -/

def inputHasPath : Effect Bool := do
  let s ← getThe State
  let file? := (s.frame.descriptors.lookup 0).bind fun n => (s.opened[n]?).bind (·.file)
  return match file? with
    | some n => s.files.entries.any fun (_, node) => node = .file n
    | none => true

def wc (vs : List Value) : Effect Nat := do
  let a := Arguments.ofList "" vs
  let chosen := "lwcm".toList.filter a.has
  let figures (v : Value) : List Nat :=
    let (ls, ws, bs) := Line.counts v
    if chosen.isEmpty then [ls, ws, bs]
    else chosen.map fun c => if c = 'l' then ls else if c = 'w' then ws else bs
  let contents ← a.operands.mapM fun v => do
    return match ← if v = ['-'] then pure (.ok []) else read v with
      | .ok v => v.length
      | .error _ => 0
  let held ← getThe State
  let fromFile ← inputHasPath
  let width :=
    if a.operands.isEmpty then
      let size :=
        ((held.frame.descriptors.lookup 0).bind fun n => (held.opened[n]?).bind (·.file)).map
          fun n => (held.files.content n).length
      if chosen.length = 1 then 1 else if fromFile then (toString (size.getD 0)).length else 7
    else if chosen.length = 1 && a.operands.length = 1 then 1
    else (toString (contents.foldr (· + ·) 0)).length
  let row (ns : List Nat) (name : Value) : Value :=
    [' '].intercalate (ns.map (Line.field width)) ++ (if name = [] then [] else ' ' :: name)
  let status ← onEach (if a.operands.isEmpty then [['-']] else a.operands) fun name => do
    match ← read name with
    | .ok v =>
      putLine (row (figures v) (if a.operands.isEmpty then [] else name))
      return 0
    | .error e =>
      report "wc" (unread name e)
      if e = .isDirectory then putLine (row (figures []) name)
      return 1
  if 1 < a.operands.length then
    let all ← a.operands.mapM fun v => do
      return match ← if v = ['-'] then pure (.ok []) else read v with
        | .ok v => figures v
        | .error _ => figures []
    let total := all.foldl (fun ns ms => (ns.zip ms).map fun (n, m) => n + m) (figures [])
    putLine (row total "total".toList)
  return status

def tr (vs : List Value) : Effect Nat := do
  let a := Arguments.ofList "" vs
  let sets := a.operands.map fun v => Line.members (v.length + 1) v
  let r : Line.Replacement :=
    { complement := a.has 'c' || a.has 'C', deletes := a.has 'd', squeezes := a.has 's' }
  put (Line.replaced r (sets.headD []) ((sets.drop 1).headD []) (← input))
  return 0

/-- The first or the last part of each source. -/
def part (utility : String) (isHead : Bool) (vs : List Value) : Effect Nat := do
  let a := Arguments.ofList "nc" vs
  let amount (v : Value) : Char × Nat :=
    match v with
    | '+' :: ds => ('+', (Value.nat? ds).getD 0)
    | '-' :: ds => ('-', (Value.nat? ds).getD 0)
    | ds => (' ', (Value.nat? ds).getD 0)
  let cut (v : Value) : Value :=
    match a.value? 'c' with
    | some n =>
      let (sign, n) := amount n
      if isHead then v.take (if sign = '-' then v.length - n else n)
      else v.drop (if sign = '+' then n - 1 else v.length - n)
    | none =>
      let (sign, n) := amount ((a.value? 'n').getD ['1', '0'])
      if isHead then Line.first (sign = '-') n v else Line.last (sign = '+') n v
  let headed := 1 < a.operands.length
  let first := (a.operands.headD [])
  if isHead && a.operands = ["/dev/zero".toList] then
    put (List.replicate (((a.value? 'c').bind Value.nat?).getD 0) '\x00')
    return 0
  let head (name : Value) : Effect Unit := do
    if headed then
      put (if name = first then [] else ['\n'])
      putLine ("==> ".toList ++ name ++ " <==".toList)
  onEach (if a.operands.isEmpty then [['-']] else a.operands) fun name => do
    match ← read name with
    | .ok v =>
      head name
      put (cut v)
      return 0
    | .error .isDirectory =>
      head name
      report utility ("error reading " ++ quoted name ++ ": " ++ FileError.isDirectory.text)
      return 1
    | .error e =>
      report utility ("cannot open " ++ quoted name ++ " for reading: " ++ e.text)
      return 1

/-- The parts of a value between separators. -/
def fields (separator : Char) (v : Value) : List Value := Text.splitOn separator v

def grep (vs : List Value) : Effect Nat := do
  let a := Arguments.ofList "em" vs
  let (expressions, operands) :=
    match a.value? 'e', a.operands with
    | some e, operands => ([e], operands)
    | none, e :: operands => ([e], operands)
    | none, [] => ([], [])
  let lower (v : Value) : Value := if a.has 'i' then v.map Char.toLower else v
  let alternatives (e : Value) : List Value := if a.has 'E' then fields '|' e else [e]
  let es := (expressions.flatMap fun e =>
    ((Line.withEnds e).map Line.body).flatMap alternatives).map fun e =>
    Line.expression (a.has 'F') (lower e)
  let es := if es.isEmpty then [Line.expression true []] else es
  let found (line : Value) : Bool :=
    es.any (fun e => e.matches (lower (Line.body line))) != a.has 'v'
  let label (name : Value) : Value :=
    if 1 < operands.length && !a.has 'h' then name ++ [':'] else []
  let before := (← getThe State).frame.status
  modifyFrame fun f => { f with status := 1 }
  let failure ← onSources "grep" 2 operands unread fun name v => do
    let lines := Line.withEnds v
    let hits := (lines.zipIdx 1).filter fun (l, _) => found l
    if !hits.isEmpty then modifyFrame fun f => { f with status := 0 }
    if a.has 'q' then return
    if a.has 'c' then putLine (label name ++ Value.ofNat hits.length)
    else if a.has 'l' then if !hits.isEmpty then putLine name
    else
      for (l, k) in hits do
        let number := if a.has 'n' then Value.ofNat k ++ [':'] else []
        if a.has 'o' then
          for p in es.flatMap fun e => e.parts true (l.length + 1) (Line.body l) do
            if p ≠ [] then putLine (label name ++ number ++ p)
        else putLine (label name ++ number ++ Line.body l)
  let status := (← frame).status
  modifyFrame fun f => { f with status := before }
  return if failure ≠ 0 then failure else status

def sort (vs : List Value) : Effect Nat := do
  let a := Arguments.ofList "kt" vs
  let gather : List Value → Effect Value := fun names =>
    names.foldlM
      (fun all name => do
        match ← read name with
        | .ok v => return all ++ v
        | .error _ => return all)
      []
  let v ← gather (if a.operands.isEmpty then [['-']] else a.operands)
  let lines := (Line.withEnds v).map Line.body
  let key (l : Value) : Int := (Print.numberOf (l.dropWhile (· = ' '))).1
  let before (v w : Value) : Bool :=
    if a.has 'n' ∧ key v ≠ key w then key v < key w else v.isUpTo w
  let sorted := lines.mergeSort before
  let sorted := if a.has 'r' then sorted.reverse else sorted
  let sorted := if a.has 'u' then sorted.eraseDups else sorted
  sorted.forM putLine
  return 0

/-- Equal neighbours with their number. -/
def runs : List Value → List (Nat × Value)
  | [] => []
  | l :: ls =>
    match runs ls with
    | (n, m) :: rest => if l = m then (n + 1, m) :: rest else (1, l) :: (n, m) :: rest
    | [] => [(1, l)]

/-- The message of a utility that tells reading from opening. -/
def misread (name : Value) (e : FileError) : String :=
  if e = .isDirectory then "error reading " ++ quoted name ++ ": " ++ e.text else unread name e

def uniq (vs : List Value) : Effect Nat := do
  let a := Arguments.ofList "" vs
  onSources "uniq" 1 a.operands misread fun _ v =>
    (runs ((Line.withEnds v).map Line.body)).forM fun (n, l) =>
      if a.has 'd' && n = 1 || a.has 'u' && n ≠ 1 then return
      else putLine (if a.has 'c' then Line.field 7 n ++ ' ' :: l else l)

/-- The positions that a list of numbers and ranges selects. -/
def selects (list : Value) (n : Nat) : Bool :=
  (fields ',' list).any fun r =>
    match fields '-' r with
    | [a] => Value.nat? a = some n
    | [a, b] => (Value.nat? a).getD 1 ≤ n && (Value.nat? b).all fun m => n ≤ m
    | _ => false

def cut (vs : List Value) : Effect Nat := do
  let a := Arguments.ofList "dfcb" vs
  let separator := ((a.value? 'd').bind List.head?).getD '\t'
  let kept {α : Type} (list : Value) (xs : List α) : List α :=
    ((xs.zipIdx 1).filter fun (_, n) => selects list n).map (·.1)
  onSources "cut" 1 a.operands unread fun _ v =>
    ((Line.withEnds v).map Line.body).forM fun l =>
      match a.value? 'f', (a.value? 'c').or (a.value? 'b') with
      | some list, _ =>
        if l.contains separator then
          putLine ([separator].intercalate (kept list (fields separator l)))
        else if a.has 's' then return
        else putLine l
      | none, some list => putLine (kept list l)
      | none, none => putLine l

def seq (vs : List Value) : Effect Nat := do
  let ns := vs.map fun v => (Print.numberOf v).1
  let (start, step, stop) : Int × Int × Int :=
    match ns with
    | [n] => (1, 1, n)
    | [a, b] => (a, 1, b)
    | [a, s, b] => (a, s, b)
    | _ => (1, 1, 0)
  let count := if step = 0 then 0 else ((stop - start).fdiv step + 1).toNat
  put ((List.range count).flatMap fun (k : Nat) => (toString (start + step * k)).toList ++ ['\n'])
  return 0

/-- The last part of a path. -/
def lastPart (v : Value) : Value :=
  match ((fields '/' v).filter (· ≠ [])).getLast? with
  | some p => p
  | none => v.take 1

def basename (vs : List Value) : Effect Nat := do
  let name := lastPart (vs.headD [])
  let ending := (vs.drop 1).headD []
  putLine (if ending.isSuffixOf name && ending.length < name.length then
    name.take (name.length - ending.length) else name)
  return 0

def dirname (vs : List Value) : Effect Nat := do
  let v := vs.headD []
  let parts := (fields '/' v).filter (· ≠ [])
  let start : Value := if v.head? = some '/' then ['/'] else []
  let rest := ['/'].intercalate parts.dropLast
  putLine (if start = [] ∧ rest = [] then ['.'] else start ++ rest)
  return 0

/-! ## Others -/

/-- The length of a pause: seconds that may have decimal places, or other units by a letter. -/
def pause? (v : Value) : Option Nat :=
  let (v, unit) : Value × Nat :=
    match v.getLast? with
    | some 's' => (v.dropLast, 1)
    | some 'm' => (v.dropLast, 60)
    | some 'h' => (v.dropLast, 3600)
    | some 'd' => (v.dropLast, 86400)
    | _ => (v, 1)
  if v = "infinity".toList then some 1000000000000000000000000000000
  else
    match fields '.' v with
    | [n] => (Value.nat? n).map (· * unit * 1000000000)
    | [n, d] => do
      if n = [] ∧ d = [] then none
      let whole ← if n = [] then some 0 else Value.nat? n
      let part ← if d = [] then some 0 else Value.nat? (d.take 9)
      return (whole * 1000000000 + part * Nat.pow 10 (9 - (d.take 9).length)) * unit
    | _ => none

def sleep (vs : List Value) : Effect Nat := do
  if vs.isEmpty then return ← missing "sleep" "operand"
  match vs.find? fun v => (pause? v).isNone with
  | some v =>
    report "sleep" ("invalid time interval " ++ quoted v ++
      "\nTry 'sleep --help' for more information.")
    return 1
  | none =>
    spend (vs.foldr (fun v n => (pause? v).getD 0 + n) 0)
    return 0

def printenv (vs : List Value) : Effect Nat := do
  onEach vs fun v => do
    let f ← frame
    let name := v.toText
    match if f.exported.contains name then f.bindings.lookup name else none with
    | some value =>
      putLine value
      return 0
    | none => return 1

def table : List (String × (List Value → Effect Nat)) :=
  [("cat", cat), ("ls", ls), ("mkdir", mkdir), ("rmdir", rmdir), ("rm", rm), ("touch", touch),
    ("cp", transfer "cp" true), ("mv", transfer "mv" false), ("chmod", chmod), ("tee", tee),
    ("wc", wc), ("tr", tr), ("head", part "head" true), ("tail", part "tail" false),
    ("grep", grep), ("sort", sort), ("uniq", uniq), ("cut", cut), ("seq", seq),
    ("basename", basename), ("dirname", dirname), ("sleep", sleep), ("printenv", printenv),
    ("true", fun _ => return 0), ("false", fun _ => return 1),
    ("echo", fun vs => do
      put (Print.echoedPlainly vs)
      return 0),
    ("printf", fun vs => do
      let (out, complaints, status) := Print.printed (vs.headD []) (vs.drop 1)
      put out
      complaints.forM (report "printf")
      return min status 1)]

/-- What a command name of a script stands for. -/
inductive Program where
  | utility (run : List Value → Effect Nat)
  | shell
  /-- A program that starts another one in an environment. -/
  | env
  | notFound
  /-- What is there is no program. -/
  | notExecutable
  /-- The name leads nowhere for another reason than that there is nothing. -/
  | unreachable (why : FileError)

/-- Where programs are looked for unless a script says otherwise. -/
def usualSearchPath : Value := "/usr/local/bin:/usr/bin:/bin".toList

def programAt (files : Files) (directory : Path) (text : String) : Program :=
  match files.find directory text with
  | .ok (p, .program) =>
    match p.getLast? with
    | some "sh" | some "dash" => .shell
    | some "env" => .env
    | some name => ((table.lookup name).map Program.utility).getD .notFound
    | none => .notFound
  | .ok _ => .notExecutable
  | .error .missing | .error .notDirectory => .notFound
  | .error e => .unreachable e

/-- The texts of the paths at which a name is looked for. Without a slash in it, these are below the
directories that the search path lists; without one there is nowhere to look. -/
def candidates (searchPath : Option Value) (name : Value) : List Value :=
  if name.contains '/' then [name]
  else
    match searchPath with
    | none => []
    | some ds => (fields ':' ds).map fun d => if d = [] then name else d ++ '/' :: name

/-- Whether something that can be run has been found. -/
def Program.isFound : Program → Bool
  | utility _ | shell | env => true
  | notFound | notExecutable | unreachable _ => false

/-- The program at the first of some paths that has one, or else what came closest to one. -/
def first (files : Files) (directory : Path) : List Value → Program
  | [] => .notFound
  | c :: cs =>
    let here := programAt files directory c.toText
    if here.isFound then here
    else
      match here, first files directory cs with
      | .notFound, later => later
      | here, .notFound => here
      | _, later => later

def program (files : Files) (directory : Path) (searchPath : Option Value) (name : Value) :
    Program :=
  first files directory (candidates searchPath name)

def location? (files : Files) (directory : Path) (searchPath : Option Value) (name : Value) :
    Option Value :=
  (candidates searchPath name).find? fun c => (programAt files directory c.toText).isFound

end ScriptFuzz.Shell.Utility
