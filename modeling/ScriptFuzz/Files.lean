import ScriptFuzz.Files.Machine
import ScriptFuzz.Ordered
import ScriptFuzz.Text.Utf8

/-!
# Files

A tree of directories and files above that of the machine. A file is a number under which its
content is kept, and a path leads to a number: a file that has lost its path keeps its content for
whoever has it open.
-/

namespace ScriptFuzz

set_option autoImplicit false

/-- The content of a file. -/
abbrev Bytes := List UInt8

/-- A tree of files. -/
structure Files where
  /-- What was added to the machine, by paths without links in ascending order. -/
  entries : List (Path × Node) := []
  contents : Array Bytes := #[]
deriving Inhabited

namespace Files

/-- What is at a path without links. -/
def node? (fs : Files) (p : Path) : Option Node := (fs.entries.lookup p).or (Machine.node? p)

def isDirectory (fs : Files) (p : Path) : Bool := fs.node? p = some .directory

/-! ## Contents -/

def content (fs : Files) (number : Nat) : Bytes := fs.contents[number]?.getD []

def setContent (fs : Files) (number : Nat) (b : Bytes) : Files :=
  { fs with contents := fs.contents.setIfInBounds number b }

/-- Keeps a content that no path leads to; gives its number. -/
def keep (fs : Files) (b : Bytes) : Nat × Files :=
  (fs.contents.size, { fs with contents := fs.contents.push b })

/-- The content with `b` written at an offset; a gap is filled with zeros. -/
def overwrite (old : Bytes) (offset : Nat) (b : Bytes) : Bytes :=
  old.take offset ++ List.replicate (offset - old.length) 0 ++ b ++ old.drop (offset + b.length)

/-! ## Following the texts of paths -/

/-- Follows the parts of a path from a directory. Where the way is closed by a slash, its end must
not be a file. -/
def walk (fs : Files) (closed : Bool) : Path → List String → Except FileError Place
  | here, [] => .ok (.taken here .directory)
  | here, part :: rest =>
    if Path.longestName < part.utf8ByteSize then .error .tooLong
    else if part = "." then walk fs closed here rest
    else if part = ".." then walk fs closed here.dropLast rest
    else
      let p := Machine.physical (here ++ [part])
      match fs.node? p with
      | some .directory => walk fs closed p rest
      | some n => if rest.isEmpty && !closed then .ok (.taken p n) else .error .notDirectory
      | none => if rest.isEmpty then .ok (.free p closed) else .error .missing

/-- Why a text is the text of no path at all. -/
def flaw? (text : String) : Option FileError :=
  if text.contains (Char.ofNat 0) then some .malformed
  else if text = "" then some .missing
  else if Path.longestText < text.utf8ByteSize then some .tooLong
  else none

/-- Where the way of a text begins. -/
def origin (directory : Path) (text : String) : Path :=
  if text.startsWith "/" then [] else Machine.physical directory

/-- What the text of a path leads to, seen from a directory. -/
def lookup (fs : Files) (directory : Path) (text : String) : Except FileError Place :=
  match flaw? text with
  | some e => .error e
  | none => fs.walk (text.endsWith "/") (origin directory text) (Path.parts text)

def find (fs : Files) (directory : Path) (text : String) : Except FileError (Path × Node) := do
  match ← fs.lookup directory text with
  | .taken p n => return (p, n)
  | .free _ _ => throw .missing

/-- The directory at the end of the way. -/
def findDirectory (fs : Files) (directory : Path) (text : String) : Except FileError Path := do
  match ← fs.find directory text with
  | (p, .directory) => return p
  | _ => throw .notDirectory

/-- The content of the file at the end of the way. -/
def read (fs : Files) (directory : Path) (text : String) : Except FileError Bytes := do
  match ← fs.find directory text with
  | (_, .file n) => return fs.content n
  | (_, .directory) => throw .isDirectory
  | (_, .device _) | (_, .program) => return []

/-- The text in the file at the end of the way, if its content is a text. -/
def readText? (fs : Files) (directory : Path) (text : String) : Option String :=
  match fs.read directory text with
  | .ok b => (Text.Utf8.decode? b).map String.ofList
  | .error _ => none

/-! ## Changes -/

/-- An operation that may change files; what it changed before an error stays. -/
abbrev Change := ExceptT FileError (StateM Files)

/-- Puts a node where nothing is. -/
def add (fs : Files) (p : Path) (n : Node) : Except FileError Files :=
  if fs.isDirectory p.dropLast then .ok { fs with entries := Ordered.put p n fs.entries }
  else .error .missing

/-- The file at the end of the way, which is created if there is none: its number, or nothing for
a device. -/
def create (directory : Path) (text : String) : Change (Option Nat) := do
  let fs ← getThe Files
  match ← liftExcept (fs.lookup directory text) with
  | .taken _ (.file n) => return some n
  | .taken _ (.device _) => return none
  | .taken _ .directory | .free _ true => throw .isDirectory
  | .taken _ .program => throw .busy
  | .free p false =>
    let (n, fs) := fs.keep []
    set (← liftExcept (fs.add p (.file n)))
    return some n

/-- Makes `b` the content of the file at the end of the way. -/
def write (directory : Path) (text : String) (b : Bytes) : Change Unit := do
  if let some n ← create directory text then modifyThe Files (·.setContent n b)

/-- Makes a text the content of the file at the end of the way. -/
def writeText (directory : Path) (text content : String) : Change Unit :=
  write directory text (Text.Utf8.encode content)

/-- Adds a directory where nothing is. -/
def makeDirectory (directory : Path) (text : String) : Change Unit := do
  let fs ← getThe Files
  match ← liftExcept (fs.lookup directory text) with
  | .taken _ _ => throw .occupied
  | .free p _ => set (← liftExcept (fs.add p .directory))

/-- Goes a way and adds the directories that are missing on it. -/
def makeWay : Path → List String → Change Unit
  | _, [] => return
  | here, part :: rest => do
    let fs ← getThe Files
    match ← liftExcept (fs.walk false here [part]) with
    | .taken p .directory => makeWay p rest
    | .taken _ _ => throw (if rest.isEmpty then .occupied else .notDirectory)
    | .free p _ =>
      set (← liftExcept (fs.add p .directory))
      makeWay p rest

/-- Adds the directories that are missing on a way and at its end. -/
def makeDirectories (directory : Path) (text : String) : Change Unit := do
  match flaw? text with
  | some .missing => return
  | some e => throw e
  | none => makeWay (origin directory text) (Path.parts text)

/-- Takes a path away, and all paths below it. -/
def remove (fs : Files) (p : Path) : Files :=
  { fs with entries := fs.entries.filter fun (q, _) => !p.isPrefixOf q }

/-- Takes away the file at the end of the way. -/
def removeFile (directory : Path) (text : String) : Change Unit := do
  let fs ← getThe Files
  match ← liftExcept (fs.find directory text) with
  | (_, .directory) => throw .isDirectory
  | (p, _) => set (fs.remove p)

/-- Takes away the directory at the end of the way with all that is in it. If the text does not end
in the name of the directory, only what is in it goes away. -/
def removeDirectory (directory : Path) (text : String) : Change Unit := do
  let fs ← getThe Files
  let p ← liftExcept (fs.findDirectory directory text)
  match (Path.parts text).getLast? with
  | none | some "." | some ".." =>
    set { fs with entries := fs.entries.filter fun (q, _) => q = p || !p.isPrefixOf q }
    throw .occupied
  | some _ => set (fs.remove p)

/-! ## Views -/

/-- What is below a path, with the rest of its path. -/
def below (fs : Files) (p : Path) : List (Path × Node) :=
  fs.entries.filterMap fun (q, n) =>
    if p.isPrefixOf q && p.length < q.length then some (q.drop p.length, n) else none

def names (fs : Files) (p : Path) : List String :=
  (fs.below p).filterMap fun (q, _) =>
    match q with
    | [name] => some name
    | _ => none

/-- The files below a path with their contents. -/
def filesBelow (fs : Files) (p : Path) : List (Path × Bytes) :=
  (fs.below p).filterMap fun (q, n) =>
    match n with
    | .file number => some (q, fs.content number)
    | _ => none

/-- The files below a path as texts, each with the text of the rest of its path. -/
def textsBelow (fs : Files) (p : Path) : List (String × String) :=
  (fs.filesBelow p).map fun (q, b) =>
    ("/".intercalate q, String.ofList (Text.Utf8.decodeLossy b))

/-- A directory with files that hold the given texts. What cannot be added is left out. -/
def ofTexts (p : Path) (texts : List (String × String)) : Files :=
  let fill : Change Unit := do
    makeWay [] p
    for (name, text) in texts do
      let added : Change Unit := do
        makeWay p ((Path.parts name).dropLast)
        writeText p name text
      let _ ← (added.run : StateM Files _)
  (fill.run.run {}).2

end Files

end ScriptFuzz
