import ScriptFuzz.Text.Lines

/-!
# Paths

A path is the list of the names on the way from the root. What stands at its end is a node. The text
of a path is another thing: it may go through directories and back, and it may lead nowhere.
-/

namespace ScriptFuzz

set_option autoImplicit false

/-- The names on the way from the root to a file. -/
abbrev Path := List String

namespace Path

/-- The parts of the text of a path that are not empty. -/
def parts (text : String) : List String :=
  ((Text.splitOn '/' text.toList).filter (· ≠ [])).map String.ofList

/-- The path that a text names, seen from a directory, if every name on the way is a directory. -/
def resolve (directory : Path) (text : String) : Path :=
  (parts text).foldl
    (fun path part =>
      if part = "." then path else if part = ".." then path.dropLast else path ++ [part])
    (if text.startsWith "/" then [] else directory)

def text (p : Path) : String := "/" ++ "/".intercalate p

/-- The text of a path below the path with the text `directory`. -/
def join (directory name : String) : String :=
  if directory = "" ∨ name.startsWith "/" then name
  else if directory.endsWith "/" then directory ++ name
  else directory ++ "/" ++ name

/-- The greatest number of bytes in a name, and in the text of a path. -/
def longestName : Nat := 255
def longestText : Nat := 4095

end Path

/-- What a path leads to. -/
inductive Node where
  | directory
  | file (number : Nat)
  /-- A program of the machine. -/
  | program
  /-- A file at which nothing is kept. -/
  | device (name : String)
deriving DecidableEq, Repr

/-- Why files are not found or not changed. -/
inductive FileError where
  | missing
  | notDirectory
  | isDirectory
  | occupied
  | notEmpty
  | busy
  | tooLong
  /-- The text holds a zero, which no path does. -/
  | malformed
deriving DecidableEq, Repr

def FileError.text : FileError → String
  | missing => "No such file or directory"
  | notDirectory => "Not a directory"
  | isDirectory => "Is a directory"
  | occupied => "File exists"
  | notEmpty => "Directory not empty"
  | busy => "Text file busy"
  | tooLong => "File name too long"
  | malformed => "Invalid argument"

/-- What the text of a path leads to: something that is there, or a place that is still free. -/
inductive Place where
  | taken (path : Path) (node : Node)
  /-- Where the text ends in a slash, only a directory fits in. -/
  | free (path : Path) (onlyDirectory : Bool)
deriving DecidableEq, Repr

end ScriptFuzz
