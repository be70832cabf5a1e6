import ScriptFuzz.Program.Json
import ScriptFuzz.Random.Draw

/-!
# The corpus

The programs that mutations start from. A program joins the corpus without the instructions that
serve the fuzzer itself, unless nothing is left.
-/

namespace ScriptFuzz

set_option autoImplicit false

/-- The programs in the order in which they joined. -/
structure Corpus where
  programs : List Program := []
deriving Inhabited

namespace Corpus

def size (c : Corpus) : Nat := c.programs.length

def add (c : Corpus) (p : Program) : Corpus :=
  let stripped := p.stripInternal
  if stripped.isEmpty then c else { programs := c.programs ++ [stripped] }

/-- A program to start from, if there is any. -/
def choose (c : Corpus) : Draw (Option Program) := Draw.choose c.programs

/-- The last part of a path. -/
def fileName (path : String) : List Char := (path.toList.reverse.takeWhile (· ≠ '/')).reverse

/-- Whether a file name has the extension of a program file. A name that starts with its only point
has no extension. -/
def isProgramFile (path : String) : Bool :=
  let name := fileName path
  let extension := (name.reverse.takeWhile (· ≠ '.')).reverse
  let stem := name.length - extension.length
  extension = "json".toList && 1 < stem

/-- Adds the program of a file, if it holds one, and counts it as read. A fault while the file is
read ends the loading. -/
def loadFile : Nat × Corpus → String × String → Except Fault (Nat × Corpus)
  | (n, c), (path, source) =>
    if isProgramFile path then
      match Program.ofJson source with
      | .ok p => .ok (n + 1, c.add p)
      | .error (.fault f) => .error f
      | .error _ => .ok (n, c)
    else .ok (n, c)

/-- Adds the programs of the files that hold one, in the order of their paths; gives the number of
programs that were read. -/
def load (c : Corpus) (files : List (String × String)) : Except Fault (Nat × Corpus) :=
  (Ordered.ofPairs files).foldlM loadFile (0, c)

end Corpus

end ScriptFuzz
