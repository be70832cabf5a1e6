import ScriptFuzz.Program.Load
import ScriptFuzz.Text.Utf8

/-!
# The wire format

Fixed-width fields, least significant byte first; lengths are written in eight bytes and the number
of a variant in four. A `Writer` is a function from values to bytes, and a `Reader` takes a value
from the front of a byte string.
-/

namespace ScriptFuzz.Wire

set_option autoImplicit false

open ScriptFuzz.Text

/-- The lowest `width` bytes of a number, least significant first. -/
def word : Nat → Nat → List UInt8
  | 0, _ => []
  | width + 1, n => UInt8.ofNat n :: word width (n / 256)

/-- The number with the given bytes, least significant first. -/
def ofWord : List UInt8 → Nat
  | [] => 0
  | b :: bs => b.toNat + 256 * ofWord bs

def count (n : Nat) : List UInt8 := word 8 n

def variant (n : Nat) : List UInt8 := word 4 n

def bool (b : Bool) : List UInt8 := [if b then 1 else 0]

def text (s : String) : List UInt8 :=
  let bs := Utf8.encode s
  count bs.length ++ bs

def option {α : Type} (write : α → List UInt8) : Option α → List UInt8
  | none => [0]
  | some a => 1 :: write a

def list {α : Type} (write : α → List UInt8) (xs : List α) : List UInt8 :=
  count xs.length ++ xs.flatMap write

/-- Takes a value from the front of a byte string. -/
abbrev Reader (α : Type) := StateT (List UInt8) (Except LoadError) α

namespace Reader

def refuse {α : Type} : Reader α := throw .malformed

/-- The next `n` bytes. -/
def bytes (n : Nat) : Reader (List UInt8) := fun bs =>
  let taken := bs.take n
  if taken.length = n then .ok (taken, bs.drop n) else .error .malformed

def word (width : Nat) : Reader Nat := ofWord <$> bytes width

def count : Reader Nat := word 8

def variant : Reader Nat := word 4

def bool : Reader Bool := do
  match ← word 1 with
  | 0 => return false
  | 1 => return true
  | _ => refuse

def text : Reader String := do
  match Utf8.decode? (← bytes (← count)) with
  | some cs => return String.ofList cs
  | none => refuse

def option {α : Type} (read : Reader α) : Reader (Option α) := do
  match ← word 1 with
  | 0 => return none
  | 1 => some <$> read
  | _ => refuse

/-- `n` values one after the other. -/
def many {α : Type} (read : Reader α) : Nat → Reader (List α)
  | 0 => return []
  | n + 1 => do
    let a ← read
    return a :: (← many read n)

def list {α : Type} (read : Reader α) : Reader (List α) := do many read (← count)

/-- The member of a list at the position that comes next. -/
def member {α : Type} (all : List α) : Reader α := do
  match all[← variant]? with
  | some a => return a
  | none => refuse

end Reader

end ScriptFuzz.Wire
