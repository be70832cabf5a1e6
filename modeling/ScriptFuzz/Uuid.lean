import ScriptFuzz.Text.Hex

/-!
# Identifiers

Programs are identified by numbers of 128 bits, written as hexadecimal digits in groups. Fresh
identifiers come from a supply: they carry a mark in their upper half and a serial number in their
lower half.
-/

namespace ScriptFuzz

set_option autoImplicit false

open ScriptFuzz.Text

/-- An identifier. -/
structure Uuid where
  value : BitVec 128
deriving DecidableEq, Inhabited

namespace Uuid

/-- The digits of the identifier, most significant first. -/
def digits (u : Uuid) : List Char := Hex.digits 32 u.value.toNat

/-- The lengths of the groups that hyphens separate. -/
def groups : List Nat := [8, 4, 4, 4, 12]

/-- The digits in groups with hyphens between them. -/
def hyphenate : List Nat → List Char → List Char
  | [], ds => ds
  | [_], ds => ds
  | n :: ns, ds => ds.take n ++ '-' :: hyphenate ns (ds.drop n)

/-- The identifier in its usual form: lower-case digits in five groups. -/
def text (u : Uuid) : String := String.ofList (hyphenate groups u.digits)

/-- The digits of groups that are separated by hyphens. -/
def ungroup : List Nat → List Char → Option (List Char)
  | [], _ => none
  | [n], cs => if cs.length = n then some cs else none
  | n :: ns, cs =>
    match cs.drop n with
    | '-' :: rest => (ungroup ns rest).map (cs.take n ++ ·)
    | _ => none

/-- The identifier with the given 32 digits. -/
def ofDigits? (ds : List Char) : Option Uuid :=
  if ds.length = 32 then (Hex.number? ds).map fun n => ⟨BitVec.ofNat 128 n⟩ else none

/-- The identifier in one of its written forms: digits alone, digits in groups, and groups in braces
or after a name space. Digits of either case are read. -/
def ofText? (s : String) : Option Uuid :=
  let cs := s.toList
  let grouped :=
    match cs with
    | '{' :: rest => if rest.getLast? = some '}' then some rest.dropLast else none
    | 'u' :: 'r' :: 'n' :: ':' :: 'u' :: 'u' :: 'i' :: 'd' :: ':' :: rest => some rest
    | _ => some cs
  if cs.length = 32 then ofDigits? cs
  else grouped.bind fun g => (ungroup groups g).bind ofDigits?

/-- The sixteen bytes of the identifier, most significant first. -/
def bytes (u : Uuid) : List UInt8 :=
  (List.range 16).map fun i => UInt8.ofNat (u.value.toNat >>> (8 * (15 - i)))

/-- The identifier with the given bytes. -/
def ofBytes? (bs : List UInt8) : Option Uuid :=
  if bs.length = 16 then
    some ⟨BitVec.ofNat 128 (bs.foldl (fun n b => n * 256 + b.toNat) 0)⟩
  else none

/-- The upper half of every identifier of the supply. -/
def mark : Nat := 0x5cf1bd0e07a24b6d

def fresh (serial : Nat) : Uuid :=
  ⟨BitVec.ofNat 128 (mark * 0x10000000000000000 + (0x8000000000000000 + serial % 0x4000000000000000))⟩

end Uuid

end ScriptFuzz
