/-!
# UTF-8

Characters as bytes and back. `Utf8.scan` reads one character from the front of a byte string, or
tells how many bytes of it form a maximal invalid part; `decode?` refuses an invalid part and
`decodeLossy` puts a replacement character in the place of each.
-/

namespace ScriptFuzz.Text.Utf8

set_option autoImplicit false

def encode (s : String) : List UInt8 := s.toList.flatMap String.utf8EncodeChar

/-- The range in which the second byte of a character with the given first byte lies, and the
number of bytes after the second; `none` if the byte starts no character of several bytes. -/
def secondByte (b : Nat) : Option ((Nat × Nat) × Nat) :=
  if 0xc2 ≤ b ∧ b ≤ 0xdf then some ((0x80, 0xbf), 0)
  else if b = 0xe0 then some ((0xa0, 0xbf), 1)
  else if b = 0xed then some ((0x80, 0x9f), 1)
  else if 0xe1 ≤ b ∧ b ≤ 0xef then some ((0x80, 0xbf), 1)
  else if b = 0xf0 then some ((0x90, 0xbf), 2)
  else if 0xf1 ≤ b ∧ b ≤ 0xf3 then some ((0x80, 0xbf), 2)
  else if b = 0xf4 then some ((0x80, 0x8f), 2)
  else none

/-- The value bits of the first byte of a character with `after` bytes after the second. -/
def leadBits (b after : Nat) : Nat := b % (1 <<< (5 - after))

/-- Reads continuation bytes: the code point and the number of bytes read, or the number of bytes
that belong to the broken character. -/
def continuation : Nat → Nat → Nat → List UInt8 → Option Char × Nat
  | 0, code, used, _ => (some (Char.ofNat code), used)
  | _ + 1, _, used, [] => (none, used)
  | n + 1, code, used, b :: bs =>
    if 0x80 ≤ b.toNat ∧ b.toNat ≤ 0xbf then
      continuation n (code * 64 + b.toNat % 64) (used + 1) bs
    else (none, used)

/-- The character that starts with the byte `b`, or `none`, and the number of bytes it takes from
those that follow. -/
def scan (b : UInt8) (bs : List UInt8) : Option Char × Nat :=
  if b.toNat < 0x80 then (some (Char.ofNat b.toNat), 0)
  else
    match secondByte b.toNat, bs with
    | some ((lo, hi), after), c :: cs =>
      if lo ≤ c.toNat ∧ c.toNat ≤ hi then
        continuation after (leadBits b.toNat after * 64 + c.toNat % 64) 1 cs
      else (none, 0)
    | _, _ => (none, 0)

/-- The text with these bytes, if they are the bytes of a text. -/
def decode? : List UInt8 → Option (List Char)
  | [] => some []
  | b :: bs =>
    match scan b bs with
    | (none, _) => none
    | (some c, used) => (decode? (bs.drop used)).map (c :: ·)
termination_by bs => bs.length
decreasing_by simp only [List.length_drop, List.length_cons]; omega

/-- The text with these bytes, with one replacement character for each maximal invalid part. -/
def decodeLossy : List UInt8 → List Char
  | [] => []
  | b :: bs =>
    let (c, used) := scan b bs
    c.getD '\ufffd' :: decodeLossy (bs.drop used)
termination_by bs => bs.length
decreasing_by simp only [List.length_drop, List.length_cons]; omega

end ScriptFuzz.Text.Utf8
