import ScriptFuzz.Json.Value
import ScriptFuzz.Text.Hex

/-!
# Texts inside JSON strings

`encode` writes a text as the body of a string and `decode?` reads a body back. A body that escapes
a surrogate outside a pair is well formed but holds no text.
-/

namespace ScriptFuzz.Json

set_option autoImplicit false

open ScriptFuzz.Text

/-- A character as it stands in a string. Quote, backslash and the controls are escaped; every other
character stands for itself. -/
def encodeChar (c : Char) : List Char :=
  match c with
  | '"' => ['\\', '"']
  | '\\' => ['\\', '\\']
  | '\x08' => ['\\', 'b']
  | '\x0c' => ['\\', 'f']
  | '\n' => ['\\', 'n']
  | '\r' => ['\\', 'r']
  | '\t' => ['\\', 't']
  | c => if c.toNat < 0x20 then '\\' :: 'u' :: Hex.digits 4 c.toNat else [c]

/-- The body of the string that holds a text. -/
def encode (cs : List Char) : List Char := cs.flatMap encodeChar

/-- The character named by a one-letter escape. -/
def escaped? : Char → Option Char
  | '"' => some '"'
  | '\\' => some '\\'
  | '/' => some '/'
  | 'b' => some '\x08'
  | 'f' => some '\x0c'
  | 'n' => some '\n'
  | 'r' => some '\r'
  | 't' => some '\t'
  | _ => none

/-- The code point of a pair of surrogates. -/
def pair? (high low : Nat) : Option Char :=
  if 0xd800 ≤ high ∧ high < 0xdc00 ∧ 0xdc00 ≤ low ∧ low < 0xe000 then
    some (Char.ofNat (0x10000 + (high - 0xd800) * 0x400 + (low - 0xdc00)))
  else none

/-- Whether a sixteen-bit unit is a surrogate. -/
def isSurrogate (n : Nat) : Bool := 0xd800 ≤ n && n < 0xe000

/-- The text that the body of a string holds. -/
def decode? : List Char → Option (List Char)
  | [] => some []
  | '\\' :: 'u' :: a :: b :: c :: d :: cs => do
    let n ← Hex.number? [a, b, c, d]
    if isSurrogate n then
      match cs with
      | '\\' :: 'u' :: e :: f :: g :: h :: cs =>
        let m ← Hex.number? [e, f, g, h]
        let ch ← pair? n m
        return ch :: (← decode? cs)
      | _ => none
    else return Char.ofNat n :: (← decode? cs)
  | '\\' :: e :: cs => do
    let ch ← escaped? e
    return ch :: (← decode? cs)
  | c :: cs => do return c :: (← decode? cs)

def ofText (s : String) : Json := .string (encode s.toList)

def text? : Json → Option String
  | .string body => (decode? body).map String.ofList
  | _ => none

end ScriptFuzz.Json
