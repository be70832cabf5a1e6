import ScriptFuzz.Text.Utf8

/-!
# Endpoints

An endpoint is the URI to which traces are sent: a scheme and an authority with a path and a query,
or one of these parts alone. Nothing is said about whether someone listens there.
-/

namespace ScriptFuzz.CommandLine

set_option autoImplicit false

/-- Why a text is the URI of no endpoint. -/
inductive UriError where
  | empty
  | tooLong
  | longScheme
  | character
  | authority
  | format
deriving DecidableEq, Repr

def UriError.text : UriError → String
  | empty => "empty string"
  | tooLong => "uri too long"
  | longScheme => "scheme too long"
  | character => "invalid uri character"
  | authority => "invalid authority"
  | format => "invalid format"

namespace Endpoint

/-- The bytes of a text, each as the character of its number. -/
def bytes (s : String) : List Char := (Text.Utf8.encode s).map fun b => Char.ofNat b.toNat

/-- The greatest number of bytes in a URI, and in its scheme. -/
def longest : Nat := 65534
def longestScheme : Nat := 64

def isSchemeCharacter (c : Char) : Bool := c.isAlphanum || c ∈ ['+', '-', '.']

/-- Whether a character may stand in an authority or ends it. -/
def isAuthorityCharacter (c : Char) : Bool := c.isAlphanum || "!#$&'()*+,-./:;=?@[]_~".contains c

def endsAuthority (c : Char) : Bool := c ∈ ['/', '?', '#']

/-- Whether a character may stand in a path, or in a query. -/
def isPathCharacter (c : Char) : Bool := '!' ≤ c && !"#<>?`".contains c
def isQueryCharacter (c : Char) : Bool := '!' ≤ c && !"\"#<>".contains c

/-- What is behind the scheme, if there is one. -/
def afterScheme? (cs : List Char) : Except UriError (Option (List Char)) :=
  let known := ["http", "https"].find? fun scheme =>
    (scheme ++ "://").toList.isPrefixOf (cs.map Char.toLower)
  match known with
  | some scheme => .ok (some (cs.drop (scheme.length + 3)))
  | none =>
    let scheme := cs.takeWhile isSchemeCharacter
    match cs.drop scheme.length with
    | ':' :: '/' :: '/' :: rest =>
      if cs.length ≤ 3 then .ok none
      else if longestScheme < scheme.length then .error .longScheme
      else .ok (some rest)
    | _ => .ok none

/-- What has been read of an authority. -/
structure Authority where
  /-- The colons that may stand before a port. -/
  colons : Nat := 0
  opened : Bool := false
  closed : Bool := false
  /-- Whether there is a percent sign in the name of a host. -/
  percent : Bool := false
  /-- Whether the last character ends the information about a user. -/
  endsUser : Bool := false

namespace Authority

/-- The number of colons in an address in brackets. -/
def mostColons : Nat := 8

def read (a : Authority) (c : Char) : Except UriError Authority :=
  let a := { a with endsUser := c = '@' }
  match c with
  | ':' => if mostColons ≤ a.colons then .error .authority else .ok { a with colons := a.colons + 1 }
  | '[' => if a.percent || a.opened then .error .authority else .ok { a with opened := true }
  | ']' =>
    if !a.opened || a.closed then .error .authority
    else .ok { a with closed := true, colons := 0, percent := false }
  | '@' => .ok { a with colons := 0, percent := false }
  | '%' => .ok { a with percent := true }
  | c => if isAuthorityCharacter c then .ok a else .error .character

/-- Whether the authority may end here. -/
def isComplete (a : Authority) : Bool :=
  a.opened == a.closed && a.colons ≤ 1 && !a.endsUser && !a.percent

end Authority

/-- What is behind the authority at the front of a text that is not empty. -/
def afterAuthority (cs : List Char) : Except UriError (List Char) := do
  if cs = [] then throw .empty
  let name := cs.takeWhile fun c => !endsAuthority c
  let a ← name.foldlM Authority.read {}
  if a.isComplete then return cs.drop name.length else throw .authority

/-- Checks a path with a query; what follows a number sign does not count. -/
def checkPath (cs : List Char) : Except UriError Unit :=
  let path := cs.takeWhile fun c => c ≠ '?' ∧ c ≠ '#'
  let query :=
    match cs.drop path.length with
    | '?' :: rest => rest.takeWhile (· ≠ '#')
    | _ => []
  if path.all isPathCharacter && query.all isQueryCharacter then .ok () else .error .character

def check (s : String) : Except UriError Unit := do
  let cs := bytes s
  if longest < cs.length then throw .tooLong
  match cs with
  | [] => throw .empty
  | ['/'] | ['*'] => return
  | [_] => if (← afterAuthority cs) ≠ [] then throw .character
  | '/' :: _ => checkPath cs
  | _ =>
    match ← afterScheme? cs with
    | none => if (← afterAuthority cs) ≠ [] then throw .format
    | some rest =>
      let path ← afterAuthority rest
      if path.length = rest.length then throw .format
      checkPath path

end Endpoint

end ScriptFuzz.CommandLine
