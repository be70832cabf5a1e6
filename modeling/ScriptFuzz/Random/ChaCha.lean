import ScriptFuzz.Random.Source

/-!
# Seeded random sources

The stream of a seed is the key stream of the ChaCha cipher with eight rounds, for a key that is
expanded from the seed. A block of sixteen words is computed from the key and the block's number
alone, so the word at a position needs no earlier word.
-/

namespace ScriptFuzz.ChaCha

set_option autoImplicit false

/-- The state of the cipher: four rows of four words. -/
structure Block where
  a0 : UInt32
  a1 : UInt32
  a2 : UInt32
  a3 : UInt32
  b0 : UInt32
  b1 : UInt32
  b2 : UInt32
  b3 : UInt32
  c0 : UInt32
  c1 : UInt32
  c2 : UInt32
  c3 : UInt32
  d0 : UInt32
  d1 : UInt32
  d2 : UInt32
  d3 : UInt32

/-- Rotation of a word to the left by less than its width. -/
@[inline] def rotate (x : UInt32) (n : UInt32) : UInt32 := (x <<< n) ||| (x >>> (32 - n))

/-- The mixing step of the cipher on four words. -/
@[inline] def quarterRound (a b c d : UInt32) : UInt32 × UInt32 × UInt32 × UInt32 :=
  let a := a + b
  let d := rotate (d ^^^ a) 16
  let c := c + d
  let b := rotate (b ^^^ c) 12
  let a := a + b
  let d := rotate (d ^^^ a) 8
  let c := c + d
  let b := rotate (b ^^^ c) 7
  (a, b, c, d)

/-- A round on the columns and one on the diagonals. -/
def Block.doubleRound (s : Block) : Block :=
  let (a0, b0, c0, d0) := quarterRound s.a0 s.b0 s.c0 s.d0
  let (a1, b1, c1, d1) := quarterRound s.a1 s.b1 s.c1 s.d1
  let (a2, b2, c2, d2) := quarterRound s.a2 s.b2 s.c2 s.d2
  let (a3, b3, c3, d3) := quarterRound s.a3 s.b3 s.c3 s.d3
  let (a0, b1, c2, d3) := quarterRound a0 b1 c2 d3
  let (a1, b2, c3, d0) := quarterRound a1 b2 c3 d0
  let (a2, b3, c0, d1) := quarterRound a2 b3 c0 d1
  let (a3, b0, c1, d2) := quarterRound a3 b0 c1 d2
  { a0, a1, a2, a3, b0, b1, b2, b3, c0, c1, c2, c3, d0, d1, d2, d3 }

/-- The words of a block in order. -/
def Block.words (s : Block) : List UInt32 :=
  [s.a0, s.a1, s.a2, s.a3, s.b0, s.b1, s.b2, s.b3, s.c0, s.c1, s.c2, s.c3, s.d0, s.d1, s.d2, s.d3]

/-- A key of eight words. -/
structure Key where
  k0 : UInt32
  k1 : UInt32
  k2 : UInt32
  k3 : UInt32
  k4 : UInt32
  k5 : UInt32
  k6 : UInt32
  k7 : UInt32

/-- The state before the rounds: constants, key and block number. -/
def Key.start (k : Key) (number : Nat) : Block :=
  { a0 := 0x61707865, a1 := 0x3320646e, a2 := 0x79622d32, a3 := 0x6b206574
    b0 := k.k0, b1 := k.k1, b2 := k.k2, b3 := k.k3
    c0 := k.k4, c1 := k.k5, c2 := k.k6, c3 := k.k7
    d0 := UInt32.ofNat number, d1 := UInt32.ofNat (number / 0x100000000), d2 := 0, d3 := 0 }

/-- The word of the key stream at a position: the sum of the state before and after the rounds. -/
def Key.word (k : Key) (position : Nat) : UInt32 :=
  let start := k.start (position / 16)
  let mixed := start.doubleRound.doubleRound.doubleRound.doubleRound
  let n := position % 16
  (start.words[n]?.getD 0) + (mixed.words[n]?.getD 0)

/-- One step of the generator that expands a seed. -/
def advance (state : UInt64) : UInt64 := state * 6364136223846793005 + 11634580027462260723

/-- The word that a state of the seed expansion gives. -/
def expanded (state : UInt64) : UInt32 :=
  let x := (((state >>> 18) ^^^ state) >>> 27).toUInt32
  let n := (state >>> 59).toUInt32
  (x >>> n) ||| (x <<< ((32 - n) % 32))

def Key.ofSeed (seed : UInt64) : Key :=
  let s0 := advance seed
  let s1 := advance s0
  let s2 := advance s1
  let s3 := advance s2
  let s4 := advance s3
  let s5 := advance s4
  let s6 := advance s5
  let s7 := advance s6
  { k0 := expanded s0, k1 := expanded s1, k2 := expanded s2, k3 := expanded s3
    k4 := expanded s4, k5 := expanded s5, k6 := expanded s6, k7 := expanded s7 }

end ScriptFuzz.ChaCha

namespace ScriptFuzz

/-- The random source of a seed. -/
def Random.ofSeed (seed : UInt64) : Random := { word := (ChaCha.Key.ofSeed seed).word }

end ScriptFuzz
