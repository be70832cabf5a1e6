import ScriptFuzz.Text.Utf8

/-!
# Reading UTF-8

The bytes of a text are the bytes of no other text: they read back as its characters
(`decode?_encode`). Each character takes as many bytes as were written for it.
-/

namespace ScriptFuzz.Text.Utf8

set_option autoImplicit false

theorem toNat_ofNat_of_lt {n : Nat} (h : n < 256) : (UInt8.ofNat n).toNat = n :=
  (UInt8.toNat_ofNat' ..).trans (Nat.mod_eq_of_lt h)

theorem leadBits_of_two {m : Nat} (h : m < 32) : leadBits (m + 192) 0 = m := by
  change (m + 192) % 32 = m
  omega

theorem leadBits_of_three {m : Nat} (h : m < 16) : leadBits (m + 224) 1 = m := by
  change (m + 224) % 16 = m
  omega

theorem leadBits_of_four {m : Nat} (h : m < 8) : leadBits (m + 240) 2 = m := by
  change (m + 240) % 8 = m
  omega

theorem secondByte_of_two {m : Nat} (h : 2 ≤ m) (h' : m < 32) :
    secondByte (m + 192) = some ((0x80, 0xbf), 0) := by
  rw [secondByte, if_pos (by omega)]

/-- The range of the second byte leaves out overlong forms and surrogates. -/
theorem secondByte_of_three {m x : Nat} (h : m < 16) (hx : x < 64) (hlong : m = 0 → 32 ≤ x)
    (hsurrogate : m = 13 → x < 32) : ∃ lo hi, secondByte (m + 224) = some ((lo, hi), 1) ∧
      lo ≤ x + 128 ∧ x + 128 ≤ hi := by
  unfold secondByte
  rw [if_neg (by omega)]
  split
  · exact ⟨_, _, rfl, by omega, by omega⟩
  split
  · exact ⟨_, _, rfl, by omega, by omega⟩
  · rw [if_pos (by omega)]
    exact ⟨_, _, rfl, by omega, by omega⟩

/-- The range of the second byte leaves out overlong forms and what is no code point. -/
theorem secondByte_of_four {m x : Nat} (h : m < 5) (hx : x < 64) (hlong : m = 0 → 16 ≤ x)
    (hlarge : m = 4 → x < 16) : ∃ lo hi, secondByte (m + 240) = some ((lo, hi), 2) ∧
      lo ≤ x + 128 ∧ x + 128 ≤ hi := by
  unfold secondByte
  rw [if_neg (by omega), if_neg (by omega), if_neg (by omega), if_neg (by omega)]
  split
  · exact ⟨_, _, rfl, by omega, by omega⟩
  split
  · exact ⟨_, _, rfl, by omega, by omega⟩
  · rw [if_pos (by omega)]
    exact ⟨_, _, rfl, by omega, by omega⟩

theorem scan_cons_of_secondByte {b x lo hi after : Nat} (hb : 0x80 ≤ b) (hb' : b < 256)
    (hx : x < 64) (hsecond : secondByte b = some ((lo, hi), after)) (hlo : lo ≤ x + 128)
    (hhi : x + 128 ≤ hi) (bs : List UInt8) :
    scan (UInt8.ofNat b) (UInt8.ofNat (x + 128) :: bs) =
      continuation after (leadBits b after * 64 + x) 1 bs := by
  have hx' : (UInt8.ofNat (x + 128)).toNat = x + 128 := toNat_ofNat_of_lt (by omega)
  unfold scan
  rw [toNat_ofNat_of_lt hb', if_neg (by omega), hsecond]
  simp only [hx']
  rw [if_pos ⟨hlo, hhi⟩, show (x + 128) % 64 = x by omega]

theorem continuation_cons {x : Nat} (hx : x < 64) (n code used : Nat) (bs : List UInt8) :
    continuation (n + 1) code used (UInt8.ofNat (x + 128) :: bs) =
      continuation n (code * 64 + x) (used + 1) bs := by
  rw [continuation, toNat_ofNat_of_lt (by omega), if_pos (by omega),
    show (x + 128) % 64 = x by omega]

/-- A character is read from its bytes, whatever follows them. -/
theorem scan_utf8EncodeChar (c : Char) (rest : List UInt8) :
    ∃ b bs, String.utf8EncodeChar c = b :: bs ∧ scan b (bs ++ rest) = (some c, bs.length) := by
  have hvalid : c.toNat < 0xd800 ∨ 0xdfff < c.toNat ∧ c.toNat < 0x110000 := c.valid
  have hofNat := Char.ofNat_toNat c
  have hval : c.val.toNat = c.toNat := rfl
  unfold String.utf8EncodeChar
  simp only [hval]
  generalize c.toNat = n at hvalid hofNat ⊢
  -- One to four bytes, each range of code points with its own form.
  split
  · refine ⟨_, _, rfl, ?_⟩
    unfold scan
    rw [toNat_ofNat_of_lt (by omega), if_pos (by omega), hofNat]
    rfl
  split
  · refine ⟨_, _, rfl, ?_⟩
    rw [List.cons_append, scan_cons_of_secondByte (by omega) (by omega) (by omega)
      (secondByte_of_two (by omega) (by omega)) (by omega) (by omega), continuation,
      leadBits_of_two (by omega), show n / 64 % 32 * 64 + n % 64 = n by omega, hofNat]
    rfl
  split
  · obtain ⟨lo, hi, hsecond, hlo, hhi⟩ :=
      secondByte_of_three (m := n / 4096 % 16) (x := n / 64 % 64) (by omega) (by omega) (by omega)
        (by omega)
    refine ⟨_, _, rfl, ?_⟩
    rw [List.cons_append, scan_cons_of_secondByte (by omega) (by omega) (by omega) hsecond hlo hhi,
      List.cons_append, continuation_cons (by omega), continuation,
      leadBits_of_three (by omega),
      show (n / 4096 % 16 * 64 + n / 64 % 64) * 64 + n % 64 = n by omega, hofNat]
    rfl
  · obtain ⟨lo, hi, hsecond, hlo, hhi⟩ :=
      secondByte_of_four (m := n / 262144 % 8) (x := n / 4096 % 64) (by omega) (by omega) (by omega)
        (by omega)
    refine ⟨_, _, rfl, ?_⟩
    rw [List.cons_append, scan_cons_of_secondByte (by omega) (by omega) (by omega) hsecond hlo hhi,
      List.cons_append, continuation_cons (by omega), List.cons_append,
      continuation_cons (by omega), continuation, leadBits_of_four (by omega),
      show ((n / 262144 % 8 * 64 + n / 4096 % 64) * 64 + n / 64 % 64) * 64 + n % 64 = n by omega,
      hofNat]
    rfl

theorem decode?_flatMap (cs : List Char) :
    decode? (cs.flatMap String.utf8EncodeChar) = some cs := by
  induction cs with
  | nil => rw [List.flatMap_nil, decode?]
  | cons c cs ih =>
    obtain ⟨b, bs, hc, hscan⟩ := scan_utf8EncodeChar c (cs.flatMap String.utf8EncodeChar)
    rw [List.flatMap_cons, hc, List.cons_append, decode?, hscan]
    simp only
    rw [List.drop_left, ih]
    rfl

/-- The bytes of a text are read as its characters. -/
theorem decode?_encode (s : String) : decode? (encode s) = some s.toList := decode?_flatMap s.toList

end ScriptFuzz.Text.Utf8
