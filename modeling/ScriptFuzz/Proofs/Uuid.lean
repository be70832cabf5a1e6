import ScriptFuzz.Proofs.Text.Hex
import ScriptFuzz.Uuid

/-!
# Reading identifiers

An identifier is told by its bytes and by its text.
-/

namespace ScriptFuzz.Uuid

set_option autoImplicit false

open ScriptFuzz.Text

/-- Bytes that are shifted out of a number, the most significant first, make up the number modulo
their range. -/
theorem foldl_shifted (k n : Nat) :
    ((List.range k).map fun i => UInt8.ofNat (n >>> (8 * (k - 1 - i)))).foldl
      (fun m b => m * 256 + b.toNat) 0 = n % 256 ^ k := by
  induction k generalizing n with
  | zero => rw [Nat.pow_zero, Nat.mod_one]; rfl
  | succ k ih =>
    have hinit : ((List.range k).map fun i => UInt8.ofNat (n >>> (8 * (k + 1 - 1 - i)))) =
        (List.range k).map fun i => UInt8.ofNat ((n / 256) >>> (8 * (k - 1 - i))) := by
      refine List.map_congr_left fun i hi => ?_
      have hi := List.mem_range.mp hi
      rw [show 8 * (k + 1 - 1 - i) = 8 + 8 * (k - 1 - i) by omega, Nat.shiftRight_add,
        Nat.shiftRight_eq_div_pow n 8]
    have hlast : (UInt8.ofNat (n >>> (8 * (k + 1 - 1 - k)))).toNat = n % 256 := by
      rw [show 8 * (k + 1 - 1 - k) = 0 by omega]
      exact UInt8.toNat_ofNat' ..
    rw [List.range_succ, List.map_append, List.foldl_append, hinit, ih, List.map_singleton,
      List.foldl_cons, List.foldl_nil, hlast, Nat.pow_succ', Nat.mod_mul]
    omega

@[simp] theorem length_bytes (u : Uuid) : u.bytes.length = 16 := by simp [bytes]

/-- The bytes of an identifier make up the identifier. -/
theorem ofBytes?_bytes (u : Uuid) : ofBytes? u.bytes = some u := by
  have hfold : u.bytes.foldl (fun n b => n * 256 + b.toNat) 0 = u.value.toNat :=
    (foldl_shifted 16 u.value.toNat).trans (Nat.mod_eq_of_lt u.value.isLt)
  rw [ofBytes?, if_pos u.length_bytes, hfold, BitVec.ofNat_toNat, BitVec.setWidth_eq]

theorem length_hyphenate {ns : List Nat} {ds : List Char} (hne : ns ≠ [])
    (h : ds.length = ns.sum) : (hyphenate ns ds).length + 1 = ns.sum + ns.length := by
  induction ns generalizing ds with
  | nil => exact absurd rfl hne
  | cons n ns ih =>
    cases ns with
    | nil => exact congrArg (· + 1) h
    | cons m ns =>
      rw [List.sum_cons] at h ⊢
      have hrest : (hyphenate (m :: ns) (ds.drop n)).length + 1 =
          (m :: ns).sum + (m :: ns).length :=
        ih (List.cons_ne_nil m ns) (by rw [List.length_drop]; omega)
      rw [hyphenate, List.length_append, List.length_take, List.length_cons]
      · simp only [List.length_cons] at hrest ⊢
        omega
      · simp

theorem ungroup_hyphenate {ns : List Nat} {ds : List Char} (hne : ns ≠ [])
    (h : ds.length = ns.sum) : ungroup ns (hyphenate ns ds) = some ds := by
  induction ns generalizing ds with
  | nil => exact absurd rfl hne
  | cons n ns ih =>
    cases ns with
    | nil => exact if_pos h
    | cons m ns =>
      rw [List.sum_cons] at h
      have hrest : ungroup (m :: ns) (hyphenate (m :: ns) (ds.drop n)) = some (ds.drop n) :=
        ih (List.cons_ne_nil m ns) (by rw [List.length_drop]; omega)
      have htake : (ds.take n).length = n := by rw [List.length_take]; omega
      rw [hyphenate, ungroup, List.drop_left' htake, List.take_left' htake]
      · exact (congrArg (Option.map (ds.take n ++ ·)) hrest).trans
          (congrArg some (List.take_append_drop n ds))
      · simp
      · simp

theorem exists_digit_of_mem {c : Char} {k n : Nat} (h : c ∈ Hex.digits k n) :
    ∃ m < 16, c = Hex.digit m := by
  induction k generalizing n with
  | zero => cases h
  | succ k ih =>
    rcases List.mem_append.mp h with h | h
    · exact ih h
    · exact ⟨n % 16, Nat.mod_lt n (by decide), List.mem_singleton.mp h⟩

/-- The text of an identifier is read as the identifier. -/
theorem ofText?_text (u : Uuid) : ofText? u.text = some u := by
  have hlength : u.digits.length = 32 := Hex.length_digits 32 _
  have hchars : (hyphenate groups u.digits).length + 1 = 37 :=
    length_hyphenate (by decide) hlength
  have hungroup : ungroup groups (hyphenate groups u.digits) = some u.digits :=
    ungroup_hyphenate (by decide) hlength
  obtain ⟨d, ds, hds⟩ := List.exists_cons_of_length_eq_add_one hlength
  obtain ⟨m, hm, rfl⟩ := exists_digit_of_mem (hds ▸ List.mem_cons_self : d ∈ Hex.digits 32 _)
  have hdigits : ofDigits? u.digits = some u := by
    rw [ofDigits?, if_pos hlength, digits, Hex.number?_digits_of_lt u.value.isLt]
    exact congrArg (some ∘ mk) ((BitVec.ofNat_toNat ..).trans (BitVec.setWidth_eq _))
  obtain ⟨cs, hcs⟩ : ∃ cs, hyphenate groups u.digits = Hex.digit m :: cs := by
    rw [hds]
    exact ⟨_, rfl⟩
  have hhead : ∀ m < 16, Hex.digit m ≠ '\x7b' ∧ Hex.digit m ≠ 'u' := by decide
  unfold ofText? text
  rw [String.toList_ofList]
  simp only
  rw [if_neg (by omega)]
  rw [hcs] at hungroup ⊢
  split
  · rename_i heq
    exact absurd (List.cons.inj heq).1 (hhead m hm).1
  · rename_i heq
    exact absurd (List.cons.inj heq).1 (hhead m hm).2
  · rw [Option.bind_some, hungroup, Option.bind_some, hdigits]

end ScriptFuzz.Uuid
