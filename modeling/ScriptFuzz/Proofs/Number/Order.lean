import ScriptFuzz.Number.Binary64

/-!
# Numbers compare

Two floating-point numbers that are no NaNs compare: what is not below is above or equal
(`le_of_not_lt`). That a stored number is no NaN is read off its fields, and it stays so for the
machine float with the same bits (`Binary64.isNaN_toFloat`).
-/

namespace ScriptFuzz.Number

set_option autoImplicit false

open Float.Model Float.Model.UnpackedFloat

/-- The order read the other way round. -/
theorem compare_swap (a b : Float.Model.UnpackedFloat) :
    b.compare a = (a.compare b).map Ordering.swap := by
  have hswap (e e' : Int) (m m' : Nat) :
      (compare e' e).then (compare m' m) = ((compare e e').then (compare m m')).swap := by
    rw [Ordering.swap_then, ← Std.OrientedOrd.eq_swap, ← Std.OrientedOrd.eq_swap]
  rcases a with (_ | _) | _ | _ | ⟨_ | _, m, e, _⟩ <;>
    rcases b with (_ | _) | _ | _ | ⟨_ | _, m', e', _⟩ <;>
    first
    | rfl
    | exact congrArg some (hswap e e' m m')
    | exact congrArg some (congrArg Ordering.swap (hswap e e' m m'))

theorem exists_compare {a b : Float.Model.UnpackedFloat} (ha : a.isNaN = false)
    (hb : b.isNaN = false) : ∃ o, a.compare b = some o := by
  have hb' : b ≠ notANumber := by
    rintro rfl
    cases hb
  rcases a with (_ | _) | _ | _ | ⟨_ | _, m, e, _⟩ <;>
    rcases b with (_ | _) | _ | _ | ⟨_ | _, m', e', _⟩ <;>
    first
    | exact absurd rfl hb'
    | cases ha; done
    | exact ⟨_, rfl⟩

theorem le_of_not_lt {x y : Float} (hx : x.isNaN = false) (hy : y.isNaN = false) (h : ¬x < y) :
    y ≤ x := by
  obtain ⟨o, ho⟩ := exists_compare (a := x.toModel.unpack) (b := y.toModel.unpack) hx hy
  have hlt : x < y ↔ x.toModel.unpack.compare y.toModel.unpack = some .lt := by
    change decide ((x.toModel.unpack.compare y.toModel.unpack == some .lt) = true) = true ↔ _
    simp
  have hle : y ≤ x ↔ (y.toModel.unpack.compare x.toModel.unpack).any (·.isLE) = true := by
    change decide ((y.toModel.unpack.compare x.toModel.unpack).any (·.isLE) = true) = true ↔ _
    simp
  rw [hlt, ho] at h
  rw [hle, compare_swap, ho]
  cases o with
  | lt => exact absurd rfl h
  | eq => rfl
  | gt => rfl

/-- Only the largest exponent makes a NaN. -/
theorem isNaN_unpack_of_exponent {bits : BitVec Format.binary64.numBits}
    (h : unpackExponent bits ≠ -1#_) : (unpack Format.binary64 bits).isNaN = false := by
  unfold Float.Model.UnpackedFloat.unpack
  rw [if_neg h]
  by_cases hzero : unpackExponent bits = 0#_
  · rw [if_pos hzero]
    by_cases hmantissa : unpackMantissa bits = 0#_
    · rw [dif_pos hmantissa]
      rfl
    · rw [dif_neg hmantissa]
      rfl
  · rw [if_neg hzero]
    rfl

/-- A number that is no NaN is none after it was stored. -/
theorem isNaN_unpack_pack {u : Float.Model.UnpackedFloat} (h : u.isNaN = false) :
    (unpack Format.binary64 (u.pack Format.binary64)).isNaN = false := by
  cases u with
  | notANumber => cases h
  | infinity s => cases s <;> rfl
  | zero s => cases s <;> rfl
  | finite s m e hm =>
    unfold Float.Model.UnpackedFloat.pack
    simp only
    split
    · cases s <;> rfl
    · rename_i hexponent
      split <;> refine isNaN_unpack_of_exponent ?_ <;> rw [unpackExponent_packComponents]
      · intro heq
        generalize (e + Format.binary64.exponentBias +
          Format.binary64.mantissaBitsWithoutImplicit).toNat = exponent at heq hexponent
        have hnat : exponent % 2048 = 2047 := congrArg BitVec.toNat heq
        change ¬2 ^ 11 ≤ exponent + 1 at hexponent
        omega
      · decide

namespace Binary64

theorem toNat_unpackExponent (x : Binary64) :
    (@unpackExponent Format.binary64 x.bits.toBitVec).toNat = x.exponentField := by
  simp [unpackExponent, exponentField, Nat.shiftRight_eq_div_pow]

theorem toNat_unpackMantissa (x : Binary64) :
    (@unpackMantissa Format.binary64 x.bits.toBitVec).toNat = x.fractionField := by
  simp [unpackMantissa, fractionField]

/-- A number that is no NaN by its fields is none as a machine float. -/
theorem isNaN_toFloat {x : Binary64} (h : x.isNaN = false) : x.toFloat.isNaN = false := by
  refine isNaN_unpack_pack ?_
  by_cases hexponent : @unpackExponent Format.binary64 x.bits.toBitVec = -1#_
  · have hexponentField : x.exponentField = 2047 := by
      rw [← toNat_unpackExponent, hexponent]
      rfl
    have hmantissa : @unpackMantissa Format.binary64 x.bits.toBitVec = 0#_ := by
      rw [← BitVec.toNat_inj, toNat_unpackMantissa]
      simpa [isNaN, hexponentField] using h
    unfold Float.Model.UnpackedFloat.unpack
    rw [if_pos hexponent, if_pos hmantissa]
    rfl
  · exact isNaN_unpack_of_exponent hexponent

end Binary64

end ScriptFuzz.Number
