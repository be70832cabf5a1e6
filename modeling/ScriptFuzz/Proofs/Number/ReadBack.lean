import ScriptFuzz.Number.Nearest
import Mathlib.Algebra.Order.Field.Power
import Mathlib.Data.Rat.Floor
import Mathlib.Tactic.Linarith
import Mathlib.Tactic.Positivity
import Mathlib.Tactic.FieldSimp

/-!
# Reading back the shortest decimal

Every decimal in the rounding interval of a number has that number as its nearest one, and the shortest
decimal lies in the interval. So the shortest digits of a number identify it.
-/

namespace ScriptFuzz.Number

set_option autoImplicit false

/-- The rational that a decimal stands for. -/
def Decimal.value (d : Decimal) : ℚ := d.digits * 10 ^ d.exponent

/-- A rational is in the interval. -/
structure Rounding.Contains (r : Rounding) (v : ℚ) : Prop where
  low : r.low * 2 ^ r.scale ≤ v
  high : v ≤ r.high * 2 ^ r.scale
  inside : r.closed = false → r.low * 2 ^ r.scale < v ∧ v < r.high * 2 ^ r.scale

theorem raise_pos (base : Nat) (hb : 0 < base) (e : Int) : (0 : ℚ) < raise base e := by
  exact_mod_cast Nat.pow_pos hb

theorem raise_eq (base : Nat) (hb : 0 < base) (e : Int) :
    (raise base e : ℚ) = (base : ℚ) ^ e * raise base (-e) := by
  have hb' : (base : ℚ) ≠ 0 := by exact_mod_cast hb.ne'
  unfold raise
  rw [Nat.pow_eq, Nat.pow_eq, Nat.cast_pow, Nat.cast_pow, ← zpow_natCast, ← zpow_natCast,
    ← zpow_add₀ hb']
  congr 1
  omega

/-- The two sides of a comparison are the two numbers, multiplied by the same factor. -/
theorem Rounding.sides_eq (r : Rounding) (d : Nat) (e : Int) (n : Nat) :
    ∃ factor : ℚ, 0 < factor ∧ ((r.sides d e n).1 : ℚ) = d * 10 ^ e * factor ∧
      ((r.sides d e n).2 : ℚ) = n * 2 ^ r.scale * factor := by
  have hten := raise_pos 10 (by decide) (-e)
  have htwo := raise_pos 2 (by decide) (-r.scale)
  refine ⟨raise 10 (-e) * raise 2 (-r.scale), mul_pos hten htwo, ?_, ?_⟩
  · simp only [sides, Nat.cast_mul]
    rw [raise_eq 10 (by decide) e]
    push_cast
    ring
  · simp only [sides, Nat.cast_mul]
    rw [raise_eq 2 (by decide) r.scale]
    push_cast
    ring

theorem Rounding.sides_le_iff (r : Rounding) (d : Nat) (e : Int) (n : Nat) :
    ((r.sides d e n).2 ≤ (r.sides d e n).1 ↔ (n : ℚ) * 2 ^ r.scale ≤ d * 10 ^ e) ∧
      ((r.sides d e n).1 ≤ (r.sides d e n).2 ↔ (d : ℚ) * 10 ^ e ≤ n * 2 ^ r.scale) := by
  obtain ⟨factor, hpos, hleft, hright⟩ := r.sides_eq d e n
  constructor
  · rw [← Nat.cast_le (α := ℚ), hleft, hright]
    exact mul_le_mul_iff_of_pos_right hpos
  · rw [← Nat.cast_le (α := ℚ), hleft, hright]
    exact mul_le_mul_iff_of_pos_right hpos

/-- What the search tests is the interval. -/
theorem Rounding.contains_of_admits {r : Rounding} {d : Nat} {e : Int} (h : r.admits d e = true) :
    r.Contains (d * 10 ^ e) := by
  obtain ⟨hlow, hlow'⟩ := r.sides_le_iff d e r.low
  obtain ⟨hhigh', hhigh⟩ := r.sides_le_iff d e r.high
  simp only [admits] at h
  split at h
  · rename_i hclosed
    rw [Bool.and_eq_true, decide_eq_true_eq, decide_eq_true_eq] at h
    refine ⟨hlow.mp h.1, hhigh.mp h.2, ?_⟩
    simp [hclosed]
  · rw [Bool.and_eq_true, decide_eq_true_eq, decide_eq_true_eq] at h
    have hl := not_le.mp (mt hlow'.mpr (not_le.mpr h.1))
    have hh := not_le.mp (mt hhigh'.mpr (not_le.mpr h.2))
    exact ⟨hl.le, hh.le, fun _ => ⟨hl, hh⟩⟩

/-- What the search finds rounds to the number. -/
theorem Rounding.contains_of_search {r : Rounding} {tie : Tie} {fuel : Nat} {e : Int} {d : Decimal}
    (h : r.search tie fuel e = some d) : r.Contains d.value ∧ d.digits ≠ 0 := by
  induction fuel generalizing e with
  | zero => cases h
  | succ fuel ih =>
    unfold search at h
    split at h
    · rename_i digits hgrid
      cases h
      simp only [onGrid?] at hgrid
      split at hgrid
      · rename_i hfloor hnext
        rw [Bool.and_eq_true] at hfloor
        split at hgrid <;> cases hgrid
        · exact ⟨contains_of_admits hnext, Nat.succ_ne_zero _⟩
        · exact ⟨contains_of_admits hfloor.2, by simpa using hfloor.1⟩
      · rename_i hfloor _
        rw [Bool.and_eq_true] at hfloor
        cases hgrid
        exact ⟨contains_of_admits hfloor.2, by simpa using hfloor.1⟩
      · rename_i hnext
        cases hgrid
        exact ⟨contains_of_admits hnext, Nat.succ_ne_zero _⟩
      · cases hgrid
    · exact ih h

/-- Removing zeros changes neither the value nor whether it is zero. -/
theorem Decimal.strip_spec (fuel : Nat) (d : Decimal) :
    (d.strip fuel).value = d.value ∧ ((d.strip fuel).digits = 0 ↔ d.digits = 0) := by
  induction fuel generalizing d with
  | zero => exact ⟨rfl, Iff.rfl⟩
  | succ fuel ih =>
    unfold strip
    split
    · rename_i h
      obtain ⟨hvalue, hzero⟩ := ih ⟨d.digits / 10, d.exponent + 1⟩
      refine ⟨hvalue.trans ?_, hzero.trans ?_⟩
      · have hdigits : d.digits = d.digits / 10 * 10 := by omega
        have hcast : (d.digits : ℚ) = (d.digits / 10 : Nat) * 10 := by exact_mod_cast hdigits
        rw [value, value, hcast, zpow_add₀ (by norm_num), zpow_one]
        ring
      · change d.digits / 10 = 0 ↔ d.digits = 0
        omega
    · exact ⟨rfl, Iff.rfl⟩

/-- A quotient that is nearest to `k`, or halfway if `k` is even, is rounded to `k`. -/
theorem roundedQuotient_eq {n d k : Nat} (hd : 0 < d) (hlow : 2 * k * d ≤ 2 * n + d)
    (hhigh : 2 * n ≤ (2 * k + 1) * d)
    (hodd : k % 2 = 1 → 2 * k * d < 2 * n + d ∧ 2 * n < (2 * k + 1) * d) :
    roundedQuotient n d = k := by
  have hn := Nat.div_add_mod n d
  have hr := Nat.mod_lt n hd
  simp only [roundedQuotient]
  generalize n / d = q at hn ⊢
  generalize n % d = r at hn hr ⊢
  have hq : q ≤ k := by
    by_contra hlt
    have : (k + 1) * d ≤ d * q := by
      rw [Nat.mul_comm d q]
      exact Nat.mul_le_mul_right d (by omega)
    nlinarith
  have hk : k ≤ q + 1 := by
    by_contra hlt
    have : (q + 2) * d ≤ k * d := Nat.mul_le_mul_right d (by omega)
    nlinarith
  rcases Nat.lt_or_eq_of_le hk with hk | rfl
  · obtain rfl : q = k := by omega
    have hup : ¬ (d < 2 * r ∨ 2 * r = d ∧ q % 2 = 1) := by
      rintro (h | ⟨h, hq'⟩)
      · nlinarith
      · have := (hodd hq').2
        nlinarith
    rw [if_neg hup]
  · have hdown : d < 2 * r ∨ 2 * r = d ∧ q % 2 = 1 := by
      rcases Nat.lt_trichotomy d (2 * r) with h | h | h
      · exact .inl h
      · refine .inr ⟨h.symm, ?_⟩
        by_contra hq'
        have := (hodd (by omega)).1
        nlinarith
      · nlinarith
    rw [if_pos hdown]

/-- The same with the quotient as a rational. -/
theorem roundedQuotient_eq_of_rat {n d k : Nat} (hd : 0 < d) (hlow : (k : ℚ) - 1 / 2 ≤ n / d)
    (hhigh : (n : ℚ) / d ≤ k + 1 / 2)
    (hodd : k % 2 = 1 → (k : ℚ) - 1 / 2 < n / d ∧ (n : ℚ) / d < k + 1 / 2) :
    roundedQuotient n d = k := by
  have hd' : (0 : ℚ) < d := by exact_mod_cast hd
  rw [le_div_iff₀ hd'] at hlow
  rw [div_le_iff₀ hd'] at hhigh
  rw [lt_div_iff₀ hd', div_lt_iff₀ hd'] at hodd
  refine roundedQuotient_eq hd ?_ ?_ ?_
  · rw [← Nat.cast_le (α := ℚ)]
    push_cast
    linarith
  · rw [← Nat.cast_le (α := ℚ)]
    push_cast
    linarith
  · intro hk
    obtain ⟨hl, hh⟩ := hodd hk
    rw [← Nat.cast_lt (α := ℚ), ← Nat.cast_lt (α := ℚ)]
    push_cast
    exact ⟨by linarith, by linarith⟩

theorem atScale_div (num : Nat) {den : Nat} (hden : 0 < den) (q : Int) :
    (0 < (atScale num den q).2) ∧
      ((atScale num den q).1 : ℚ) / (atScale num den q).2 = num / den / 2 ^ q := by
  have hden' : (0 : ℚ) < den := by exact_mod_cast hden
  have hraise := raise_pos 2 (by decide) (-q)
  have hpow : (0 : ℚ) < 2 ^ q := zpow_pos (by norm_num) q
  refine ⟨Nat.mul_pos hden (Nat.pow_pos (by decide)), ?_⟩
  simp only [atScale, Nat.cast_mul]
  rw [raise_eq 2 (by decide) q]
  push_cast
  field_simp

theorem log2_bounds {n : Nat} (hn : 0 < n) :
    (2 : ℚ) ^ (Nat.log2 n : Int) ≤ n ∧ (n : ℚ) < 2 ^ ((Nat.log2 n : Int) + 1) := by
  constructor
  · rw [zpow_natCast]
    exact_mod_cast Nat.log2_self_le hn.ne'
  · rw [← Nat.cast_add_one, zpow_natCast]
    exact_mod_cast Nat.lt_log2_self

/-- The scale is the only one at which the quotient is below `2 ^ 53`, and at least `2 ^ 52` unless the
scale is the finest. -/
theorem scaleFor_spec {num den : Nat} (hnum : 0 < num) (hden : 0 < den) :
    finestScale ≤ scaleFor num den ∧ (num / den : ℚ) < 2 ^ (scaleFor num den + 53) ∧
      (scaleFor num den = finestScale ∨ (2 : ℚ) ^ (scaleFor num den + 52) ≤ num / den) := by
  have hden' : (0 : ℚ) < den := by exact_mod_cast hden
  have hpow (e : Int) : (0 : ℚ) < 2 ^ e := zpow_pos (by norm_num) e
  -- The quotient of the leading powers of two is off by less than a factor of two.
  obtain ⟨hnumlow, hnumhigh⟩ := log2_bounds hnum
  obtain ⟨hdenlow, hdenhigh⟩ := log2_bounds hden
  unfold scaleFor
  generalize hguess : (Nat.log2 num : Int) - Nat.log2 den - 52 = guess
  obtain ⟨hd, hdiv⟩ := atScale_div num hden guess
  have hlow : (2 : ℚ) ^ (guess + 51) ≤ num / den := by
    rw [le_div_iff₀ hden']
    calc (2 : ℚ) ^ (guess + 51) * den
        ≤ 2 ^ (guess + 51) * 2 ^ ((Nat.log2 den : Int) + 1) :=
          mul_le_mul_of_nonneg_left hdenhigh.le (hpow _).le
      _ = 2 ^ (Nat.log2 num : Int) := by
          rw [← zpow_add₀ (by norm_num)]
          congr 1
          omega
      _ ≤ num := hnumlow
  have hhigh : (num / den : ℚ) < 2 ^ (guess + 53) := by
    rw [div_lt_iff₀ hden']
    calc (num : ℚ) < 2 ^ ((Nat.log2 num : Int) + 1) := hnumhigh
      _ = 2 ^ (guess + 53) * 2 ^ (Nat.log2 den : Int) := by
          rw [← zpow_add₀ (by norm_num)]
          congr 1
          omega
      _ ≤ 2 ^ (guess + 53) * den := mul_le_mul_of_nonneg_left hdenlow (hpow _).le
  have hstep : (atScale num den guess).1 / (atScale num den guess).2 < 0x10000000000000 ↔
      (num / den : ℚ) < 2 ^ (guess + 52) := by
    rw [Nat.div_lt_iff_lt_mul hd, ← Nat.cast_lt (α := ℚ), Nat.cast_mul,
      ← div_lt_iff₀ (by exact_mod_cast hd), hdiv, div_lt_iff₀ (hpow guess),
      zpow_add₀ (by norm_num), mul_comm ((2 : ℚ) ^ guess)]
    norm_num
  simp only [hstep]
  split
  · rename_i hsmall
    refine ⟨le_max_left _ _, ?_, ?_⟩
    · refine lt_of_lt_of_le hsmall (zpow_le_zpow_right₀ (by norm_num) ?_)
      omega
    · rcases max_choice finestScale (guess - 1) with h | h
      · exact .inl h
      · refine .inr ?_
        rw [h, show guess - 1 + 52 = guess + 51 by ring]
        exact hlow
  · rename_i hlarge
    refine ⟨le_max_left _ _, ?_, ?_⟩
    · refine lt_of_lt_of_le hhigh (zpow_le_zpow_right₀ (by norm_num) ?_)
      omega
    · rcases max_choice finestScale guess with h | h
      · exact .inl h
      · rw [h]
        exact .inr (not_lt.mp hlarge)

namespace Binary64

variable {x : Binary64}

/-- The bits of a positive number are its two fields. -/
theorem bits_of_positive (hpos : x.isNegative = false) :
    x.bits.toNat = x.exponentField * 0x10000000000000 + x.fractionField ∧
      x.fractionField < 0x10000000000000 := by
  simp only [isNegative, decide_eq_false_iff_not] at hpos
  unfold exponentField fractionField
  omega

theorem eq_zero_of_isZero (hpos : x.isNegative = false) (hz : x.isZero = true) : x = ⟨0⟩ := by
  obtain ⟨hbits, -⟩ := bits_of_positive hpos
  simp only [isZero, Bool.and_eq_true, beq_iff_eq] at hz
  rw [hz.1, hz.2] at hbits
  cases x
  congr
  exact UInt64.toNat_inj.mp hbits

theorem isFinite_iff : x.isFinite = true ↔ x.isNaN = false ∧ x.isInfinite = false := by
  by_cases h : x.exponentField = 2047
  · simp [isFinite, isNaN, isInfinite, h]
  · simp [isFinite, isNaN, isInfinite, h]

/-- The sign tells the infinities apart. -/
theorem eq_of_isInfinite (h : x.isInfinite = true) :
    x = if x.isNegative then negInfinity else infinity := by
  obtain ⟨bits⟩ := x
  have hlt := bits.toNat_lt
  simp only [isInfinite, exponentField, fractionField, Bool.and_eq_true, beq_iff_eq] at h
  cases hnegative : isNegative ⟨bits⟩ with
  | true =>
    have hle : 0x8000000000000000 ≤ bits.toNat := of_decide_eq_true hnegative
    refine congrArg mk (UInt64.toNat.inj ?_)
    change _ = 0xfff0000000000000
    omega
  | false =>
    have hle : ¬0x8000000000000000 ≤ bits.toNat := of_decide_eq_false hnegative
    refine congrArg mk (UInt64.toNat.inj ?_)
    change _ = 0x7ff0000000000000
    omega

theorem significand_lt (x : Binary64) : x.significand < 0x20000000000000 := by
  unfold significand fractionField
  split <;> omega

theorem significand_pos (hz : x.isZero = false) : 0 < x.significand := by
  unfold significand
  split
  · rename_i h
    simp only [isZero, h, beq_self_eq_true, Bool.true_and, beq_eq_false_iff_ne] at hz
    omega
  · omega

/-- The interval, in units of the last place. -/
theorem units_of_contains {v : ℚ} (hz : x.isZero = false) (h : x.rounding.Contains v) :
    (x.significand : ℚ) - (if x.isBinadeStart then 1 / 4 else 1 / 2) ≤ v / 2 ^ x.scale ∧
      v / 2 ^ x.scale ≤ x.significand + 1 / 2 ∧
      (x.significand % 2 = 1 → (x.significand : ℚ) - 1 / 2 < v / 2 ^ x.scale ∧
        v / 2 ^ x.scale < x.significand + 1 / 2) := by
  have hm := significand_pos hz
  have hpow : (0 : ℚ) < 2 ^ x.scale := zpow_pos (by norm_num) _
  obtain ⟨hlow, hhigh, hinside⟩ := h
  simp only [rounding, decide_eq_false_iff_not] at hlow hhigh hinside
  rw [zpow_sub₀ (by norm_num)] at hlow hhigh hinside
  have hcast : ((4 * x.significand - (if x.isBinadeStart then 1 else 2) : Nat) : ℚ) =
      4 * x.significand - (if x.isBinadeStart then 1 else 2) := by
    rw [Nat.cast_sub (by split <;> omega)]
    push_cast
    rfl
  rw [hcast] at hlow hinside
  rw [le_div_iff₀ hpow, div_le_iff₀ hpow, lt_div_iff₀ hpow, div_lt_iff₀ hpow]
  push_cast at hhigh hinside
  refine ⟨?_, ?_, ?_⟩
  · split at hlow <;> rename_i hstart <;> simp only [hstart] <;> norm_num at hlow ⊢ <;> linarith
  · linarith
  · intro hodd
    obtain ⟨hl, hh⟩ := hinside (by omega)
    split at hl <;> constructor <;> linarith

/-- The fields of a positive number, from its significand and its scale. -/
theorem bits_of_significand (hpos : x.isNegative = false) :
    x.bits.toNat = if x.significand < 0x10000000000000 then x.significand
      else (x.scale + 1075).toNat * 0x10000000000000 + (x.significand - 0x10000000000000) := by
  obtain ⟨hbits, hfraction⟩ := bits_of_positive hpos
  rw [hbits]
  unfold significand scale
  by_cases h0 : x.exponentField = 0
  · rw [if_pos h0, if_pos hfraction, h0]
    omega
  · rw [if_neg h0, if_neg (by omega)]
    omega

theorem finestScale_le_scale (x : Binary64) : finestScale ≤ x.scale := by
  unfold finestScale scale
  omega

variable {num den : Nat}

/-- A ratio in the interval is rounded at no coarser scale than the number's own. -/
theorem scaleFor_le_scale (hz : x.isZero = false) (hnum : 0 < num) (hden : 0 < den)
    (h : x.rounding.Contains (num / den)) : scaleFor num den ≤ x.scale := by
  obtain ⟨-, hhigh, -⟩ := units_of_contains hz h
  obtain ⟨-, -, habove⟩ := scaleFor_spec hnum hden
  have hm : (x.significand : ℚ) + 1 ≤ 2 ^ 53 := by
    exact_mod_cast x.significand_lt
  rcases habove with habove | habove
  · rw [habove]
    exact finestScale_le_scale x
  · have : (2 : ℚ) ^ (scaleFor num den + 52) < 2 ^ (x.scale + 53) := by
      refine lt_of_le_of_lt habove ?_
      rw [zpow_add₀ (by norm_num), ← div_lt_iff₀' (zpow_pos (by norm_num) _)]
      norm_num at hm ⊢
      linarith
    have := (zpow_lt_zpow_iff_right₀ (by norm_num)).mp this
    omega

/-- It is rounded at a finer scale only if it is below the start of a binade. -/
theorem isBinadeStart_of_scaleFor_lt (hz : x.isZero = false) (hnum : 0 < num) (hden : 0 < den)
    (h : x.rounding.Contains (num / den)) (hlt : scaleFor num den < x.scale) :
    scaleFor num den = x.scale - 1 ∧ x.isBinadeStart = true ∧
      x.significand = 0x10000000000000 ∧ (num / den : ℚ) / 2 ^ x.scale < 2 ^ 52 := by
  obtain ⟨hlow, -, -⟩ := units_of_contains hz h
  obtain ⟨hfinest, hbelow, -⟩ := scaleFor_spec hnum hden
  have hpow (e : Int) : (0 : ℚ) < 2 ^ e := zpow_pos (by norm_num) e
  have hlow' : (x.significand : ℚ) - 1 / 2 ≤ num / den / 2 ^ x.scale := by
    split at hlow <;> linarith
  have hnormal : x.exponentField ≠ 0 := by
    intro h0
    simp only [scale, h0, finestScale] at hlt hfinest
    omega
  have hsig : x.significand = 0x10000000000000 + x.fractionField := by
    rw [significand, if_neg hnormal]
  have hm52 : (0x10000000000000 : ℚ) ≤ x.significand := by
    exact_mod_cast (by omega : 0x10000000000000 ≤ x.significand)
  have hnext : x.scale ≤ scaleFor num den + 1 := by
    have : (2 : ℚ) ^ (x.scale + 51) < 2 ^ (scaleFor num den + 53) := by
      refine lt_of_le_of_lt ?_ hbelow
      rw [zpow_add₀ (by norm_num), ← le_div_iff₀' (hpow _)]
      refine le_trans ?_ hlow'
      norm_num
      linarith
    have := (zpow_lt_zpow_iff_right₀ (by norm_num)).mp this
    omega
  have hs : scaleFor num den = x.scale - 1 := by omega
  have hsmall : (num / den : ℚ) / 2 ^ x.scale < 2 ^ 52 := by
    rw [div_lt_iff₀' (hpow _)]
    refine lt_of_lt_of_eq hbelow ?_
    rw [hs, show x.scale - 1 + 53 = x.scale + 52 by ring, zpow_add₀ (by norm_num)]
    norm_num
  have hzero : x.fractionField = 0 := by
    have : (x.significand : ℚ) < 2 ^ 52 + 1 := by linarith
    have : x.significand < 2 ^ 52 + 1 := by exact_mod_cast this
    omega
  refine ⟨hs, ?_, by omega, hsmall⟩
  simp only [isBinadeStart, hzero, beq_self_eq_true, Bool.true_and, decide_eq_true_eq]
  simp only [scale, finestScale] at hfinest hs
  omega

end Binary64

/-- The number whose fields the rounded quotient gives. -/
theorem nearest_eq_of_quotient {x : Binary64} {num den m : Nat} (hfinite : x.isFinite = true)
    (hpos : x.isNegative = false) (hnum : 0 < num)
    (hm : roundedQuotient (atScale num den (scaleFor num den)).1
      (atScale num den (scaleFor num den)).2 = m)
    (hx : x.bits.toNat = if m < 0x10000000000000 then m
      else (scaleFor num den + 1075).toNat * 0x10000000000000 + (m - 0x10000000000000)) :
    nearest num den = x := by
  obtain ⟨hbits, hfraction⟩ := Binary64.bits_of_positive hpos
  have hexponent : x.exponentField < 2047 := by
    simp only [Binary64.isFinite, bne_iff_ne] at hfinite
    have : x.exponentField < 2048 := Nat.mod_lt _ (by decide)
    omega
  simp only [nearest, if_neg hnum.ne']
  rw [hm, ← hx, if_pos (by omega), UInt64.ofNat_toNat]

/-- Every positive ratio in the interval of a positive number is nearest to that number. -/
theorem nearest_eq {x : Binary64} (hfinite : x.isFinite = true) (hpos : x.isNegative = false)
    (hz : x.isZero = false) {num den : Nat} (hnum : 0 < num) (hden : 0 < den)
    (h : x.rounding.Contains (num / den)) : nearest num den = x := by
  obtain ⟨hlow, hhigh, hodd⟩ := Binary64.units_of_contains hz h
  obtain ⟨hd, hdiv⟩ := atScale_div num hden (scaleFor num den)
  have hbits := Binary64.bits_of_significand hpos
  rcases (Binary64.scaleFor_le_scale hz hnum hden h).lt_or_eq with hlt | hs
  · -- At the next finer scale the quotient rounds up to the start of the binade.
    obtain ⟨hs, hstart, hsig, hsmall⟩ :=
      Binary64.isBinadeStart_of_scaleFor_lt hz hnum hden h hlt
    have htwice : (num / den : ℚ) / 2 ^ (x.scale - 1) = 2 * (num / den / 2 ^ x.scale) := by
      rw [zpow_sub₀ (by norm_num), zpow_one]
      field_simp
    rw [if_pos hstart, hsig] at hlow
    refine nearest_eq_of_quotient (m := 0x20000000000000) hfinite hpos hnum
      (roundedQuotient_eq_of_rat hd ?_ ?_ (by omega)) ?_
    · rw [hdiv, hs, htwice]
      norm_num at hlow ⊢
      linarith
    · rw [hdiv, hs, htwice]
      norm_num at hsmall ⊢
      linarith
    · have := Binary64.finestScale_le_scale x
      rw [finestScale] at this
      rw [hbits, hsig, hs, if_neg (by decide), if_neg (by decide)]
      omega
  · refine nearest_eq_of_quotient hfinite hpos hnum
      (roundedQuotient_eq_of_rat hd ?_ ?_ ?_) (hs ▸ hbits)
    · rw [hdiv, hs]
      split at hlow <;> linarith
    · rw [hdiv, hs]
      exact hhigh
    · rw [hdiv, hs]
      exact hodd

/-- A number rounds to itself. -/
theorem Binary64.contains_magnitude {x : Binary64} (hz : x.isZero = false) :
    x.rounding.Contains (x.significand * 2 ^ x.scale) := by
  have hpow : (0 : ℚ) < 2 ^ (x.scale - 2) := zpow_pos (by norm_num) _
  have hmagnitude : (x.significand * 2 ^ x.scale : ℚ) = (4 * x.significand : Nat) * 2 ^ (x.scale - 2) := by
    rw [zpow_sub₀ (by norm_num)]
    push_cast
    ring
  have hm := significand_pos hz
  have hlow : x.rounding.low < 4 * x.significand := by
    simp only [rounding]
    split <;> omega
  have hhigh : 4 * x.significand < x.rounding.high := by
    simp only [rounding]
    omega
  have hl : (x.rounding.low : ℚ) * 2 ^ x.rounding.scale < x.significand * 2 ^ x.scale := by
    rw [hmagnitude]
    exact mul_lt_mul_of_pos_right (by exact_mod_cast hlow) hpow
  have hh : (x.significand * 2 ^ x.scale : ℚ) < x.rounding.high * 2 ^ x.rounding.scale := by
    rw [hmagnitude]
    exact mul_lt_mul_of_pos_right (by exact_mod_cast hhigh) hpow
  exact ⟨hl.le, hh.le, fun _ => ⟨hl, hh⟩⟩

/-- The fallback of the search has the value of the number. -/
theorem Decimal.exact_value (m : Nat) (q : Int) :
    (Decimal.mk (m * raise 2 q * raise 5 (-q)) (min q 0)).value = m * 2 ^ q := by
  have hten : (raise 2 (-q) * raise 5 (-q) : ℚ) * 10 ^ min q 0 = 1 := by
    have hmin : min q 0 = -((-q).toNat : Int) := by omega
    rw [raise, raise, Nat.pow_eq, Nat.pow_eq, ← Nat.cast_mul, ← Nat.mul_pow, hmin, zpow_neg,
      zpow_natCast, Nat.cast_pow]
    exact mul_inv_cancel₀ (by positivity)
  simp only [value, Nat.cast_mul]
  rw [raise_eq 2 (by decide) q]
  calc (m : ℚ) * (2 ^ q * raise 2 (-q)) * raise 5 (-q) * 10 ^ min q 0
      = m * 2 ^ q * (raise 2 (-q) * raise 5 (-q) * 10 ^ min q 0) := by ring
    _ = m * 2 ^ q := by rw [hten, mul_one]

/-- The shortest decimal is in the interval. -/
theorem Binary64.contains_shortest {x : Binary64} (hz : x.isZero = false) (tie : Tie) :
    x.rounding.Contains (x.shortest tie).value ∧ (x.shortest tie).digits ≠ 0 := by
  have hstrip (fuel : Nat) {d : Decimal} (h : x.rounding.Contains d.value ∧ d.digits ≠ 0) :
      x.rounding.Contains (d.strip fuel).value ∧ (d.strip fuel).digits ≠ 0 := by
    obtain ⟨hvalue, hzero⟩ := d.strip_spec fuel
    exact ⟨hvalue ▸ h.1, mt hzero.mp h.2⟩
  unfold shortest
  rw [hz, if_neg Bool.false_ne_true]
  split
  · rename_i d hsearch
    exact hstrip 400 (Rounding.contains_of_search hsearch)
  · refine hstrip 2000 ⟨?_, ?_⟩
    · rw [Decimal.exact_value]
      exact contains_magnitude hz
    · have hm := significand_pos hz
      have htwo : 0 < raise 2 x.scale := Nat.pow_pos (by decide)
      have hfive : 0 < raise 5 (-x.scale) := Nat.pow_pos (by decide)
      exact (Nat.mul_pos (Nat.mul_pos hm htwo) hfive).ne'

/-- The digits and the exponent tell the power of ten below a decimal. -/
theorem Decimal.value_bounds {d : Decimal} (hd : d.digits ≠ 0) :
    (10 : ℚ) ^ ((toString d.digits).length + d.exponent - 1 : Int) ≤ d.value ∧
      d.value < 10 ^ ((toString d.digits).length + d.exponent : Int) := by
  rw [Nat.toString_eq_repr]
  have hpow : (0 : ℚ) < 10 ^ d.exponent := zpow_pos (by norm_num) _
  have hlength : 0 < d.digits.repr.length := Nat.length_repr_pos
  have hhigh : d.digits < 10 ^ d.digits.repr.length := (Nat.length_repr_le_iff hlength).mp le_rfl
  have hlow : 10 ^ (d.digits.repr.length - 1) ≤ d.digits := by
    by_contra hlt
    rcases Nat.eq_zero_or_pos (d.digits.repr.length - 1) with h0 | h0
    · rw [h0] at hlt
      omega
    · have := (Nat.length_repr_le_iff h0).mpr (not_le.mp hlt)
      omega
  constructor
  · rw [show (d.digits.repr.length + d.exponent - 1 : Int) =
        ((d.digits.repr.length - 1 : Nat) : Int) + d.exponent by omega,
      zpow_add₀ (by norm_num), zpow_natCast]
    exact mul_le_mul_of_nonneg_right (by exact_mod_cast hlow) hpow.le
  · rw [zpow_add₀ (by norm_num), zpow_natCast]
    exact mul_lt_mul_of_pos_right (by exact_mod_cast hhigh) hpow

/-- No number is so large or so small that only its exponent counts. -/
theorem Binary64.bounds_of_contains {x : Binary64} (hfinite : x.isFinite = true)
    (hz : x.isZero = false) {v : ℚ} (h : x.rounding.Contains v) :
    (10 : ℚ) ^ (-400 : Int) ≤ v ∧ v < 10 ^ (400 : Int) := by
  obtain ⟨hlow, hhigh, -⟩ := units_of_contains hz h
  have hpow : (0 : ℚ) < 2 ^ x.scale := zpow_pos (by norm_num) _
  have hm : (x.significand : ℚ) + 1 ≤ 2 ^ 53 := by
    exact_mod_cast x.significand_lt
  have hm' : (1 : ℚ) ≤ x.significand := by
    exact_mod_cast significand_pos hz
  have hexponent : x.exponentField < 2047 := by
    simp only [isFinite, bne_iff_ne] at hfinite
    have : x.exponentField < 2048 := Nat.mod_lt _ (by decide)
    omega
  have height : (2 : ℚ) ^ (1200 : Nat) ≤ 10 ^ (400 : Nat) := by
    rw [show 1200 = 3 * 400 by rfl, pow_mul]
    exact pow_le_pow_left₀ (by norm_num) (by norm_num) 400
  constructor
  · calc (10 : ℚ) ^ (-400 : Int) ≤ 2 ^ (-1200 : Int) := by
          rw [zpow_neg, zpow_neg]
          exact inv_anti₀ (by positivity) (by exact_mod_cast height)
      _ ≤ 2 ^ (-1 + x.scale) := by
          refine zpow_le_zpow_right₀ (by norm_num) ?_
          unfold scale
          omega
      _ = 1 / 2 * 2 ^ x.scale := by
          rw [zpow_add₀ (by norm_num)]
          norm_num
      _ ≤ v := by
          rw [← le_div_iff₀ hpow]
          split at hlow <;> linarith
  · calc v ≤ (x.significand + 1 / 2) * 2 ^ x.scale := (div_le_iff₀ hpow).mp hhigh
      _ < 2 ^ 53 * 2 ^ x.scale := mul_lt_mul_of_pos_right (by linarith) hpow
      _ = 2 ^ (53 + x.scale) := by
          rw [zpow_add₀ (by norm_num)]
          rfl
      _ ≤ 2 ^ (1200 : Int) := by
          refine zpow_le_zpow_right₀ (by norm_num) ?_
          unfold scale
          omega
      _ ≤ 10 ^ (400 : Int) := by exact_mod_cast height

/-- Every decimal in the interval of a positive number reads back as that number. -/
theorem Decimal.nearest_eq {x : Binary64} (hfinite : x.isFinite = true)
    (hpos : x.isNegative = false) (hz : x.isZero = false) {d : Decimal} (hd : d.digits ≠ 0)
    (h : x.rounding.Contains d.value) : d.nearest = x := by
  obtain ⟨hlow, hhigh⟩ := Binary64.bounds_of_contains hfinite hz h
  obtain ⟨hlow', hhigh'⟩ := Decimal.value_bounds hd
  have hone : (1 : ℚ) < 10 := by norm_num
  have hsmall := (zpow_lt_zpow_iff_right₀ hone).mp (hlow.trans_lt hhigh')
  have hlarge := (zpow_lt_zpow_iff_right₀ hone).mp (hlow'.trans_lt hhigh)
  simp only [Decimal.nearest]
  rw [if_neg (by omega), if_neg (by omega)]
  have hten (e : Int) : 0 < raise 10 e := Nat.pow_pos (by decide)
  refine Number.nearest_eq hfinite hpos hz (Nat.mul_pos (Nat.pos_of_ne_zero hd) (hten _))
    (hten _) ?_
  have hratio : ((d.digits * raise 10 d.exponent : Nat) : ℚ) / raise 10 (-d.exponent) = d.value := by
    have hpos := raise_pos 10 (by decide) (-d.exponent)
    rw [Nat.cast_mul, raise_eq 10 (by decide) d.exponent, div_eq_iff hpos.ne', value]
    push_cast
    ring
  rwa [hratio]

/-- The shortest decimal identifies a positive number, in whatever way its value is written. -/
theorem Binary64.nearest_of_value_eq {x : Binary64} (hfinite : x.isFinite = true)
    (hpos : x.isNegative = false) (hz : x.isZero = false) {tie : Tie} {d : Decimal}
    (h : d.value = (x.shortest tie).value) : d.nearest = x := by
  obtain ⟨hcontains, hdigits⟩ := contains_shortest hz tie
  refine Decimal.nearest_eq hfinite hpos hz ?_ (h ▸ hcontains)
  intro hzero
  have hvalue : (x.shortest tie).value = 0 := by
    rw [← h, Decimal.value, hzero, Nat.cast_zero, zero_mul]
  have hten : ((10 : ℚ) ^ (x.shortest tie).exponent) ≠ 0 := zpow_ne_zero _ (by norm_num)
  rcases mul_eq_zero.mp hvalue with h | h
  · exact hdigits (by exact_mod_cast h)
  · exact hten h

namespace Binary64

variable (x : Binary64)

theorem bits_negate : x.negate.bits.toNat = x.bits.toNat ^^^ 2 ^ 63 := by
  rw [negate, UInt64.toNat_xor]
  rfl

theorem exponentField_negate : x.negate.exponentField = x.exponentField := by
  unfold exponentField
  rw [bits_negate]
  change (_ ^^^ 2 ^ 63) / 2 ^ 52 % 2 ^ 11 = x.bits.toNat / 2 ^ 52 % 2 ^ 11
  rw [Nat.xor_div_two_pow, Nat.xor_mod_two_pow]
  exact Nat.xor_zero _

theorem fractionField_negate : x.negate.fractionField = x.fractionField := by
  unfold fractionField
  rw [bits_negate]
  change (_ ^^^ 2 ^ 63) % 2 ^ 52 = x.bits.toNat % 2 ^ 52
  rw [Nat.xor_mod_two_pow]
  exact Nat.xor_zero _

theorem isNegative_negate : x.negate.isNegative = !x.isNegative := by
  have hbits := x.bits.toNat_lt
  have hquotient : x.negate.bits.toNat / 2 ^ 63 = x.bits.toNat / 2 ^ 63 ^^^ 1 := by
    rw [bits_negate, Nat.xor_div_two_pow, Nat.div_self (by decide)]
  have hbits' := x.negate.bits.toNat_lt
  unfold isNegative
  rcases Nat.lt_or_ge x.bits.toNat 0x8000000000000000 with h | h
  · rw [show x.bits.toNat / 2 ^ 63 = 0 by omega, Nat.zero_xor] at hquotient
    rw [decide_eq_true (by omega), decide_eq_false (by omega)]
    rfl
  · rw [show x.bits.toNat / 2 ^ 63 = 1 by omega] at hquotient
    change _ = 0 at hquotient
    rw [decide_eq_false (by omega), decide_eq_true h]
    rfl

theorem isZero_negate : x.negate.isZero = x.isZero := by
  rw [isZero, isZero, exponentField_negate, fractionField_negate]

theorem significand_negate : x.negate.significand = x.significand := by
  rw [significand, significand, exponentField_negate, fractionField_negate]

theorem scale_negate : x.negate.scale = x.scale := by
  rw [scale, scale, exponentField_negate]

theorem isBinadeStart_negate : x.negate.isBinadeStart = x.isBinadeStart := by
  rw [isBinadeStart, isBinadeStart, exponentField_negate, fractionField_negate]

theorem rounding_negate : x.negate.rounding = x.rounding := by
  unfold rounding
  rw [significand_negate, scale_negate, isBinadeStart_negate]

/-- The digits of a number do not depend on its sign. -/
theorem shortest_negate (tie : Tie) : x.negate.shortest tie = x.shortest tie := by
  have hbound : x.negate.decimalBound = x.decimalBound := by
    rw [decimalBound, decimalBound, significand_negate, scale_negate]
  unfold shortest
  rw [isZero_negate, rounding_negate, hbound, significand_negate, scale_negate]

end Binary64

end ScriptFuzz.Number
