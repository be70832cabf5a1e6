import ScriptFuzz.Text.Hex
import Mathlib.Data.Nat.ModEq

/-!
# Reading hexadecimal digits

Digits with enough places read back as the number that they were made from.
-/

namespace ScriptFuzz.Text.Hex

set_option autoImplicit false

@[simp] theorem length_digits (places n : Nat) : (digits places n).length = places := by
  induction places generalizing n with
  | zero => rfl
  | succ places ih => rw [digits, List.length_append, ih, List.length_singleton]

/-- The last places of a number are what remains modulo a power of sixteen. -/
theorem number?_digits (places n : Nat) : number? (digits places n) = some (n % 16 ^ places) := by
  induction places generalizing n with
  | zero => simp [digits, number?, Nat.mod_one]
  | succ places ih =>
    have hlast := value?_digit (n % 16) (Nat.mod_lt n (by decide))
    have hfold : number? (digits places (n / 16) ++ [digit (n % 16)]) =
        do return (← number? (digits places (n / 16))) * 16 + (← value? (digit (n % 16))) := by
      rw [number?, List.foldl_append]
      rfl
    rw [digits, hfold, ih, hlast]
    change some (n / 16 % 16 ^ places * 16 + n % 16) = some (n % 16 ^ (places + 1))
    rw [Nat.pow_succ', Nat.mod_mul]
    congr 1
    omega

theorem number?_digits_of_lt {places n : Nat} (h : n < 16 ^ places) :
    number? (digits places n) = some n := by
  rw [number?_digits, Nat.mod_eq_of_lt h]

end ScriptFuzz.Text.Hex
