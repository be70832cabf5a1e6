import Mathlib.Algebra.Group.Nat.Defs
import Mathlib.Data.List.Basic
import ScriptFuzz.Proofs.Text.Utf8
import ScriptFuzz.Wire.Codec

/-!
# Reading what was written

`Reader.Restores` says that a reader takes exactly the given bytes from the front of any byte string
and gives the value that they were written for. Readers in sequence restore what writers in sequence
wrote, so a format is read back field by field.
-/

namespace ScriptFuzz.Wire

set_option autoImplicit false

open ScriptFuzz.Text

@[simp] theorem length_word (width n : Nat) : (word width n).length = width := by
  induction width generalizing n with
  | zero => rfl
  | succ width ih => rw [word, List.length_cons, ih]

theorem ofWord_word (width n : Nat) : ofWord (word width n) = n % 256 ^ width := by
  induction width generalizing n with
  | zero => rw [word, ofWord, Nat.pow_zero, Nat.mod_one]
  | succ width ih =>
    have hbyte : (UInt8.ofNat n).toNat = n % 256 := UInt8.toNat_ofNat' ..
    rw [word, ofWord, ih, hbyte, Nat.pow_succ', Nat.mod_mul]

/-- The bound below which the lengths of lists in memory lie. -/
def lengthLimit : Nat := 0x10000000000000000

/-- The bytes of the text can be counted. -/
def FitsText (s : String) : Prop := (Utf8.encode s).length < lengthLimit

instance (s : String) : Decidable (FitsText s) := inferInstanceAs (Decidable (_ < _))

namespace Reader

variable {α β : Type} {r : Reader α} {g : α → Reader β} {bs bs' : List UInt8} {a : α} {b : β}

/-- Whatever follows them, the reader takes exactly these bytes and gives the value. -/
def Restores (r : Reader α) (bs : List UInt8) (a : α) : Prop :=
  ∀ rest, r.run (bs ++ rest) = .ok (a, rest)

theorem restores_pure (a : α) : Restores (pure a) [] a := fun _ => rfl

theorem Restores.bind (hr : Restores r bs a) (hg : Restores (g a) bs' b) :
    Restores (r >>= g) (bs ++ bs') b := by
  intro rest
  have hrun := hr (bs' ++ rest)
  rw [List.append_assoc, StateT.run_bind, hrun]
  exact hg rest

/-- What is done after the last bytes are taken. -/
theorem Restores.bind_nil (hr : Restores r bs a) (hg : Restores (g a) [] b) :
    Restores (r >>= g) bs b := by
  have h := hr.bind hg
  rwa [List.append_nil] at h

theorem Restores.map (hr : Restores r bs a) (f : α → β) : Restores (f <$> r) bs (f a) := by
  rw [map_eq_pure_bind]
  exact hr.bind_nil (restores_pure (f a))

theorem restores_bytes (bs : List UInt8) : Restores (bytes bs.length) bs bs := by
  intro rest
  change (if ((bs ++ rest).take bs.length).length = bs.length then _ else _) = _
  rw [List.take_left, if_pos rfl, List.drop_left]

theorem restores_word {width n : Nat} (h : n < 256 ^ width) :
    Restores (word width) (Wire.word width n) n := by
  have hbytes := (restores_bytes (Wire.word width n)).map ofWord
  rwa [length_word, ofWord_word, Nat.mod_eq_of_lt h] at hbytes

theorem restores_count {n : Nat} (h : n < lengthLimit) : Restores count (Wire.count n) n :=
  restores_word (Nat.lt_of_lt_of_le h (by decide))

theorem restores_variant {n : Nat} (h : n < 256 ^ 4) : Restores variant (Wire.variant n) n :=
  restores_word h

theorem restores_bool (b : Bool) : Restores bool (Wire.bool b) b := by
  cases b <;> exact fun _ => rfl

theorem restores_text {s : String} (h : FitsText s) : Restores text (Wire.text s) s := by
  refine (restores_count h).bind ((restores_bytes (Utf8.encode s)).bind_nil ?_)
  rw [Utf8.decode?_encode]
  simp only
  rw [String.ofList_toList]
  exact restores_pure s

theorem restores_option {write : α → List UInt8} {a : Option α}
    (h : ∀ x, a = some x → Restores r (write x) x) : Restores (option r) (Wire.option write a) a := by
  cases a with
  | none => exact fun _ => rfl
  | some x =>
    change Restores _ (Wire.word 1 1 ++ write x) _
    exact (restores_word (by decide)).bind ((h x rfl).map some)

theorem restores_many {write : α → List UInt8} {xs : List α} (h : ∀ x ∈ xs, Restores r (write x) x) :
    Restores (many r xs.length) (xs.flatMap write) xs := by
  induction xs with
  | nil => exact restores_pure []
  | cons x xs ih =>
    have hrest := ih fun y hy => h y (List.mem_cons_of_mem x hy)
    exact (h x List.mem_cons_self).bind (hrest.map (x :: ·))

theorem restores_list {write : α → List UInt8} {xs : List α} (hlength : xs.length < lengthLimit)
    (h : ∀ x ∈ xs, Restores r (write x) x) : Restores (list r) (Wire.list write xs) xs :=
  (restores_count hlength).bind (restores_many h)

theorem restores_member [DecidableEq α] {all : List α} (hlength : all.length < 256 ^ 4)
    (h : a ∈ all) : Restores (member all) (Wire.variant (all.idxOf a)) a := by
  have hlt := List.idxOf_lt_length_iff.mpr h
  refine (restores_variant (Nat.lt_trans hlt hlength)).bind_nil ?_
  rw [List.getElem?_idxOf h]
  exact restores_pure a

end Reader

end ScriptFuzz.Wire
