import ScriptFuzz.Environment

/-!
# What is drawn is in range

A uniform number lies below its range, whatever the stream, a weighted index is one of its list, and a
sample holds at most as many elements as are asked for, all of them candidates.
-/

namespace ScriptFuzz

set_option autoImplicit false

namespace Draw

variable {α : Type}

theorem word_lt (r : Random) : (word.run r).1 < 0x100000000 := (r.word r.position).toNat_lt

theorem ofWidth_lt (w : Width) (r : Random) : ((ofWidth w).run r).1 < w.size := by
  cases w with
  | single => exact word_lt r
  | double =>
    have hlow := word_lt r
    have hhigh := word_lt (word.run r).2
    change (word.run r).1 + 0x100000000 * (word.run (word.run r).2).1 < 0x10000000000000000
    omega

theorem scaled_lt {w : Width} {range zone : Nat} (h : 0 < range) (fuel : Nat) (r : Random) :
    ((scaled w range zone fuel).run r).1 < range := by
  have hhigh (r : Random) : ((ofWidth w).run r).1 * range / w.size < range := by
    apply Nat.div_lt_of_lt_mul
    exact Nat.mul_lt_mul_of_pos_right (ofWidth_lt w r) h
  induction fuel generalizing r with
  | zero => exact hhigh r
  | succ fuel ih =>
    change ((if ((ofWidth w).run r).1 * range % w.size ≤ zone then
      pure (((ofWidth w).run r).1 * range / w.size)
      else scaled w range zone fuel : Draw Nat).run ((ofWidth w).run r).2).1 < range
    split
    · exact hhigh r
    · exact ih _

theorem below_lt {w : Width} {range : Nat} (h : 0 < range) (r : Random) :
    ((below w range).run r).1 < range := scaled_lt h attempts r

theorem length_refill (chosen : List α) (seen : Nat) (xs : List α) (r : Random) :
    ((refill chosen seen xs).run r).1.length = chosen.length := by
  induction xs generalizing chosen seen r with
  | nil => rfl
  | cons x xs ih =>
    refine (ih _ _ _).trans ?_
    split
    · exact List.length_set
    · rfl

theorem mem_of_refill {chosen xs : List α} {seen : Nat} {r : Random} {y : α}
    (h : y ∈ ((refill chosen seen xs).run r).1) : y ∈ chosen ∨ y ∈ xs := by
  induction xs generalizing chosen seen r with
  | nil => exact .inl h
  | cons x xs ih =>
    rcases ih h with h | h
    · split at h
      · rcases List.mem_or_eq_of_mem_set h with h | rfl
        · exact .inl h
        · exact .inr List.mem_cons_self
      · exact .inl h
    · exact .inr (List.mem_cons_of_mem x h)

theorem length_sample_le (count : Nat) (xs : List α) (r : Random) :
    ((sample count xs).run r).1.length ≤ count := by
  unfold sample
  rw [length_refill, List.length_take]
  exact Nat.min_le_left _ _

theorem mem_of_sample {count : Nat} {xs : List α} {r : Random} {x : α}
    (h : x ∈ ((sample count xs).run r).1) : x ∈ xs := by
  rcases mem_of_refill h with h | h
  · exact List.mem_of_mem_take h
  · exact List.mem_of_mem_drop h

theorem mem_of_choose {xs : List α} {r : Random} {x : α}
    (h : ((choose xs).run r).1 = some x) : x ∈ xs := by
  unfold choose at h
  split at h
  · cases h
  · exact List.mem_of_getElem? h

theorem indexOfWeight_lt {ws : List Nat} (h : ws ≠ []) (x : Nat) :
    indexOfWeight x ws < ws.length := by
  induction ws generalizing x with
  | nil => exact absurd rfl h
  | cons w ws ih =>
    cases ws with
    | nil => exact Nat.one_pos
    | cons v vs =>
      unfold indexOfWeight
      split
      · exact Nat.succ_pos _
      · exact Nat.succ_lt_succ (ih (List.cons_ne_nil v vs) _)

theorem weighted_lt {w : Width} {weights : List Nat} {r : Random} {n : Nat}
    (h : ((weighted w weights).run r).1 = some n) : n < weights.length := by
  unfold weighted at h
  simp only at h
  split at h
  · cases h
  · rename_i htotal
    cases h
    apply indexOfWeight_lt
    rintro rfl
    exact htotal rfl

end Draw

namespace Environment

/-- A name is one of a pool or one that need not occur. -/
def Names (pool : List String) (custom name : String) : Prop :=
  name = custom ∨ name = customProperty ∨ name ∈ pool

theorem names_of_choose {pool names : List String} {custom : String}
    (h : names = [custom] ∨ names = pool) (r : Random) :
    Names pool custom
      ((do return (← Draw.choose names).getD customProperty : Draw String).run r).1 := by
  change Names pool custom (((Draw.choose names).run r).1.getD customProperty)
  cases hchoice : ((Draw.choose names).run r).1 with
  | none => exact .inr (.inl rfl)
  | some name =>
    have hmem := Draw.mem_of_choose hchoice
    rcases h with rfl | rfl
    · exact .inl (List.mem_singleton.mp hmem)
    · exact .inr (.inr hmem)

theorem names_drawName (pool : List String) (custom : String) (r : Random) :
    Names pool custom ((drawName pool custom).run r).1 := by
  have hrare (rare : Bool) (r : Random) : Names pool custom
      ((do
        let names ← if rare then pure [custom] else pure pool
        return (← Draw.choose names).getD customProperty : Draw String).run r).1 := by
    cases rare with
    | false => exact names_of_choose (.inr rfl) r
    | true => exact names_of_choose (.inl rfl) r
  unfold drawName
  split
  · exact names_of_choose (.inl rfl) r
  · exact hrare _ _

end Environment

end ScriptFuzz
