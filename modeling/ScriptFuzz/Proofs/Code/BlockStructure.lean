import Mathlib.Data.List.Chain
import Mathlib.Data.List.Nodup
import ScriptFuzz.Proofs.Code.Groups

/-!
# Block structure

The depth of a position is the number of groups around it. It alone tells which instructions belong
together: the tail of a group is the first later position behind which the depth is again that of
the head, and what goes on with the group stands one level deeper than its head
(`Code.Delimits`). In checked code the groups that are matched with a stack are exactly these, each
block instruction is in one of them, and they are nested or apart (`Code.lists_blockGroups`).
-/

namespace ScriptFuzz

set_option autoImplicit false

namespace Instruction

/-- Starts a block and ends none. -/
def isHead (i : Instruction) : Bool := i.isBlockStart && !i.isBlockEnd

/-- Ends one block and starts the next. -/
def isMiddle (i : Instruction) : Bool := i.isBlockStart && i.isBlockEnd

/-- Ends a block and starts none. -/
def isTail (i : Instruction) : Bool := !i.isBlockStart && i.isBlockEnd

theorem isBlock_of_isHead {i : Instruction} (h : i.isHead = true) : i.isBlock = true := by
  simp only [isHead, Bool.and_eq_true] at h
  rw [isBlock, h.1, Bool.true_or]

end Instruction

/-- The group lies between two own instructions of the other that follow each other. -/
def BlockGroup.LiesIn (g h : BlockGroup) : Prop :=
  ∃ a b, [a, b] <:+: h.own ∧ a < g.head ∧ g.tail < b

namespace Code

/-- The depth behind an instruction that stands at depth `d`. -/
def deepen (d : Nat) (i : Instruction) : Nat :=
  if i.isHead then d + 1 else if i.isTail then d - 1 else d

/-- The number of groups that are open before position `n`. -/
def depth (code : Code) (n : Nat) : Nat := (code.take n).foldl deepen 0

/-- The instruction at `b` may close what the one at `a` opens. -/
def Links (code : Code) (a b : Nat) : Prop :=
  ∃ i j, code[a]? = some i ∧ code[b]? = some j ∧ j.op.closes i.op = true

/-- At `k` one block is ended and the next started, one level deeper than `head`. -/
structure Continues (code : Code) (head k : Nat) : Prop where
  lt : head < k
  middle : ∃ i, code[k]? = some i ∧ i.isMiddle = true
  level : code.depth k = code.depth head + 1

/-- The group runs from a head to the tail that belongs to it, and owns what belongs to both. -/
structure Delimits (code : Code) (g : BlockGroup) : Prop where
  head : ∃ i, code[g.head]? = some i ∧ i.isHead = true
  tail : ∃ i, code[g.tail]? = some i ∧ i.isTail = true
  lt : g.head < g.tail
  inside : ∀ k, g.head < k → k ≤ g.tail → code.depth g.head < code.depth k
  back : code.depth (g.tail + 1) = code.depth g.head
  ascending : g.own.Pairwise (· < ·)
  mem_own : ∀ k, k ∈ g.own ↔ k = g.head ∨ k = g.tail ∨ k < g.tail ∧ code.Continues g.head k
  linked : g.own.IsChain code.Links

/-- The group has its head and all that goes on with it in the code, but no tail. -/
structure Begins (code : Code) (g : BlockGroup) : Prop where
  head : ∃ i, code[g.head]? = some i ∧ i.isHead = true
  inside : ∀ k, g.head < k → k ≤ code.length → code.depth g.head < code.depth k
  ascending : g.own.Pairwise (· < ·)
  mem_own : ∀ k, k ∈ g.own ↔ k = g.head ∨ code.Continues g.head k
  linked : g.own.IsChain code.Links

variable {a b code done : Code} {m : Matching} {p q : Progress} {i j : Instruction}
  {g h : BlockGroup} {gs : List BlockGroup} {k n : Nat}

/-! ## Depths -/

theorem depth_append (h : n ≤ a.length) : depth (a ++ b) n = depth a n := by
  unfold depth
  rw [List.take_append_of_le_length h]

theorem deepen_of_isHead {d : Nat} (h : i.isHead = true) : deepen d i = d + 1 := by
  rw [deepen, if_pos h]

theorem deepen_of_isMiddle {d : Nat} (h : i.isMiddle = true) : deepen d i = d := by
  simp only [Instruction.isMiddle, Bool.and_eq_true] at h
  simp [deepen, Instruction.isHead, Instruction.isTail, h]

theorem deepen_of_isTail {d : Nat} (h : i.isTail = true) : deepen d i = d - 1 := by
  have hkind := h
  simp only [Instruction.isTail, Bool.and_eq_true, Bool.not_eq_true'] at hkind
  simp [deepen, Instruction.isHead, h, hkind]

theorem deepen_of_isBlock {d : Nat} (h : i.isBlock = false) : deepen d i = d := by
  simp only [Instruction.isBlock, Bool.or_eq_false_iff] at h
  simp [deepen, Instruction.isHead, Instruction.isTail, h]

theorem depth_concat :
    depth (done ++ [i]) (done.length + 1) = deepen (depth done done.length) i := by
  unfold depth
  rw [List.take_of_length_le (by simp), List.foldl_append, List.take_length]
  rfl

theorem getElem?_append_of_eq_some (h : a[n]? = some i) : (a ++ b)[n]? = some i := by
  rw [List.getElem?_append_left (List.getElem?_eq_some_iff.mp h).1]
  exact h

theorem exists_getElem?_append {P : Instruction → Prop} (h : ∃ i, a[n]? = some i ∧ P i) :
    ∃ i, (a ++ b)[n]? = some i ∧ P i := by
  obtain ⟨i, hi, hP⟩ := h
  exact ⟨i, getElem?_append_of_eq_some hi, hP⟩

theorem getElem?_concat_eq_some (h : (done ++ [i])[n]? = some j) :
    done[n]? = some j ∨ n = done.length ∧ j = i := by
  rw [List.getElem?_append] at h
  split at h
  · exact .inl h
  · rename_i hn
    rw [List.getElem?_singleton] at h
    split at h
    · refine .inr ⟨by omega, ?_⟩
      cases h
      rfl
    · cases h

theorem Links.append (h : code.Links n k) : Links (code ++ b) n k := by
  obtain ⟨i, j, hi, hj, hcloses⟩ := h
  exact ⟨i, j, getElem?_append_of_eq_some hi, getElem?_append_of_eq_some hj, hcloses⟩

theorem Continues.lt_length (h : code.Continues n k) : k < code.length := by
  obtain ⟨i, hi, -⟩ := h.middle
  exact (List.getElem?_eq_some_iff.mp hi).1

theorem continues_append_iff (hk : k < a.length) :
    Continues (a ++ b) n k ↔ Continues a n k := by
  constructor
  · rintro ⟨hlt, hmiddle, hlevel⟩
    rw [List.getElem?_append_left hk] at hmiddle
    rw [depth_append (by omega), depth_append (by omega)] at hlevel
    exact ⟨hlt, hmiddle, hlevel⟩
  · rintro ⟨hlt, hmiddle, hlevel⟩
    refine ⟨hlt, ?_, ?_⟩
    · rwa [List.getElem?_append_left hk]
    · rwa [depth_append (by omega), depth_append (by omega)]

/-- What is added to the code goes on with a group if it ends a block at the right depth. -/
theorem continues_concat_iff (hn : n < done.length) :
    Continues (done ++ [i]) n k ↔ Continues done n k ∨
      k = done.length ∧ i.isMiddle = true ∧ done.depth done.length = done.depth n + 1 := by
  constructor
  · intro h
    have hk := h.lt_length
    rw [List.length_append, List.length_singleton] at hk
    rcases Nat.lt_or_eq_of_le (Nat.le_of_lt_succ hk) with hk | rfl
    · exact .inl ((continues_append_iff hk).mp h)
    · obtain ⟨j, hj, hmiddle⟩ := h.middle
      have hlevel := h.level
      rw [List.getElem?_concat_length] at hj
      cases hj
      rw [depth_append (Nat.le_refl _), depth_append (by omega)] at hlevel
      exact .inr ⟨rfl, hmiddle, hlevel⟩
  · rintro (h | ⟨rfl, hmiddle, hlevel⟩)
    · exact (continues_append_iff h.lt_length).mpr h
    · refine ⟨hn, ⟨i, List.getElem?_concat_length, hmiddle⟩, ?_⟩
      rwa [depth_append (Nat.le_refl _), depth_append (by omega)]

/-! ## One instruction more -/

theorem Begins.head_lt (h : done.Begins g) : g.head < done.length := by
  obtain ⟨i, hi, -⟩ := h.head
  exact (List.getElem?_eq_some_iff.mp hi).1

theorem Begins.lt_length (h : done.Begins g) (hk : k ∈ g.own) : k < done.length := by
  rcases (h.mem_own k).mp hk with rfl | hk
  · exact h.head_lt
  · exact hk.lt_length

theorem begins_start (hi : i.isHead = true) :
    Begins (done ++ [i]) { head := done.length, tail := n, own := [done.length] } where
  head := ⟨i, List.getElem?_concat_length, hi⟩
  inside k hk hle := by
    rw [List.length_append, List.length_singleton] at hle
    obtain rfl : k = done.length + 1 := by simp only at hk; omega
    rw [depth_concat, depth_append (Nat.le_refl _), deepen_of_isHead hi]
    exact Nat.lt_succ_self _
  ascending := List.pairwise_singleton _ _
  mem_own k := by
    rw [List.mem_singleton]
    refine ⟨.inl, fun hk => hk.resolve_right fun hk => ?_⟩
    have hlt := hk.lt
    have hlength := hk.lt_length
    simp only [List.length_append, List.length_singleton] at hlt hlength
    omega
  linked := List.IsChain.singleton _

theorem Begins.inside_concat (h : done.Begins g)
    (hlt : done.depth g.head < deepen (done.depth done.length) i) :
    ∀ k, g.head < k → k ≤ (done ++ [i]).length →
      depth (done ++ [i]) g.head < depth (done ++ [i]) k := by
  intro k hk hle
  rw [List.length_append, List.length_singleton] at hle
  have hhead := h.head_lt
  rw [depth_append (by omega)]
  rcases Nat.lt_or_eq_of_le hle with hle | rfl
  · rw [depth_append (by omega)]
    exact h.inside k hk (by omega)
  · rwa [depth_concat]

/-- An instruction elsewhere leaves the group as it is. -/
theorem Begins.skip (h : done.Begins g)
    (hlt : done.depth g.head < deepen (done.depth done.length) i)
    (hlevel : i.isMiddle = true → done.depth done.length ≠ done.depth g.head + 1) :
    Begins (done ++ [i]) g where
  head := exists_getElem?_append h.head
  inside := h.inside_concat hlt
  ascending := h.ascending
  mem_own k := by
    rw [h.mem_own, continues_concat_iff h.head_lt]
    refine or_congr_right ⟨.inl, fun hk => hk.resolve_right ?_⟩
    rintro ⟨-, hmiddle, hdepth⟩
    exact hlevel hmiddle hdepth
  linked := h.linked.imp fun _ _ => Links.append

theorem Begins.ascending_concat (h : done.Begins g) :
    (g.own ++ [done.length]).Pairwise (· < ·) := by
  refine List.pairwise_append.mpr ⟨h.ascending, List.pairwise_singleton _ _, ?_⟩
  intro k hk n hn
  rw [List.mem_singleton.mp hn]
  exact h.lt_length hk

theorem Begins.linked_concat (h : done.Begins g) {latest : Nat}
    (hlatest : g.own.getLast? = some latest) (hi : done[latest]? = some j)
    (hcloses : i.op.closes j.op = true) :
    (g.own ++ [done.length]).IsChain (Links (done ++ [i])) := by
  refine List.isChain_append.mpr
    ⟨h.linked.imp fun _ _ => Links.append, List.IsChain.singleton _, ?_⟩
  intro n hn k hk
  rw [hlatest] at hn
  cases hn
  cases hk
  exact ⟨j, i, getElem?_append_of_eq_some hi, List.getElem?_concat_length, hcloses⟩

theorem Begins.extend (h : done.Begins g) (hi : i.isMiddle = true)
    (hlevel : done.depth done.length = done.depth g.head + 1)
    (hlinked : (g.own ++ [done.length]).IsChain (Links (done ++ [i]))) :
    Begins (done ++ [i]) { g with own := g.own ++ [done.length] } where
  head := exists_getElem?_append h.head
  inside := by
    refine h.inside_concat ?_
    rw [deepen_of_isMiddle hi, hlevel]
    exact Nat.lt_succ_self _
  ascending := h.ascending_concat
  mem_own k := by
    rw [List.mem_append, List.mem_singleton, h.mem_own, continues_concat_iff h.head_lt, or_assoc]
    exact or_congr_right (or_congr_right ⟨fun hk => ⟨hk, hi, hlevel⟩, And.left⟩)
  linked := hlinked

/-- The tail of a group leads back to the depth of its head. -/
theorem Begins.finish (h : done.Begins g) (hi : i.isTail = true)
    (hlevel : done.depth done.length = done.depth g.head + 1)
    (hlinked : (g.own ++ [done.length]).IsChain (Links (done ++ [i]))) :
    Delimits (done ++ [i]) { g with tail := done.length, own := g.own ++ [done.length] } where
  head := exists_getElem?_append h.head
  tail := ⟨i, List.getElem?_concat_length, hi⟩
  lt := h.head_lt
  inside k hk hle := by
    have hhead := Nat.le_of_lt h.head_lt
    simp only at hk hle
    rw [depth_append hhead, depth_append hle]
    exact h.inside k hk hle
  back := by
    have hlt := h.head_lt
    simp only
    rw [depth_concat, depth_append (Nat.le_of_lt hlt), deepen_of_isTail hi, hlevel]
    exact Nat.add_sub_cancel _ _
  ascending := h.ascending_concat
  mem_own k := by
    rw [List.mem_append, List.mem_singleton, h.mem_own, or_assoc]
    refine or_congr_right ?_
    constructor
    · rintro (hk | hk)
      · exact .inr ⟨hk.lt_length, (continues_append_iff hk.lt_length).mpr hk⟩
      · exact .inl hk
    · rintro (hk | ⟨hlt, hk⟩)
      · exact .inr hk
      · exact .inl ((continues_append_iff hlt).mp hk)
  linked := hlinked

theorem Delimits.tail_lt (h : code.Delimits g) : g.tail < code.length := by
  obtain ⟨i, hi, -⟩ := h.tail
  exact (List.getElem?_eq_some_iff.mp hi).1

/-- A whole group stays as it is. -/
theorem Delimits.append (h : a.Delimits g) : Delimits (a ++ b) g where
  head := exists_getElem?_append h.head
  tail := exists_getElem?_append h.tail
  lt := h.lt
  inside k hk hle := by
    have hlt := h.tail_lt
    rw [depth_append (by omega), depth_append (by omega)]
    exact h.inside k hk hle
  back := by
    have hlt := h.tail_lt
    have := h.lt
    rw [depth_append (by omega), depth_append (by omega)]
    exact h.back
  ascending := h.ascending
  mem_own k := by
    have hlt := h.tail_lt
    rw [h.mem_own]
    refine or_congr_right (or_congr_right (and_congr_right fun hk => ?_))
    exact (continues_append_iff (by omega)).symm
  linked := h.linked.imp fun _ _ => Links.append

/-! ## Reading groups -/

namespace Matching

variable {blocks : List Instruction} {opener : Instruction}

/-- What the open and the complete groups are. The open ones stand one inside of the other, and the
last own instruction of each opened a block that is open. -/
structure Charts (done : Code) (m : Matching) (blocks : List Instruction) : Prop where
  depth : done.depth done.length = m.opened.length
  stacked : ∀ g gs, g :: gs <:+ m.opened → done.depth g.head = gs.length
  opened : ∀ g ∈ m.opened, done.Begins g
  closed : ∀ g ∈ m.closed, done.Delimits g
  ended : m.closed.Pairwise fun g h => h.tail < g.tail
  latest : List.Forall₂ (fun g i => ∃ k, g.own.getLast? = some k ∧ done[k]? = some i) m.opened
    blocks

theorem charts_start : Charts [] {} [] where
  depth := rfl
  stacked g gs h := by simp at h
  opened := nofun
  closed := nofun
  ended := .nil
  latest := .nil

namespace Charts

/-- The groups around the innermost one have their heads further out. -/
theorem depth_lt (h : Charts done m blocks) (hm : m.opened = g :: gs) {o : BlockGroup}
    (ho : o ∈ gs) : done.depth o.head < gs.length := by
  obtain ⟨s, t, rfl⟩ := List.append_of_mem ho
  have hsuffix : o :: t <:+ m.opened := by
    rw [hm]
    exact ⟨g :: s, rfl⟩
  rw [h.stacked o t hsuffix, List.length_append, List.length_cons]
  omega

theorem depth_innermost (h : Charts done m blocks) (hm : m.opened = g :: gs) :
    done.depth g.head = gs.length ∧ done.depth done.length = done.depth g.head + 1 := by
  have hlevel := h.stacked g gs (hm ▸ List.suffix_rfl)
  have hdepth := h.depth
  rw [hm, List.length_cons] at hdepth
  exact ⟨hlevel, by omega⟩

theorem level (h : Charts done m blocks) (hs : g :: gs <:+ m.opened) :
    Code.depth (done ++ [i]) g.head = gs.length := by
  have hlt := (h.opened g (hs.subset List.mem_cons_self)).head_lt
  rw [depth_append (Nat.le_of_lt hlt)]
  exact h.stacked g gs hs

theorem closed_append (h : Charts done m blocks) : ∀ g ∈ m.closed, Delimits (done ++ [i]) g :=
  fun g hg => (h.closed g hg).append

theorem latest_append (h : Charts done m blocks) :
    List.Forall₂ (fun g j => ∃ k, g.own.getLast? = some k ∧ (done ++ [i])[k]? = some j) m.opened
      blocks := by
  refine h.latest.imp ?_
  rintro g j ⟨k, hk, hj⟩
  exact ⟨k, hk, getElem?_append_of_eq_some hj⟩

theorem skip (h : Charts done m blocks) (hi : i.isBlock = false) :
    Charts (done ++ [i]) m blocks := by
  have hdeepen : deepen (done.depth done.length) i = done.depth done.length := deepen_of_isBlock hi
  refine ⟨?_, fun g gs hs => h.level hs, ?_, h.closed_append, h.ended, h.latest_append⟩
  · rw [List.length_append, List.length_singleton, depth_concat, hdeepen]
    exact h.depth
  · intro g hg
    have hg := h.opened g hg
    refine hg.skip ?_ ?_
    · rw [hdeepen]
      exact hg.inside done.length hg.head_lt (Nat.le_refl _)
    · intro hmiddle
      simp only [Instruction.isBlock, Bool.or_eq_false_iff] at hi
      simp [Instruction.isMiddle, hi] at hmiddle

theorem start (h : Charts done m blocks) (hi : i.isHead = true) :
    Charts (done ++ [i])
      { m with
        opened := { head := done.length, tail := done.length, own := [done.length] } :: m.opened }
      (i :: blocks) := by
  have hdeepen : deepen (done.depth done.length) i = done.depth done.length + 1 :=
    deepen_of_isHead hi
  refine ⟨?_, ?_, ?_, h.closed_append, h.ended, ?_⟩
  · rw [List.length_append, List.length_singleton, depth_concat, hdeepen, h.depth]
    rfl
  · intro g gs hs
    rcases List.suffix_cons_iff.mp hs with heq | hs
    · cases heq
      rw [depth_append (Nat.le_refl _)]
      exact h.depth
    · exact h.level hs
  · intro g hg
    rcases List.mem_cons.mp hg with rfl | hg
    · exact begins_start hi
    · have hg := h.opened g hg
      refine hg.skip ?_ ?_
      · rw [hdeepen]
        have := hg.inside done.length hg.head_lt (Nat.le_refl _)
        omega
      · intro hmiddle
        simp only [Instruction.isHead, Instruction.isMiddle, Bool.and_eq_true] at hi hmiddle
        rw [hmiddle.2] at hi
        cases hi.2
  · exact .cons ⟨done.length, rfl, List.getElem?_concat_length⟩ h.latest_append

/-- An end of a block goes with the innermost group, whose last own instruction opened the block. -/
theorem linked (h : Charts done m (opener :: blocks)) (hm : m.opened = g :: gs)
    (hcloses : i.op.closes opener.op = true) :
    (g.own ++ [done.length]).IsChain (Links (done ++ [i])) := by
  have hlatest := h.latest
  rw [hm] at hlatest
  obtain ⟨⟨k, hk, hopener⟩, -⟩ := List.forall₂_cons.mp hlatest
  exact (h.opened g (by simp [hm])).linked_concat hk hopener hcloses

theorem latest_tail (h : Charts done m (opener :: blocks)) (hm : m.opened = g :: gs) :
    List.Forall₂ (fun g j => ∃ k, g.own.getLast? = some k ∧ (done ++ [i])[k]? = some j) gs
      blocks := by
  have hlatest := h.latest_append (i := i)
  rw [hm] at hlatest
  exact (List.forall₂_cons.mp hlatest).2

theorem extend (h : Charts done m (opener :: blocks)) (hm : m.opened = g :: gs)
    (hi : i.isMiddle = true) (hcloses : i.op.closes opener.op = true) :
    Charts (done ++ [i]) { m with opened := { g with own := g.own ++ [done.length] } :: gs }
      (i :: blocks) := by
  obtain ⟨hhead, hlevel⟩ := h.depth_innermost hm
  have hdeepen : deepen (done.depth done.length) i = done.depth done.length :=
    deepen_of_isMiddle hi
  have hsuffix {o : BlockGroup} {os : List BlockGroup} (hs : o :: os <:+ gs) :
      o :: os <:+ m.opened := by
    rw [hm]
    exact hs.trans (List.suffix_cons g gs)
  refine ⟨?_, ?_, ?_, h.closed_append, h.ended, ?_⟩
  · rw [List.length_append, List.length_singleton, depth_concat, hdeepen, hlevel, hhead]
    rfl
  · intro o os hs
    rcases List.suffix_cons_iff.mp hs with heq | hs
    · cases heq
      have hg : g :: gs <:+ m.opened := hm ▸ List.suffix_rfl
      exact (h.level hg : Code.depth (done ++ [i]) g.head = gs.length)
    · exact h.level (hsuffix hs)
  · intro o ho
    rcases List.mem_cons.mp ho with rfl | ho
    · exact (h.opened g (by simp [hm])).extend hi hlevel (h.linked hm hcloses)
    · have hlt := h.depth_lt hm ho
      refine (h.opened o (by simp [hm, ho])).skip ?_ fun _ => ?_
      · rw [hdeepen]
        omega
      · omega
  · exact .cons ⟨done.length, List.getLast?_concat, List.getElem?_concat_length⟩ (h.latest_tail hm)

theorem finish (h : Charts done m (opener :: blocks)) (hm : m.opened = g :: gs)
    (hi : i.isTail = true) (hcloses : i.op.closes opener.op = true) :
    Charts (done ++ [i])
      { opened := gs
        closed := { g with tail := done.length, own := g.own ++ [done.length] } :: m.closed }
      blocks := by
  obtain ⟨hhead, hlevel⟩ := h.depth_innermost hm
  have hdeepen : deepen (done.depth done.length) i = gs.length := by
    rw [deepen_of_isTail hi, hlevel, hhead]
    exact Nat.add_sub_cancel _ _
  refine ⟨?_, ?_, ?_, ?_, ?_, h.latest_tail hm⟩
  · rw [List.length_append, List.length_singleton, depth_concat, hdeepen]
  · intro o os hs
    apply h.level
    rw [hm]
    exact hs.trans (List.suffix_cons g gs)
  · intro o ho
    have hlt := h.depth_lt hm ho
    refine (h.opened o (by simp [hm, ho])).skip ?_ ?_
    · rw [hdeepen]
      exact hlt
    · intro hmiddle
      simp only [Instruction.isMiddle, Bool.and_eq_true] at hmiddle
      simp [Instruction.isTail, hmiddle] at hi
  · intro o ho
    rcases List.mem_cons.mp ho with rfl | ho
    · exact (h.opened g (by simp [hm])).finish hi hlevel (h.linked hm hcloses)
    · exact h.closed_append o ho
  · refine List.pairwise_cons.mpr ⟨fun o ho => ?_, h.ended⟩
    exact (h.closed o ho).tail_lt

theorem exists_innermost (h : Charts done m (opener :: blocks)) : ∃ g gs, m.opened = g :: gs := by
  obtain ⟨g, gs, -, -, hm⟩ := List.forall₂_cons_right_iff.mp h.latest
  exact ⟨g, gs, hm⟩

theorem step (h : Charts done m p.blocks) (ha : p.Admits done.length i) :
    Charts (done ++ [i]) (m.step i) (p.after i).blocks := by
  unfold Matching.step Progress.after Progress.outerBlocks
  rw [ha.index]
  cases he : i.isBlockEnd with
  | false =>
    cases hs : i.isBlockStart with
    | false => exact h.skip (by rw [Instruction.isBlock, hs, he]; rfl)
    | true => exact h.start (by rw [Instruction.isHead, hs, he]; rfl)
  | true =>
    obtain ⟨opener, rest, hblocks, hcloses⟩ := ha.closes he
    rw [hblocks] at h ⊢
    obtain ⟨g, gs, hm⟩ := h.exists_innermost
    cases hs : i.isBlockStart with
    | false =>
      simp only [hm]
      exact h.finish hm (by rw [Instruction.isTail, hs, he]; rfl) hcloses
    | true =>
      simp only [hm]
      exact h.extend hm (by rw [Instruction.isMiddle, hs, he]; rfl) hcloses

end Charts

/-- Every block instruction is an own one of a group. -/
def Covers (done : Code) (m : Matching) : Prop :=
  ∀ n i, done[n]? = some i → i.isBlock = true → ∃ g, (g ∈ m.opened ∨ g ∈ m.closed) ∧ n ∈ g.own

theorem Covers.step (h : Covers done m) (hi : i.index = done.length)
    (hopened : i.isBlockEnd = true → ∃ g gs, m.opened = g :: gs) :
    Covers (done ++ [i]) (m.step i) := by
  intro n j hj hblock
  rcases getElem?_concat_eq_some hj with hj | ⟨rfl, rfl⟩
  · obtain ⟨g, hg | hg, hown⟩ := h n j hj hblock
    · obtain ⟨g', -, hsub, hg'⟩ := mem_step (i := i) hg
      exact ⟨g', hg'.imp_right And.left, hsub hown⟩
    · exact ⟨g, .inr (mem_closed_step hg), hown⟩
  · rw [← hi]
    cases he : j.isBlockEnd with
    | true =>
      obtain ⟨g, gs, hm⟩ := hopened he
      obtain ⟨g', -, hown, hg'⟩ := exists_own_of_isBlockEnd hm he
      exact ⟨g', hg', hown⟩
    | false =>
      rw [Instruction.isBlock, he, Bool.or_false] at hblock
      refine ⟨{ head := j.index, tail := j.index, own := [j.index] }, .inl ?_,
        List.mem_singleton_self _⟩
      unfold Matching.step
      simp [he, hblock]

end Matching

/-! ## Groups of checked code -/

/-- A head belongs to one group only, which is a matter of depths. -/
theorem Delimits.eq_of_head (hg : code.Delimits g) (hh : code.Delimits h)
    (heq : g.head = h.head) : g = h := by
  have hle {x y : BlockGroup} (hx : code.Delimits x) (hy : code.Delimits y)
      (heq : x.head = y.head) : x.tail ≤ y.tail := by
    by_contra hlt
    have hy' := hy.lt
    have hin := hx.inside (y.tail + 1) (by omega) (by omega)
    rw [hy.back, heq] at hin
    exact Nat.lt_irrefl _ hin
  have htail : g.tail = h.tail := Nat.le_antisymm (hle hg hh heq) (hle hh hg heq.symm)
  have hmem (k : Nat) : k ∈ g.own ↔ k ∈ h.own := by
    rw [hg.mem_own, hh.mem_own, heq, htail]
  have hown : g.own = h.own := by
    have hperm : g.own.Perm h.own :=
      (List.perm_ext_iff_of_nodup (hg.ascending.imp Nat.ne_of_lt)
        (hh.ascending.imp Nat.ne_of_lt)).mpr hmem
    refine hperm.eq_of_pairwise ?_ hg.ascending hh.ascending
    intro a b _ _ hab hba
    omega
  obtain ⟨head, tail, own⟩ := g
  obtain ⟨head', tail', own'⟩ := h
  simp only at heq htail hown
  rw [heq, htail, hown]

/-- The only head among the own instructions of a group is its own. -/
theorem Delimits.eq_head (hg : code.Delimits g) (hn : n ∈ g.own) (hi : code[n]? = some i)
    (hhead : i.isHead = true) : n = g.head := by
  simp only [Instruction.isHead, Bool.and_eq_true, Bool.not_eq_true'] at hhead
  rcases (hg.mem_own n).mp hn with hn | rfl | ⟨-, hn⟩
  · exact hn
  · obtain ⟨j, hj, htail⟩ := hg.tail
    rw [hi] at hj
    cases hj
    simp [Instruction.isTail, hhead] at htail
  · obtain ⟨j, hj, hmiddle⟩ := hn.middle
    rw [hi] at hj
    cases hj
    simp [Instruction.isMiddle, hhead] at hmiddle

/-- Numbers that leave out a range have two neighbours around it. -/
theorem exists_neighbours {l : List Nat} (hl : l.Pairwise (· < ·)) (hkn : k ≤ n)
    (hout : ∀ x ∈ l, x < k ∨ n < x) (hbefore : ∃ x ∈ l, x < k) (hbehind : ∃ x ∈ l, n < x) :
    ∃ x y, [x, y] <:+: l ∧ x < k ∧ n < y := by
  induction l with
  | nil =>
    obtain ⟨x, hx, -⟩ := hbefore
    cases hx
  | cons a l ih =>
    obtain ⟨hhead, hl⟩ := List.pairwise_cons.mp hl
    have ha : a < k := by
      obtain ⟨x, hx, hlt⟩ := hbefore
      rcases List.mem_cons.mp hx with rfl | hx
      · exact hlt
      · exact Nat.lt_trans (hhead x hx) hlt
    obtain ⟨y, hy, hlt⟩ := hbehind
    have hy : y ∈ l := (List.mem_cons.mp hy).resolve_left (by omega)
    cases l with
    | nil => cases hy
    | cons b l =>
      rcases hout b (by simp) with hb | hb
      · obtain ⟨x, z, hinfix, hx, hz⟩ := ih hl (fun x hx => hout x (List.mem_cons_of_mem a hx))
          ⟨b, List.mem_cons_self, hb⟩ ⟨y, hy, hlt⟩
        exact ⟨x, z, hinfix.trans (List.suffix_cons a _).isInfix, hx, hz⟩
      · exact ⟨a, b, (List.prefix_append [a, b] l).isInfix, ha, hb⟩

section

variable (hcheck : code.check = .ok ())

include hcheck

theorem charts_of_check : Matching.Charts code (code.foldl Matching.step {}) [] ∧
    Matching.Covers code (code.foldl Matching.step {}) := by
  obtain ⟨q, hrun, hblocks⟩ := check_eq_ok_iff_run.mp hcheck
  have h := Matching.reading_induction
    (motive := fun done m p => Matching.Charts done m p.blocks ∧ Matching.Covers done m)
    (fun done m p i ha h => ⟨h.1.step ha, h.2.step ha.index fun he => by
      obtain ⟨opener, rest, hp, -⟩ := ha.closes he
      exact (hp ▸ h.1).exists_innermost⟩)
    Progress.balanced_start ⟨Matching.charts_start, nofun⟩ hrun
  rwa [List.nil_append, hblocks] at h

/-- Every block instruction is an own one of a whole group. -/
theorem exists_delimits (hi : code[n]? = some i) (hblock : i.isBlock = true) :
    ∃ g ∈ code.closedGroups, code.Delimits g ∧ n ∈ g.own := by
  obtain ⟨hcharts, hcovers⟩ := charts_of_check hcheck
  obtain ⟨g, hg, hown⟩ := hcovers n i hi hblock
  rw [List.forall₂_nil_right_iff.mp hcharts.latest] at hg
  have hg := hg.resolve_left List.not_mem_nil
  exact ⟨g, mem_closedGroups.mpr hg, hcharts.closed g hg, hown⟩

/-- What is matched with a stack is told by the depths. -/
theorem mem_closedGroups_iff_delimits : g ∈ code.closedGroups ↔ code.Delimits g := by
  constructor
  · intro hg
    exact (charts_of_check hcheck).1.closed g (mem_closedGroups.mp hg)
  · intro hg
    obtain ⟨i, hi, hhead⟩ := hg.head
    obtain ⟨h, hh, hdelimits, hown⟩ :=
      exists_delimits hcheck hi (Instruction.isBlock_of_isHead hhead)
    rwa [hg.eq_of_head hdelimits (hdelimits.eq_head hown hi hhead)]

theorem mem_blockGroups_iff_delimits {p : Instruction → Bool} : g ∈ code.blockGroups p ↔
    code.Delimits g ∧ ∃ i, code[g.head]? = some i ∧ p i = true := by
  rw [mem_blockGroups, mem_closedGroups_iff_delimits hcheck, Option.any_eq_true]

theorem liesIn_of_overlap (hg : g ∈ code.closedGroups) (hh : h ∈ code.closedGroups) (hne : g ≠ h)
    (hle : h.head ≤ g.head) (hlt : g.head ≤ h.tail) : g.LiesIn h := by
  obtain ⟨q, hfollows, -⟩ := follows_of_check hcheck
  have hg' := mem_closedGroups.mp hg
  have hh' := mem_closedGroups.mp hh
  have hgown := (hfollows.laminar.closed g hg').1
  have hin := hfollows.laminar.nested g hg' h hh' g.head hgown ⟨hle, hlt⟩
  have hdelimits := (mem_closedGroups_iff_delimits hcheck).mp hh
  have hdelimits' := (mem_closedGroups_iff_delimits hcheck).mp hg
  -- An own instruction of the outer group inside of the inner one would make them one group.
  have hout : ∀ k ∈ h.own, k < g.head ∨ g.tail < k := by
    intro k hk
    by_contra hkin
    have := hfollows.laminar.nested h hh' g hg' k hk (by omega)
    exact hne (hdelimits'.eq_of_head hdelimits (by omega))
  have hlt := hdelimits'.lt
  refine exists_neighbours hdelimits.ascending (by omega) hout ⟨h.head, ?_, ?_⟩ ⟨h.tail, ?_, ?_⟩
  · exact (hdelimits.mem_own _).mpr (.inl rfl)
  · exact (hout h.head ((hdelimits.mem_own _).mpr (.inl rfl))).resolve_right (by omega)
  · exact (hdelimits.mem_own _).mpr (.inr (.inl rfl))
  · exact (hout h.tail ((hdelimits.mem_own _).mpr (.inr (.inl rfl)))).resolve_left (by omega)

theorem pairwise_head_blockGroups (p : Instruction → Bool) :
    (code.blockGroups p).Pairwise fun g h => g.head < h.head := by
  obtain ⟨hcharts, -⟩ := charts_of_check hcheck
  have hle : (code.blockGroups p).Pairwise fun g h => g.head ≤ h.head := by
    refine (List.pairwise_mergeSort (fun x y z hxy hyz => ?_) (fun x y => ?_) _).imp fun h => ?_
    · simp only [decide_eq_true_eq] at hxy hyz ⊢
      omega
    · simp only [Bool.or_eq_true, decide_eq_true_eq]
      omega
    · exact of_decide_eq_true h
  have hne : (code.blockGroups p).Pairwise fun g h => g ≠ h := by
    have hnodup : code.closedGroups.Nodup := by
      refine List.nodup_reverse.mpr (hcharts.ended.imp ?_)
      rintro g _ hlt rfl
      exact Nat.lt_irrefl _ hlt
    exact (List.mergeSort_perm _ _).nodup_iff.mpr (hnodup.filter _)
  refine (hle.and hne).imp_of_mem fun {g h} hg hh hgh => ?_
  refine Nat.lt_of_le_of_ne hgh.1 fun heq => hgh.2 ?_
  have hg := (mem_blockGroups_iff_delimits hcheck).mp hg
  have hh := (mem_blockGroups_iff_delimits hcheck).mp hh
  exact hg.1.eq_of_head hh.1 heq

theorem misplacedGroup?_of_check : code.misplacedGroup? = none := by
  refine List.find?_eq_none.mpr fun g hg => ?_
  obtain ⟨i, hi, -⟩ := ((mem_closedGroups_iff_delimits hcheck).mp hg).head
  have := (List.getElem?_eq_some_iff.mp hi).1
  simpa using this

/-- Groups are apart, or one of them lies in the other. -/
theorem apart_or_liesIn (hg : g ∈ code.closedGroups) (hh : h ∈ code.closedGroups) (hne : g ≠ h) :
    g.tail < h.head ∨ h.tail < g.head ∨ g.LiesIn h ∨ h.LiesIn g := by
  rcases Nat.lt_or_ge g.tail h.head with hlt | hge
  · exact .inl hlt
  rcases Nat.lt_or_ge h.tail g.head with hlt | hge'
  · exact .inr (.inl hlt)
  rcases Nat.le_total h.head g.head with hle | hle
  · exact .inr (.inr (.inl (liesIn_of_overlap hcheck hg hh hne hle hge')))
  · exact .inr (.inr (.inr (liesIn_of_overlap hcheck hh hg hne.symm hle hge)))

/-- No instruction belongs to two groups. -/
theorem eq_of_mem_own (hg : g ∈ code.closedGroups) (hh : h ∈ code.closedGroups) (hn : n ∈ g.own)
    (hn' : n ∈ h.own) : g = h := by
  obtain ⟨q, hfollows, -⟩ := follows_of_check hcheck
  exact hfollows.laminar.distinct g (mem_closedGroups.mp hg) h (mem_closedGroups.mp hh) n hn hn'

end

/-- The groups of the code whose heads satisfy `p`, by position. -/
structure Lists (code : Code) (p : Instruction → Bool) (gs : List BlockGroup) : Prop where
  ascending : gs.Pairwise fun g h => g.head < h.head
  mem : ∀ g, g ∈ gs ↔ code.Delimits g ∧ ∃ i, code[g.head]? = some i ∧ p i = true
  complete : ∀ n i, code[n]? = some i → i.isHead = true → p i = true → ∃! g, g ∈ gs ∧ g.head = n
  nested : ∀ g ∈ gs, ∀ h ∈ gs, g ≠ h →
    g.tail < h.head ∨ h.tail < g.head ∨ g.LiesIn h ∨ h.LiesIn g

/-- In checked code the matched groups are the blocks of the code, and every block instruction
belongs to one of them. -/
theorem lists_blockGroups (hcheck : code.check = .ok ()) (p : Instruction → Bool) :
    code.misplacedGroup? = none ∧ code.Lists p (code.blockGroups p) ∧
      ∀ n i, code[n]? = some i → i.isBlock = true →
        ∃! g, g ∈ code.blockGroups (fun _ => true) ∧ n ∈ g.own := by
  refine ⟨misplacedGroup?_of_check hcheck, ⟨pairwise_head_blockGroups hcheck p,
    fun g => mem_blockGroups_iff_delimits hcheck, ?_, ?_⟩, ?_⟩
  · intro n i hi hhead hp
    obtain ⟨g, -, hg, hown⟩ := exists_delimits hcheck hi (Instruction.isBlock_of_isHead hhead)
    obtain rfl := hg.eq_head hown hi hhead
    refine ⟨g, ⟨(mem_blockGroups_iff_delimits hcheck).mpr ⟨hg, i, hi, hp⟩, rfl⟩, ?_⟩
    rintro h ⟨hh, heq⟩
    exact ((mem_blockGroups_iff_delimits hcheck).mp hh).1.eq_of_head hg heq
  · intro g hg h hh hne
    exact apart_or_liesIn hcheck (mem_blockGroups.mp hg).1 (mem_blockGroups.mp hh).1 hne
  · intro n i hi hblock
    obtain ⟨g, hg, hdelimits, hown⟩ := exists_delimits hcheck hi hblock
    obtain ⟨j, hj, -⟩ := hdelimits.head
    refine ⟨g, ⟨(mem_blockGroups_iff_delimits hcheck).mpr ⟨hdelimits, j, hj, rfl⟩, hown⟩, ?_⟩
    rintro h ⟨hh, hown'⟩
    exact eq_of_mem_own hcheck (mem_blockGroups.mp hh).1 hg hown' hown

/-- A guarded region with a handler and a cleanup, and a choice inside of it. -/
def handledChoice : Code := .ofRows [
  (.loadBoolean true, [0]),
  (.beginTry, []),
  (.beginIf false, [0]),
  (.beginElse, []),
  (.endIf, []),
  (.beginCatch, [1]),
  (.beginFinally, []),
  (.endTryCatchFinally, [])]

theorem lists_blockGroups_handledChoice :
    handledChoice.check = .ok () ∧ handledChoice.misplacedGroup? = none ∧
      handledChoice.Lists (fun i => i.op.isTryStart) [⟨1, 7, [1, 5, 6, 7]⟩] ∧
      ∃! g, g ∈ handledChoice.blockGroups (fun _ => true) ∧ 3 ∈ g.own := by
  have hcheck : handledChoice.check = .ok () := rfl
  have hgroups : handledChoice.blockGroups (fun i => i.op.isTryStart) = [⟨1, 7, [1, 5, 6, 7]⟩] := by
    decide +kernel
  obtain ⟨hplaced, hlists, hone⟩ := lists_blockGroups hcheck fun i => i.op.isTryStart
  rw [hgroups] at hlists
  exact ⟨hcheck, hplaced, hlists, hone 3 _ rfl rfl⟩

end Code

end ScriptFuzz
