import ScriptFuzz.Code.Group
import ScriptFuzz.Proofs.Code.Reading

/-!
# Block groups of checked code

Groups are nested or apart: a group one of whose own instructions lies in another group lies in it
as a whole, and no instruction is an own one of two groups (`Matching.Laminar`). In checked code
every group that is opened is closed (`Matching.exists_closed`).
-/

namespace ScriptFuzz

set_option autoImplicit false

namespace Code.Matching

/-- The groups after the instructions before position `n`. -/
structure Laminar (m : Matching) (n : Nat) : Prop where
  opened : ∀ g ∈ m.opened, g.head ∈ g.own ∧ ∀ k ∈ g.own, g.head ≤ k ∧ k < n
  stacked : m.opened.Pairwise fun inner outer => ∀ k ∈ outer.own, k < inner.head
  closed : ∀ g ∈ m.closed, g.head ∈ g.own ∧ g.tail < n ∧ ∀ k ∈ g.own, g.head ≤ k ∧ k ≤ g.tail
  apart : ∀ g ∈ m.opened, ∀ h ∈ m.closed, ∀ k ∈ g.own, ¬(h.head ≤ k ∧ k ≤ h.tail)
  within : ∀ g ∈ m.opened, ∀ h ∈ m.closed, g.head ≤ h.tail → g.head < h.head
  nested : ∀ g ∈ m.closed, ∀ h ∈ m.closed, ∀ k ∈ g.own, h.head ≤ k ∧ k ≤ h.tail →
    h.head ≤ g.head ∧ g.tail ≤ h.tail
  distinct : ∀ g ∈ m.closed, ∀ h ∈ m.closed, ∀ k, k ∈ g.own → k ∈ h.own → g = h

variable {m : Matching} {n : Nat} {i : Instruction} {g : BlockGroup} {gs : List BlockGroup}

theorem laminar_start : Laminar {} 0 :=
  ⟨nofun, .nil, nofun, nofun, nofun, nofun, nofun⟩

theorem Laminar.skip (h : m.Laminar n) : m.Laminar (n + 1) where
  opened g hg := ⟨(h.opened g hg).1, fun k hk =>
    ⟨((h.opened g hg).2 k hk).1, Nat.lt_succ_of_lt ((h.opened g hg).2 k hk).2⟩⟩
  stacked := h.stacked
  closed g hg := ⟨(h.closed g hg).1, Nat.lt_succ_of_lt (h.closed g hg).2.1, (h.closed g hg).2.2⟩
  apart := h.apart
  within := h.within
  nested := h.nested
  distinct := h.distinct

theorem Laminar.start (h : m.Laminar n) :
    Laminar { m with opened := { head := n, tail := n, own := [n] } :: m.opened } (n + 1) where
  opened g hg := by
    rcases List.mem_cons.mp hg with rfl | hg
    · simp
    · exact h.skip.opened g hg
  stacked := List.pairwise_cons.mpr ⟨fun g hg k hk => ((h.opened g hg).2 k hk).2, h.stacked⟩
  closed := h.skip.closed
  apart g hg x hx k hk := by
    rcases List.mem_cons.mp hg with rfl | hg
    · have := (h.closed x hx).2.1
      have := List.mem_singleton.mp hk
      omega
    · exact h.apart g hg x hx k hk
  within g hg x hx hle := by
    rcases List.mem_cons.mp hg with rfl | hg
    · have := (h.closed x hx).2.1
      simp only at hle
      omega
    · exact h.within g hg x hx hle
  nested := h.nested
  distinct := h.distinct

theorem Laminar.continue (h : m.Laminar n) (hm : m.opened = g :: gs) :
    Laminar { m with opened := { g with own := g.own ++ [n] } :: gs } (n + 1) := by
  have hg : g ∈ m.opened := by simp [hm]
  have hgs {x : BlockGroup} (hx : x ∈ gs) : x ∈ m.opened := by simp [hm, hx]
  have hstacked := h.stacked
  rw [hm, List.pairwise_cons] at hstacked
  refine ⟨?_, List.pairwise_cons.mpr hstacked, h.skip.closed, ?_, ?_, h.nested, h.distinct⟩
  · intro x hx
    rcases List.mem_cons.mp hx with rfl | hx
    · obtain ⟨hhead, hown⟩ := h.opened g hg
      refine ⟨List.mem_append_left _ hhead, fun k hk => ?_⟩
      rcases List.mem_append.mp hk with hk | hk
      · have := hown k hk
        simp only
        omega
      · have := hown g.head hhead
        have := List.mem_singleton.mp hk
        simp only
        omega
    · exact h.skip.opened x (hgs hx)
  · intro x hx y hy k hk
    rcases List.mem_cons.mp hx with rfl | hx
    · rcases List.mem_append.mp hk with hk | hk
      · exact h.apart g hg y hy k hk
      · have := (h.closed y hy).2.1
        have := List.mem_singleton.mp hk
        omega
    · exact h.apart x (hgs hx) y hy k hk
  · intro x hx y hy hle
    rcases List.mem_cons.mp hx with rfl | hx
    · exact h.within g hg y hy hle
    · exact h.within x (hgs hx) y hy hle

theorem Laminar.finish (h : m.Laminar n) (hm : m.opened = g :: gs) :
    Laminar { opened := gs, closed := { g with tail := n, own := g.own ++ [n] } :: m.closed }
      (n + 1) := by
  have hg : g ∈ m.opened := by simp [hm]
  have hgs {x : BlockGroup} (hx : x ∈ gs) : x ∈ m.opened := by simp [hm, hx]
  have hstacked := h.stacked
  rw [hm, List.pairwise_cons] at hstacked
  obtain ⟨hhead, hown⟩ := h.opened g hg
  -- No own instruction of the new group lies in an older one.
  have hnew {x : BlockGroup} (hx : x ∈ m.closed) {k : Nat} (hk : k ∈ g.own ++ [n]) :
      ¬(x.head ≤ k ∧ k ≤ x.tail) := by
    rcases List.mem_append.mp hk with hk | hk
    · exact h.apart g hg x hx k hk
    · have := (h.closed x hx).2.1
      have := List.mem_singleton.mp hk
      omega
  refine ⟨fun x hx => h.skip.opened x (hgs hx), hstacked.2, ?_, ?_, ?_, ?_, ?_⟩
  · intro x hx
    rcases List.mem_cons.mp hx with rfl | hx
    · refine ⟨List.mem_append_left _ hhead, Nat.lt_succ_self n, fun k hk => ?_⟩
      rcases List.mem_append.mp hk with hk | hk
      · have := hown k hk
        simp only
        omega
      · have := hown g.head hhead
        have := List.mem_singleton.mp hk
        simp only
        omega
    · exact h.skip.closed x hx
  · intro x hx y hy k hk
    rcases List.mem_cons.mp hy with rfl | hy
    · have := hstacked.1 x hx k hk
      simp only
      omega
    · exact h.apart x (hgs hx) y hy k hk
  · intro x hx y hy hle
    rcases List.mem_cons.mp hy with rfl | hy
    · exact hstacked.1 x hx x.head (h.opened x (hgs hx)).1
    · exact h.within x (hgs hx) y hy hle
  · intro x hx y hy k hk hin
    rcases List.mem_cons.mp hx with rfl | hx <;> rcases List.mem_cons.mp hy with rfl | hy
    · exact ⟨Nat.le_refl _, Nat.le_refl _⟩
    · exact absurd hin (hnew hy hk)
    · have := (h.closed x hx).2.2 k hk
      have := h.within g hg x hx (by simp only at hin; omega)
      have := (h.closed x hx).2.1
      simp only
      omega
    · exact h.nested x hx y hy k hk hin
  · intro x hx y hy k hkx hky
    rcases List.mem_cons.mp hx with rfl | hx <;> rcases List.mem_cons.mp hy with rfl | hy
    · rfl
    · exact absurd ((h.closed y hy).2.2 k hky) (hnew hy hkx)
    · exact absurd ((h.closed x hx).2.2 k hkx) (hnew hx hky)
    · exact h.distinct x hx y hy k hkx hky

theorem Laminar.step (h : m.Laminar n) (hi : i.index = n) : (m.step i).Laminar (n + 1) := by
  unfold Matching.step
  subst hi
  split
  · exact h.continue (by assumption)
  · exact h.finish (by assumption)
  · exact h.start
  · exact h.skip

/-! ## Checked code -/

/-- The own instructions of groups are block instructions, and only the first starts a block without
ending one. -/
def Framed (done : Code) (m : Matching) : Prop :=
  ∀ g, g ∈ m.opened ∨ g ∈ m.closed → ∀ k ∈ g.own, ∃ i ∈ done, i.index = k ∧ i.isBlock = true ∧
    (i.isBlockEnd = false → k = g.head)

theorem Framed.mono {done : Code} (h : Framed done m) : Framed (done ++ [i]) m :=
  fun g hg k hk =>
    have ⟨j, hj, hframed⟩ := h g hg k hk
    ⟨j, List.mem_append_left _ hj, hframed⟩

theorem Framed.step {done : Code} (h : Framed done m) : Framed (done ++ [i]) (m.step i) := by
  have hold := h.mono (i := i)
  have hi : i ∈ done ++ [i] := by simp
  -- An instruction that ends a block goes on or closes the group that it belongs to.
  have hown {g : BlockGroup} (hg : g ∈ m.opened) (he : i.isBlockEnd = true) :
      ∀ k ∈ g.own ++ [i.index], ∃ j ∈ done ++ [i], j.index = k ∧ j.isBlock = true ∧
        (j.isBlockEnd = false → k = g.head) := by
    intro k hk
    rcases List.mem_append.mp hk with hk | hk
    · exact hold g (.inl hg) k hk
    · refine ⟨i, hi, (List.mem_singleton.mp hk).symm, ?_, fun hend => ?_⟩
      · rw [Instruction.isBlock, he, Bool.or_true]
      · rw [he] at hend
        cases hend
  unfold Matching.step
  split
  · rename_i g gs he _ hm
    have hg : g ∈ m.opened := by simp [hm]
    rintro x (hx | hx)
    · rcases List.mem_cons.mp hx with rfl | hx
      · exact hown hg he
      · exact hold x (.inl (by simp [hm, hx]))
    · exact hold x (.inr hx)
  · rename_i g gs he _ hm
    have hg : g ∈ m.opened := by simp [hm]
    rintro x (hx | hx)
    · exact hold x (.inl (by simp [hm, hx]))
    · rcases List.mem_cons.mp hx with rfl | hx
      · exact hown hg he
      · exact hold x (.inr hx)
  · rename_i hs
    rintro x (hx | hx)
    · rcases List.mem_cons.mp hx with rfl | hx
      · intro k hk
        refine ⟨i, hi, (List.mem_singleton.mp hk).symm, ?_, fun _ => List.mem_singleton.mp hk⟩
        rw [Instruction.isBlock, hs, Bool.true_or]
      · exact hold x (.inl hx)
    · exact hold x (.inr hx)
  · exact hold

/-- Reading groups keeps up with the check. -/
structure Follows (done : Code) (m : Matching) (p : Progress) : Prop where
  laminar : m.Laminar done.length
  framed : Framed done m
  depth : m.opened.length = p.blocks.length

theorem follows_start : Follows [] {} {} where
  laminar := laminar_start
  framed := by
    rintro g (hg | hg)
    · cases hg
    · cases hg
  depth := rfl

variable {done : Code} {p q : Progress}

theorem length_opened_step (hdepth : m.opened.length = p.blocks.length)
    (ha : p.Admits n i) : (m.step i).opened.length = (p.after i).blocks.length := by
  have hend (he : i.isBlockEnd = true) : ∃ g gs, m.opened = g :: gs ∧
      gs.length = p.blocks.tail.length := by
    obtain ⟨opener, rest, hblocks, -⟩ := ha.closes he
    rw [hblocks, List.length_cons] at hdepth
    obtain ⟨g, gs, hm⟩ := List.exists_cons_of_length_eq_add_one hdepth
    rw [hm, List.length_cons] at hdepth
    exact ⟨g, gs, hm, by rw [hblocks, List.tail_cons]; omega⟩
  unfold Matching.step
  simp only [Progress.after, Progress.outerBlocks]
  cases he : i.isBlockEnd <;> cases hs : i.isBlockStart
  · simpa using hdepth
  · simpa using hdepth
  · obtain ⟨g, gs, hm, hlength⟩ := hend he
    simpa [hm] using hlength
  · obtain ⟨g, gs, hm, hlength⟩ := hend he
    simpa [hm] using hlength

theorem Follows.step (h : Follows done m p) (ha : p.Admits done.length i) :
    Follows (done ++ [i]) (m.step i) (p.after i) where
  laminar := by
    rw [List.length_append]
    exact h.laminar.step ha.index
  framed := h.framed.step
  depth := length_opened_step h.depth ha

/-- What every admitted instruction keeps holds of the groups and of the check after all the
instructions that are read. -/
theorem reading_induction {motive : Code → Matching → Progress → Prop}
    (step : ∀ (done : Code) (m : Matching) (p : Progress) (i : Instruction),
      p.Admits done.length i → motive done m p → motive (done ++ [i]) (m.step i) (p.after i))
    (hp : p.Balanced) (h : motive done m p) {is : Code} (hrun : p.run done.length is = .ok q) :
    motive (done ++ is) (is.foldl Matching.step m) q := by
  induction is generalizing done m p with
  | nil =>
    cases hrun
    rwa [List.append_nil]
  | cons i is ih =>
    obtain ⟨ha, hrun⟩ := (Progress.run_cons_eq_ok_iff hp).mp hrun
    have := ih (hp.after ha) (step done m p i ha h) (by rwa [List.length_append])
    rwa [List.append_assoc] at this

theorem Follows.run (hp : p.Balanced) (h : Follows done m p) {is : Code}
    (hrun : p.run done.length is = .ok q) : Follows (done ++ is) (is.foldl Matching.step m) q :=
  reading_induction (fun _ _ _ _ ha h => h.step ha) hp h hrun

theorem mem_closed_step (hg : g ∈ m.closed) : g ∈ (m.step i).closed := by
  unfold Matching.step
  split
  · exact hg
  · exact List.mem_cons_of_mem _ hg
  · exact hg
  · exact hg

theorem mem_closed_foldl {is : Code} (hg : g ∈ m.closed) :
    g ∈ (is.foldl Matching.step m).closed := by
  induction is generalizing m with
  | nil => exact hg
  | cons i is ih => exact ih (mem_closed_step hg)

theorem mem_step (hg : g ∈ m.opened) : ∃ g', g'.head = g.head ∧ g.own ⊆ g'.own ∧
    (g' ∈ (m.step i).opened ∨ g' ∈ (m.step i).closed ∧ g'.tail = i.index) := by
  unfold Matching.step
  split
  · rename_i x xs _ _ hm
    rw [hm] at hg
    rcases List.mem_cons.mp hg with rfl | hg
    · exact ⟨{ g with own := g.own ++ [i.index] }, rfl, List.subset_append_left _ _,
        .inl List.mem_cons_self⟩
    · exact ⟨g, rfl, List.Subset.refl _, .inl (List.mem_cons_of_mem _ hg)⟩
  · rename_i x xs _ _ hm
    rw [hm] at hg
    rcases List.mem_cons.mp hg with rfl | hg
    · exact ⟨{ g with tail := i.index, own := g.own ++ [i.index] }, rfl,
        List.subset_append_left _ _, .inr ⟨List.mem_cons_self, rfl⟩⟩
    · exact ⟨g, rfl, List.Subset.refl _, .inl hg⟩
  · exact ⟨g, rfl, List.Subset.refl _, .inl (List.mem_cons_of_mem _ hg)⟩
  · exact ⟨g, rfl, List.Subset.refl _, .inl hg⟩

theorem exists_closed {is : Code} (hindex : ∀ j ∈ is, n ≤ j.index)
    (hend : (is.foldl Matching.step m).opened = []) (hg : g ∈ m.opened) :
    ∃ g' ∈ (is.foldl Matching.step m).closed, g'.head = g.head ∧ g.own ⊆ g'.own ∧ n ≤ g'.tail := by
  induction is generalizing m g with
  | nil =>
    rw [List.foldl_nil] at hend
    rw [hend] at hg
    cases hg
  | cons i is ih =>
    obtain ⟨g', hhead, hown, hg' | ⟨hg', htail⟩⟩ := mem_step (i := i) hg
    · obtain ⟨g'', hmem, hhead', hown', htail⟩ :=
        ih (fun j hj => hindex j (List.mem_cons_of_mem i hj)) hend hg'
      exact ⟨g'', hmem, hhead'.trans hhead, List.Subset.trans hown hown', htail⟩
    · have hmem : g' ∈ (is.foldl Matching.step (m.step i)).closed := mem_closed_foldl hg'
      exact ⟨g', hmem, hhead, hown, htail ▸ hindex i List.mem_cons_self⟩

theorem exists_closed_of_mem {is : Code} (hend : (is.foldl Matching.step m).opened = [])
    (hg : g ∈ m.opened ∨ g ∈ m.closed) :
    ∃ g' ∈ (is.foldl Matching.step m).closed, g'.head = g.head ∧ g.own ⊆ g'.own := by
  rcases hg with hg | hg
  · obtain ⟨g', hmem, hhead, hown, -⟩ := exists_closed (fun j _ => Nat.zero_le j.index) hend hg
    exact ⟨g', hmem, hhead, hown⟩
  · exact ⟨g, mem_closed_foldl hg, rfl, List.Subset.refl _⟩

/-- An end of a block belongs to the innermost group. -/
theorem exists_own_of_isBlockEnd (hm : m.opened = g :: gs) (he : i.isBlockEnd = true) :
    ∃ g', g'.head = g.head ∧ i.index ∈ g'.own ∧
      (g' ∈ (m.step i).opened ∨ g' ∈ (m.step i).closed) := by
  unfold Matching.step
  cases hs : i.isBlockStart with
  | true =>
    simp only [he, hm]
    exact ⟨{ g with own := g.own ++ [i.index] }, rfl, by simp, .inl List.mem_cons_self⟩
  | false =>
    simp only [he, hm]
    exact ⟨{ g with tail := i.index, own := g.own ++ [i.index] }, rfl, by simp,
      .inr List.mem_cons_self⟩

end Code.Matching

namespace Code

open Matching

variable {code : Code} {g : BlockGroup}

theorem mem_closedGroups : g ∈ code.closedGroups ↔ g ∈ (code.foldl Matching.step {}).closed :=
  List.mem_reverse

theorem mem_blockGroups {p : Instruction → Bool} :
    g ∈ code.blockGroups p ↔ g ∈ code.closedGroups ∧ (code[g.head]?).any p = true := by
  rw [blockGroups, List.mem_mergeSort, List.mem_filter]

theorem mem_range {n : Nat} : n ∈ g.range ↔ g.head ≤ n ∧ n ≤ g.tail := by
  rw [BlockGroup.range, List.mem_range'_1]
  omega

theorem mem_body {n : Nat} : n ∈ g.body ↔ n ∈ g.range ∧ n ∉ g.own := by
  simp [BlockGroup.body, BlockGroup.isOwn]

theorem follows_of_check (hcheck : code.check = .ok ()) :
    ∃ q, Follows code (code.foldl Matching.step {}) q ∧
      (code.foldl Matching.step {}).opened = [] := by
  obtain ⟨q, hrun, hblocks⟩ := check_eq_ok_iff_run.mp hcheck
  have hfollows := follows_start.run Progress.balanced_start hrun
  refine ⟨q, hfollows, ?_⟩
  rw [← List.length_eq_zero_iff, hfollows.depth, hblocks, List.length_nil]

end Code

end ScriptFuzz
