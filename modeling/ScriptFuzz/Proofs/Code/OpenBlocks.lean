import ScriptFuzz.Proofs.Code.BlockStructure

/-!
# Open blocks and visible variables

What is open and what is visible behind the code is told by depths alone: a block is open if nothing ends
a block at its depth later on (`Code.IsOpen`), and a variable is visible as long as the block in which it
is declared is open (`Code.Shows`). `Code.Surveys` says that the stacks of a reading hold exactly this,
and `Code.Surveys.step` that every instruction keeps it so that ends no other block than an open one.
-/

namespace ScriptFuzz

set_option autoImplicit false

namespace Code

/-- No block at depth `d` is ended behind position `n`. -/
def Lasts (code : Code) (n d : Nat) : Prop :=
  ∀ k i, n < k → code[k]? = some i → i.isBlockEnd = true → code.depth k ≠ d

/-- At position `n` a block is started that is not ended. -/
def IsOpen (code : Code) (n : Nat) : Prop :=
  (∃ i, code[n]? = some i ∧ i.isBlockStart = true) ∧ code.Lasts n (code.depth (n + 1))

/-- At position `n` a variable is declared in a block at depth `d`: an output around the block that the
instruction starts, an inner output inside of it. -/
def DeclaresAt (code : Code) (n d : Nat) (v : Variable) : Prop :=
  ∃ i, code[n]? = some i ∧ (v ∈ i.outputs ∧ code.depth (n + 1) = d + i.isBlockStart.toNat ∨
    v ∈ i.innerOutputs ∧ code.depth (n + 1) = d)

/-- A variable of a block at depth `d` is visible behind the code. -/
def ShowsAt (code : Code) (d : Nat) (v : Variable) : Prop :=
  ∃ n, code.DeclaresAt n d v ∧ code.Lasts n d

/-- A variable is visible behind the code: the block in which it is declared is not ended. -/
def Shows (code : Code) (v : Variable) : Prop := ∃ d, code.ShowsAt d v

variable {a b done code : Code} {p : Progress} {i : Instruction} {is : List Instruction}
  {d k n : Nat} {v : Variable}

/-! ## One instruction more -/

theorem lasts_concat_iff (hn : n < done.length) : Lasts (done ++ [i]) n d ↔
    done.Lasts n d ∧ (i.isBlockEnd = true → done.depth done.length ≠ d) := by
  constructor
  · intro h
    refine ⟨?_, ?_⟩
    · intro k j hk hj hend
      have hlt := (List.getElem?_eq_some_iff.mp hj).1
      rw [← depth_append (b := [i]) (Nat.le_of_lt hlt)]
      exact h k j hk (getElem?_append_of_eq_some hj) hend
    · intro hend
      rw [← depth_append (b := [i]) (Nat.le_refl _)]
      exact h done.length i hn List.getElem?_concat_length hend
  · rintro ⟨h, hlast⟩ k j hk hj hend
    rcases getElem?_concat_eq_some hj with hj | ⟨rfl, rfl⟩
    · have hlt := (List.getElem?_eq_some_iff.mp hj).1
      rw [depth_append (Nat.le_of_lt hlt)]
      exact h k j hk hj hend
    · rw [depth_append (Nat.le_refl _)]
      exact hlast hend

/-- Behind the last instruction nothing is ended. -/
theorem lasts_last : Lasts (done ++ [i]) done.length d := by
  intro k j hk hj
  have hlt := (List.getElem?_eq_some_iff.mp hj).1
  rw [List.length_append, List.length_singleton] at hlt
  omega

theorem DeclaresAt.lt_length (h : code.DeclaresAt n d v) : n < code.length := by
  obtain ⟨i, hi, -⟩ := h
  exact (List.getElem?_eq_some_iff.mp hi).1

theorem declaresAt_append_iff (hn : n < a.length) :
    DeclaresAt (a ++ b) n d v ↔ a.DeclaresAt n d v := by
  unfold DeclaresAt
  rw [List.getElem?_append_left hn, depth_append (Nat.succ_le_of_lt hn)]

/-- The last instruction declares its variables around the block that it starts and inside of it. -/
theorem declaresAt_last_iff : DeclaresAt (done ++ [i]) done.length d v ↔
    v ∈ i.outputs ∧ deepen (done.depth done.length) i = d + i.isBlockStart.toNat ∨
      v ∈ i.innerOutputs ∧ deepen (done.depth done.length) i = d := by
  unfold DeclaresAt
  rw [List.getElem?_concat_length, depth_concat]
  exact ⟨fun ⟨_, hj, h⟩ => by cases hj; exact h, fun h => ⟨i, rfl, h⟩⟩

theorem showsAt_concat_iff : ShowsAt (done ++ [i]) d v ↔
    done.ShowsAt d v ∧ (i.isBlockEnd = true → done.depth done.length ≠ d) ∨
      DeclaresAt (done ++ [i]) done.length d v := by
  constructor
  · rintro ⟨n, hdeclares, hlasts⟩
    have hlt := hdeclares.lt_length
    rw [List.length_append, List.length_singleton] at hlt
    rcases Nat.lt_or_eq_of_le (Nat.le_of_lt_succ hlt) with hn | rfl
    · obtain ⟨hlasts, hend⟩ := (lasts_concat_iff hn).mp hlasts
      exact .inl ⟨⟨n, (declaresAt_append_iff hn).mp hdeclares, hlasts⟩, hend⟩
    · exact .inr hdeclares
  · rintro (⟨⟨n, hdeclares, hlasts⟩, hend⟩ | hdeclares)
    · have hn := hdeclares.lt_length
      exact ⟨n, (declaresAt_append_iff hn).mpr hdeclares, (lasts_concat_iff hn).mpr ⟨hlasts, hend⟩⟩
    · exact ⟨done.length, hdeclares, lasts_last⟩

theorem isOpen_concat_iff : IsOpen (done ++ [i]) n ↔
    done.IsOpen n ∧ (i.isBlockEnd = true → done.depth done.length ≠ done.depth (n + 1)) ∨
      n = done.length ∧ i.isBlockStart = true := by
  constructor
  · rintro ⟨⟨j, hj, hstart⟩, hlasts⟩
    rcases getElem?_concat_eq_some hj with hj | ⟨rfl, rfl⟩
    · have hn := (List.getElem?_eq_some_iff.mp hj).1
      rw [depth_append (Nat.succ_le_of_lt hn), lasts_concat_iff hn] at hlasts
      exact .inl ⟨⟨⟨j, hj, hstart⟩, hlasts.1⟩, hlasts.2⟩
    · exact .inr ⟨rfl, hstart⟩
  · rintro (⟨⟨⟨j, hj, hstart⟩, hlasts⟩, hend⟩ | ⟨rfl, hstart⟩)
    · have hn := (List.getElem?_eq_some_iff.mp hj).1
      refine ⟨⟨j, getElem?_append_of_eq_some hj, hstart⟩, ?_⟩
      rw [depth_append (Nat.succ_le_of_lt hn), lasts_concat_iff hn]
      exact ⟨hlasts, hend⟩
    · exact ⟨⟨i, List.getElem?_concat_length, hstart⟩, lasts_last⟩

/-! ## Stacks -/

/-- The stacks of a reading hold the blocks that are open and the variables that are visible, each at
its depth. -/
structure Surveys (code : Code) (p : Progress) : Prop extends p.Balanced where
  depth : code.depth code.length = p.blocks.length
  level : ∀ i is, i :: is <:+ p.blocks →
    code[i.index]? = some i ∧ code.depth (i.index + 1) = is.length + 1
  opened : ∀ n, n ∈ p.blocks.map Instruction.index ↔ code.IsOpen n
  ascending : (p.blocks.map Instruction.index).Pairwise (· > ·)
  bounded : ∀ d v, code.ShowsAt d v → d ≤ p.blocks.length
  seen : ∀ s ss, s :: ss <:+ p.scopes → ∀ v, v ∈ s ↔ code.ShowsAt ss.length v

theorem surveys_start : Surveys [] {} where
  toBalanced := Progress.balanced_start
  depth := rfl
  level i is h := by simp at h
  opened n := iff_of_false nofun fun ⟨⟨_, hi, _⟩, _⟩ => nomatch hi
  ascending := .nil
  bounded _ _ := fun ⟨_, ⟨_, hi, _⟩, _⟩ => nomatch hi
  seen s ss h v := by
    rcases List.suffix_cons_iff.mp h with heq | h
    · cases heq
      exact iff_of_false nofun fun ⟨_, ⟨_, hi, _⟩, _⟩ => nomatch hi
    · cases List.suffix_nil.mp h

theorem Progress.length_outerBlocks (hcloses : i.isBlockEnd = true → ∃ opener rest,
    p.blocks = opener :: rest ∧ i.op.closes opener.op = true) :
    p.blocks.length = (p.outerBlocks i).length + i.isBlockEnd.toNat := by
  unfold Progress.outerBlocks
  cases he : i.isBlockEnd with
  | false => rfl
  | true =>
    obtain ⟨opener, rest, hblocks, -⟩ := hcloses he
    rw [hblocks]
    rfl

namespace Surveys

section

variable (h : Surveys done p) (hcloses : i.isBlockEnd = true → ∃ opener rest,
  p.blocks = opener :: rest ∧ i.op.closes opener.op = true)

include h

theorem mem_blocks_lt {j : Instruction} (hj : j ∈ p.blocks) : j.index < done.length := by
  obtain ⟨s, t, hblocks⟩ := List.append_of_mem hj
  have hsuffix : j :: t <:+ p.blocks := ⟨s, hblocks.symm⟩
  exact (List.getElem?_eq_some_iff.mp (h.level j t hsuffix).1).1

include hcloses

theorem deepen_eq : deepen (done.depth done.length) i =
    (p.outerBlocks i).length + i.isBlockStart.toNat := by
  have hlength := Progress.length_outerBlocks hcloses
  rw [h.depth, hlength]
  unfold deepen Instruction.isHead Instruction.isTail
  cases i.isBlockStart <;> cases i.isBlockEnd <;> rfl

theorem exists_outerScopes : ∃ s ss, p.outerScopes i = s :: ss ∧
    ss.length = (p.outerBlocks i).length := by
  obtain ⟨s, ss, houter⟩ := List.exists_cons_of_ne_nil (h.outerScopes_ne_nil hcloses)
  refine ⟨s, ss, houter, ?_⟩
  have hlength := Progress.length_outerBlocks hcloses
  have hscopes := h.scopes
  have hcons : (s :: ss).length = (p.outerScopes i).length := by rw [houter]
  unfold Progress.outerScopes at hcons
  split at hcons
  · rename_i he
    rw [he, Bool.toNat_true] at hlength
    rw [List.length_tail, List.length_cons] at hcons
    omega
  · rename_i he
    rw [Bool.eq_false_iff.mpr he, Bool.toNat_false] at hlength
    rw [List.length_cons] at hcons
    omega

/-- The last instruction declares at the depth around it, and one deeper. -/
theorem showsAt_concat : ShowsAt (done ++ [i]) d v ↔
    done.ShowsAt d v ∧ d ≤ (p.outerBlocks i).length ∨ v ∈ i.outputs ∧ d = (p.outerBlocks i).length ∨
      v ∈ i.innerOutputs ∧ d = (p.outerBlocks i).length + 1 := by
  have hlength := Progress.length_outerBlocks hcloses
  rw [showsAt_concat_iff, declaresAt_last_iff, h.deepen_eq hcloses]
  refine or_congr ?_ (or_congr (and_congr_right fun _ => ?_) (and_congr_right fun hv => ?_))
  · refine and_congr_right fun hshows => ?_
    have hbounded := h.bounded d v hshows
    rw [h.depth]
    cases he : i.isBlockEnd with
    | false =>
      rw [he, Bool.toNat_false] at hlength
      exact iff_of_true nofun (by omega)
    | true =>
      rw [he, Bool.toNat_true] at hlength
      constructor
      · intro hne
        have := hne rfl
        omega
      · intro hle _
        omega
  · omega
  · -- Only a block start has inner outputs.
    have hstart : i.isBlockStart = true := by
      by_contra hstart
      rw [Instruction.innerOutputs_eq_nil (Bool.eq_false_iff.mpr hstart)] at hv
      cases hv
    rw [hstart, Bool.toNat_true]
    exact eq_comm

theorem seen_after {s : List Variable} {ss : List (List Variable)}
    (hs : s :: ss <:+ (p.after i).scopes) : v ∈ s ↔ ShowsAt (done ++ [i]) ss.length v := by
  obtain ⟨t, ts, houter, hts⟩ := h.exists_outerScopes hcloses
  have hsuffix : t :: ts <:+ p.scopes := by
    rw [← houter]
    unfold Progress.outerScopes
    split
    · exact List.tail_suffix _
    · exact List.suffix_rfl
  have hscopes : (p.after i).scopes =
      if i.isBlockStart then i.innerOutputs :: (t ++ i.outputs) :: ts else (t ++ i.outputs) :: ts := by
    unfold Progress.after
    rw [houter, List.headD_cons, List.tail_cons]
  have houtside {s : List Variable} {ss : List (List Variable)}
      (hs : s :: ss <:+ (t ++ i.outputs) :: ts) : v ∈ s ↔ ShowsAt (done ++ [i]) ss.length v := by
    rw [h.showsAt_concat hcloses]
    rcases List.suffix_cons_iff.mp hs with heq | hs
    · cases heq
      rw [List.mem_append, h.seen t ts hsuffix, ← hts]
      simp
    · have hlt := hs.length_le
      rw [List.length_cons, hts] at hlt
      rw [h.seen s ss (hs.trans ((List.suffix_cons t ts).trans hsuffix))]
      constructor
      · exact fun hshows => .inl ⟨hshows, by omega⟩
      · rintro (⟨hshows, -⟩ | ⟨-, heq⟩ | ⟨-, heq⟩)
        · exact hshows
        · omega
        · omega
  rw [hscopes] at hs
  split at hs
  · rcases List.suffix_cons_iff.mp hs with heq | hs
    · cases heq
      rw [h.showsAt_concat hcloses, List.length_cons, hts]
      simp
    · exact houtside hs
  · exact houtside hs

/-- An end of a block leaves open what is around that block. -/
theorem mem_outerBlocks_iff : n ∈ (p.outerBlocks i).map Instruction.index ↔
    done.IsOpen n ∧ (i.isBlockEnd = true → done.depth done.length ≠ done.depth (n + 1)) := by
  rw [← h.opened]
  unfold Progress.outerBlocks
  cases he : i.isBlockEnd with
  | false => simp
  | true =>
    obtain ⟨opener, rest, hblocks, -⟩ := hcloses he
    have hascending := h.ascending
    have hlevel := h.level
    have hdepth := h.depth
    rw [hblocks] at hascending hlevel hdepth ⊢
    rw [List.map_cons, List.pairwise_cons] at hascending
    simp only [if_true, List.tail_cons, List.map_cons, List.mem_cons, forall_const]
    constructor
    · intro hn
      refine ⟨.inr hn, ?_⟩
      obtain ⟨j, hj, rfl⟩ := List.mem_map.mp hn
      obtain ⟨s, t, rfl⟩ := List.append_of_mem hj
      have hsuffix : j :: t <:+ opener :: (s ++ j :: t) := ⟨opener :: s, rfl⟩
      rw [hdepth, (hlevel j t hsuffix).2]
      simp only [List.length_cons, List.length_append]
      omega
    · rintro ⟨rfl | hn, hne⟩
      · rw [hdepth, (hlevel opener rest List.suffix_rfl).2] at hne
        exact absurd rfl hne
      · exact hn

/-- An instruction that ends no other block than the innermost open one keeps the stacks in step with the
code. -/
theorem step (hindex : i.index = done.length) : Surveys (done ++ [i]) (p.after i) := by
  have hdeepen := h.deepen_eq hcloses
  have houter : p.outerBlocks i <:+ p.blocks := by
    unfold Progress.outerBlocks
    split
    · exact List.tail_suffix _
    · exact List.suffix_rfl
  have hblocks : (p.after i).blocks =
      if i.isBlockStart then i :: p.outerBlocks i else p.outerBlocks i := rfl
  have hlength : (p.after i).blocks.length = (p.outerBlocks i).length + i.isBlockStart.toNat := by
    rw [hblocks]
    cases i.isBlockStart <;> rfl
  have hlevel {j : Instruction} {js : List Instruction} (hj : j :: js <:+ p.outerBlocks i) :
      (done ++ [i])[j.index]? = some j ∧
        Code.depth (done ++ [i]) (j.index + 1) = js.length + 1 := by
    obtain ⟨hget, hdepth⟩ := h.level j js (hj.trans houter)
    have hlt := (List.getElem?_eq_some_iff.mp hget).1
    rw [depth_append (Nat.succ_le_of_lt hlt)]
    exact ⟨getElem?_append_of_eq_some hget, hdepth⟩
  refine ⟨h.after_of_closes hcloses, ?_, ?_, ?_, ?_, ?_, fun s ss hs v => h.seen_after hcloses hs⟩
  · rw [List.length_append, List.length_singleton, depth_concat, hdeepen, hlength]
  · intro j js hj
    rw [hblocks] at hj
    split at hj
    · rename_i hstart
      rcases List.suffix_cons_iff.mp hj with heq | hj
      · cases heq
        rw [hindex, depth_concat, hdeepen, hstart]
        exact ⟨List.getElem?_concat_length, rfl⟩
      · exact hlevel hj
    · exact hlevel hj
  · intro n
    rw [isOpen_concat_iff, ← h.mem_outerBlocks_iff hcloses, hblocks]
    cases i.isBlockStart with
    | false => simp
    | true =>
      rw [if_pos rfl, List.map_cons, List.mem_cons, hindex]
      simp [or_comm]
  · have hascending : ((p.outerBlocks i).map Instruction.index).Pairwise (· > ·) :=
      h.ascending.sublist (houter.sublist.map Instruction.index)
    rw [hblocks]
    split
    · refine List.pairwise_cons.mpr ⟨fun n hn => ?_, hascending⟩
      obtain ⟨j, hj, rfl⟩ := List.mem_map.mp hn
      rw [hindex]
      exact h.mem_blocks_lt (houter.subset hj)
    · exact hascending
  · intro d v hshows
    rw [hlength]
    rcases (h.showsAt_concat hcloses).mp hshows with ⟨-, hd⟩ | ⟨-, rfl⟩ | ⟨hv, rfl⟩
    · omega
    · omega
    · cases hstart : i.isBlockStart with
      | true => exact Nat.le_refl _
      | false =>
        rw [Instruction.innerOutputs_eq_nil hstart] at hv
        cases hv

end

/-- What the scopes hold is visible. -/
theorem mem_flatten_scopes_iff (h : Surveys code p) : v ∈ p.scopes.flatten ↔ code.Shows v := by
  rw [List.mem_flatten]
  constructor
  · rintro ⟨s, hs, hv⟩
    obtain ⟨before, ss, hscopes⟩ := List.append_of_mem hs
    exact ⟨ss.length, (h.seen s ss ⟨before, hscopes.symm⟩ v).mp hv⟩
  · rintro ⟨d, hshows⟩
    have hd := h.bounded d v hshows
    have hlength := h.scopes
    -- The scope at depth `d` has `d` scopes around it.
    have hlt : p.scopes.length - 1 - d < p.scopes.length := by omega
    have hsuffix := List.drop_suffix (p.scopes.length - 1 - d) p.scopes
    rw [List.drop_eq_getElem_cons hlt] at hsuffix
    have hss : (p.scopes.drop (p.scopes.length - 1 - d + 1)).length = d := by
      rw [List.length_drop]
      omega
    refine ⟨p.scopes[p.scopes.length - 1 - d], List.getElem_mem hlt, ?_⟩
    rw [h.seen _ _ hsuffix, hss]
    exact hshows

end Surveys

end Code

end ScriptFuzz
