import ScriptFuzz.Proofs.Program.LeastPruning

/-!
# Pruning again

The groups of pruned code are the groups that stayed, at their new positions
(`Code.exists_source_group`). So a guarded region that stays holds something, and nothing but values worth
guarding: pruning again changes nothing where these are observed again (`Program.exists_prune_stable`).
-/

namespace ScriptFuzz

set_option autoImplicit false

namespace Code

open Matching Builder

/-- How many positions before position `n` stay. -/
def rank (gone : List Nat) (n : Nat) : Nat := (List.range n).countP fun k => k ∉ gone

/-- A group at the positions that its instructions have among those that stay. -/
def ranked (gone : List Nat) (g : BlockGroup) : BlockGroup where
  head := rank gone g.head
  tail := rank gone g.tail
  own := g.own.map (rank gone)

/-- An instruction where it stands among those that stay. -/
structure Placed (gone : List Nat) (i j : Instruction) : Prop where
  op : j.op = i.op
  index : j.index = rank gone i.index

variable {code d is ds : Code} {gone : List Nat} {n k skipped : Nat} {i j : Instruction}
  {m m' : Matching} {g : BlockGroup} {p final : Progress} {o : Option Observed}

theorem rank_succ (gone : List Nat) (n : Nat) : rank gone (n + 1) = rank gone n + if n ∈ gone then 0 else 1 := by
  unfold rank
  rw [List.range_succ, List.countP_append, List.countP_singleton]
  by_cases h : n ∈ gone <;> simp [h]

theorem rank_mono (h : k ≤ n) : rank gone k ≤ rank gone n :=
  (List.range_sublist.mpr h).countP_le

theorem rank_lt (h : k < n) (hk : k ∉ gone) : rank gone k < rank gone n := by
  have hsucc := rank_succ gone k
  rw [if_neg hk] at hsucc
  have hmono : rank gone (k + 1) ≤ rank gone n := rank_mono h
  omega

/-- What stays keeps its order. -/
theorem le_of_rank_le (hk : k ∉ gone) (h : rank gone n ≤ rank gone k) : n ≤ k :=
  Nat.le_of_not_lt fun hlt => Nat.not_lt_of_le h (rank_lt hlt hk)

theorem rank_injective (hn : n ∉ gone) (hk : k ∉ gone) (h : rank gone n = rank gone k) : n = k :=
  Nat.le_antisymm (le_of_rank_le hk (Nat.le_of_eq h)) (le_of_rank_le hn (Nat.le_of_eq h.symm))

/-- Copies that stand at their positions stand where they are ranked. -/
theorem forall₂_placed (hindex : is.map Instruction.index = List.range' n is.length)
    (hcopies : List.Forall₂ (fun i j : Instruction => j.op = i.op)
      (is.filter fun i => i.index ∉ gone) ds)
    (hds : ds.map Instruction.index = List.range' (rank gone n) ds.length) :
    List.Forall₂ (Placed gone) (is.filter fun i => i.index ∉ gone) ds := by
  induction is generalizing n ds with
  | nil =>
    cases hcopies
    exact .nil
  | cons i is ih =>
    rw [List.map_cons, List.length_cons, List.range'_succ, List.cons.injEq] at hindex
    obtain ⟨rfl, hindex⟩ := hindex
    have hsucc := rank_succ gone i.index
    by_cases hgoes : i.index ∈ gone
    · rw [List.filter_cons_of_neg (by simpa using hgoes)] at hcopies ⊢
      rw [if_pos hgoes] at hsucc
      exact ih hindex hcopies (by rw [hsucc]; exact hds)
    · rw [List.filter_cons_of_pos (by simpa using hgoes)] at hcopies ⊢
      rw [if_neg hgoes] at hsucc
      obtain _ | ⟨hop, hrest⟩ := hcopies
      rw [List.map_cons, List.length_cons, List.range'_succ, List.cons.injEq] at hds
      exact .cons ⟨hop, hds.1⟩ (ih hindex hrest (by rw [hsucc]; exact hds.2))

/-- The reading `m'` of what stays holds the groups that stay, of those in the reading `m` of all. -/
structure Mirrors (gone : List Nat) (skipped : Nat) (m m' : Matching) : Prop where
  opened : m'.opened = (m.opened.drop skipped).map (ranked gone)
  closed : ∀ g' ∈ m'.closed, ∃ g ∈ m.closed,
    g.tail ∉ gone ∧ (∀ k ∈ g.own, k ∉ gone) ∧ g' = ranked gone g

theorem mirrors_start (gone : List Nat) : Mirrors gone 0 {} {} := ⟨rfl, nofun⟩

theorem Mirrors.skip (h : Mirrors gone skipped m m') (hend : i.isBlockEnd = true → 0 < skipped) :
    Mirrors gone (Carries.skippedAfter skipped i) (m.step i) m' := by
  have hdrop : (m.step i).opened.drop (Carries.skippedAfter skipped i) = m.opened.drop skipped := by
    unfold Carries.skippedAfter Matching.step
    cases he : i.isBlockEnd <;> cases hs : i.isBlockStart
    · rfl
    · rfl
    all_goals
      obtain ⟨n, rfl⟩ : ∃ n, skipped = n + 1 := ⟨skipped - 1, by have := hend he; omega⟩
      cases hm : m.opened <;> simp [hm]
  refine ⟨by rw [hdrop]; exact h.opened, ?_⟩
  intro g' hg'
  obtain ⟨g, hg, hrest⟩ := h.closed g' hg'
  exact ⟨g, mem_closed_step hg, hrest⟩

theorem Mirrors.keep (h : Mirrors gone 0 m m') (hij : Placed gone i j) (hsplits : Splits gone 0 m)
    (hstays : i.index ∉ gone) : Mirrors gone 0 (m.step i) (m'.step j) := by
  have hs : j.isBlockStart = i.isBlockStart := by
    rw [Instruction.isBlockStart_eq, Instruction.isBlockStart_eq, hij.op]
  have he : j.isBlockEnd = i.isBlockEnd := by
    rw [Instruction.isBlockEnd_eq, Instruction.isBlockEnd_eq, hij.op]
  obtain ⟨hopened, hclosed⟩ := h
  have houter := hsplits.outer
  obtain ⟨opened, closed⟩ := m
  obtain ⟨opened', closed'⟩ := m'
  rw [List.drop_zero] at hopened houter
  unfold Matching.step
  simp only at hopened houter hclosed ⊢
  rw [hs, he, hij.index, hopened]
  cases i.isBlockEnd with
  | false => cases i.isBlockStart <;> exact ⟨rfl, hclosed⟩
  | true =>
    cases opened with
    | nil => cases i.isBlockStart <;> exact ⟨rfl, hclosed⟩
    | cons g gs =>
      cases i.isBlockStart with
      | true => exact ⟨by simp [ranked], hclosed⟩
      | false =>
        refine ⟨rfl, ?_⟩
        rintro g' (_ | ⟨_, hg'⟩)
        · refine ⟨_, List.mem_cons_self, hstays, List.forall_mem_append.mpr ⟨?_, ?_⟩, by simp [ranked]⟩
          · exact houter g List.mem_cons_self
          · exact List.forall_mem_singleton.mpr hstays
        · obtain ⟨x, hx, hrest⟩ := hclosed g' hg'
          exact ⟨x, List.mem_cons_of_mem _ hx, hrest⟩

/-- Reading all of checked code and reading what stays of it. -/
theorem mirrors_run (done is ds : Code) (hcheck : (done ++ is).check = .ok ())
    (hwhole : Whole (done ++ is) gone) (hp : p.Balanced)
    (hdone : ({} : Progress).run 0 done = .ok p) (hrun : p.run done.length is = .ok final)
    (hsplits : Splits gone skipped (done.foldl Matching.step {}))
    (hcopies : List.Forall₂ (Placed gone) (is.filter fun i => i.index ∉ gone) ds)
    (h : Mirrors gone skipped (done.foldl Matching.step {}) m) :
    ∃ skipped', Mirrors gone skipped' ((done ++ is).foldl Matching.step {})
      (ds.foldl Matching.step m) := by
  induction is generalizing done ds p skipped m with
  | nil =>
    cases hcopies
    rw [List.append_nil]
    exact ⟨skipped, h⟩
  | cons i is ih =>
    obtain ⟨ha, hrun'⟩ := (Progress.run_cons_eq_ok_iff hp).mp hrun
    have happend : done ++ i :: is = done ++ [i] ++ is := by simp
    have hstep : (done ++ [i]).foldl Matching.step {} =
        (done.foldl Matching.step {}).step i := by
      rw [List.foldl_append]
      rfl
    have ih {ds : Code} {m : Matching} {skipped : Nat} :=
      @ih skipped m (p.after i) (done ++ [i]) ds (happend ▸ hcheck) (happend ▸ hwhole)
        (hp.after ha) (Progress.run_append_admitted hdone hp ha)
    rw [List.length_append, hstep, ← happend] at ih
    -- What stays has no open group around it that goes: nothing is skipped there.
    by_cases hgoes : i.index ∈ gone
    · have hend := pos_of_isBlockEnd hcheck hwhole hdone hsplits ha hgoes
      rw [List.filter_cons_of_neg (by simpa using hgoes)] at hcopies
      exact ih hrun' (hsplits.skip hgoes hend) hcopies (h.skip hend)
    · obtain rfl := eq_zero_of_stays hcheck hwhole hdone hsplits ha hgoes hp hrun
      rw [List.filter_cons_of_pos (by simpa using hgoes)] at hcopies
      obtain _ | ⟨hij, hrest⟩ := hcopies
      rw [List.foldl_cons]
      exact ih hrun' (hsplits.keep hgoes) hrest (h.keep hij hsplits hgoes)

/-! ## The groups of what stays -/

/-- Copies of the instructions of checked code that stay, which stand at their positions. -/
structure Keeps (code : Code) (gone : List Nat) (d : Code) : Prop where
  check : code.check = .ok ()
  checkCopy : d.check = .ok ()
  whole : Whole code gone
  placed : List.Forall₂ (Placed gone) (code.filter fun i => i.index ∉ gone) d

section

variable (hkeeps : code.Keeps gone d)

include hkeeps

theorem exists_source_group (hg : g ∈ d.closedGroups) : ∃ x ∈ code.closedGroups,
    x.tail ∉ gone ∧ (∀ k ∈ x.own, k ∉ gone) ∧ g = ranked gone x := by
  obtain ⟨q, hrun, -⟩ := check_eq_ok_iff_run.mp hkeeps.check
  obtain ⟨skipped, hmirrors⟩ := mirrors_run [] code d hkeeps.check hkeeps.whole
    Progress.balanced_start rfl hrun (splits_start gone) hkeeps.placed (mirrors_start gone)
  obtain ⟨x, hx, hrest⟩ := hmirrors.closed g (mem_closedGroups.mp hg)
  exact ⟨x, mem_closedGroups.mpr hx, hrest⟩

theorem exists_source (hj : j ∈ d) : ∃ i ∈ code, i.index ∉ gone ∧ Placed gone i j := by
  obtain ⟨i, hi, hij⟩ := exists_of_forall₂ hkeeps.placed.flip hj
  obtain ⟨hi, hstays⟩ := List.mem_filter.mp hi
  exact ⟨i, hi, of_decide_eq_true hstays, hij⟩

theorem exists_copy (hi : i ∈ code) (hstays : i.index ∉ gone) :
    ∃ j, d[rank gone i.index]? = some j ∧ j.op = i.op := by
  have hmem : i ∈ code.filter fun i => i.index ∉ gone :=
    List.mem_filter.mpr ⟨hi, decide_eq_true hstays⟩
  obtain ⟨j, hj, hij⟩ := exists_of_forall₂ hkeeps.placed hmem
  exact ⟨j, hij.index ▸ getElem?_index hkeeps.checkCopy hj, hij.op⟩

/-- A guarded region of what stays was one before. -/
theorem exists_source_guarded (hg : g ∈ d.guarded) : ∃ x ∈ code.guarded,
    x.tail ∉ gone ∧ (∀ k ∈ x.own, k ∉ gone) ∧ g = ranked gone x := by
  obtain ⟨hclosed, hstart⟩ := mem_blockGroups.mp hg
  obtain ⟨x, hx, htail, hown, rfl⟩ := exists_source_group hkeeps hclosed
  obtain ⟨hhead, -, i, hi, hindex, hget⟩ := exists_head hkeeps.check hx
  obtain ⟨j, hcopy, hop⟩ := exists_copy hkeeps hi (hindex ▸ hown _ hhead)
  rw [hindex] at hcopy
  change (d[rank gone x.head]?).any (fun i => i.op.isTryStart) = true at hstart
  rw [hcopy, Option.any_some, hop] at hstart
  refine ⟨x, mem_blockGroups.mpr ⟨hx, ?_⟩, htail, hown, rfl⟩
  rw [hget]
  exact hstart

end

theorem mem_body_ranked (htail : g.tail ∉ gone) (hown : ∀ k ∈ g.own, k ∉ gone) (hn : n ∉ gone) :
    rank gone n ∈ (ranked gone g).body ↔ n ∈ g.body := by
  rw [mem_body, mem_body, mem_range, mem_range]
  change (rank gone g.head ≤ _ ∧ _ ≤ rank gone g.tail) ∧ _ ∉ g.own.map (rank gone) ↔ _
  constructor
  · rintro ⟨⟨hhead, hle⟩, hother⟩
    refine ⟨⟨le_of_rank_le hn hhead, le_of_rank_le htail hle⟩, ?_⟩
    exact fun hmem => hother (List.mem_map_of_mem hmem)
  · rintro ⟨⟨hhead, hle⟩, hother⟩
    refine ⟨⟨rank_mono hhead, rank_mono hle⟩, ?_⟩
    intro hmem
    obtain ⟨k, hk, hkn⟩ := List.mem_map.mp hmem
    exact hother (rank_injective (hown k hk) hn hkn ▸ hk)

/-- What a guarded region of what stays holds was held by one before. -/
theorem exists_source_body (hkeeps : code.Keeps gone d) (hg : g ∈ d.guarded) (hn : n ∈ g.body) :
    ∃ x ∈ code.guarded, ∃ i ∈ code, i.index ∈ x.body ∧ i.index ∉ gone ∧
      ∃ j, d[n]? = some j ∧ j.index = n ∧ j.op = i.op := by
  have hclosed := (mem_blockGroups.mp hg).1
  have hlt := lt_length_of_mem_range hkeeps.checkCopy hclosed (mem_body.mp hn).1
  have hget := List.getElem?_eq_getElem hlt
  have hindex : d[n].index = n := index_eq hkeeps.checkCopy hget
  obtain ⟨x, hx, htail, hown, rfl⟩ := exists_source_guarded hkeeps hg
  obtain ⟨i, hi, hstays, hij⟩ := exists_source hkeeps (List.getElem_mem hlt)
  refine ⟨x, hx, i, hi, ?_, hstays, d[n], hget, hindex, hij.op⟩
  rw [← mem_body_ranked htail hown hstays, ← hij.index, hindex]
  exact hn

/-- A guarded region that stays keeps something that it holds. -/
theorem exists_body_of_stays (hcheck : code.check = .ok ()) (hg : g ∈ code.guarded)
    (hhead : g.head ∉ code.doomed o) : ∃ n ∈ g.body, n ∉ code.doomed o := by
  have hclosed := (mem_blockGroups.mp hg).1
  have hkept : ¬ Emptied (code.shed o) g := by
    intro hempty
    refine hhead ((mem_doomed hcheck).mpr (.inr ⟨g, hg, ?_, hempty⟩))
    exact mem_range.mpr ⟨Nat.le_refl _, (exists_head hcheck hclosed).2.1⟩
  obtain ⟨n, hn, hstays⟩ : ∃ n ∈ g.body, n ∉ code.shed o := by
    simpa [Emptied] using hkept
  refine ⟨n, hn, ?_⟩
  intro hgoes
  rcases (mem_doomed hcheck).mp hgoes with hgoes | ⟨h, hh, hin, hempty⟩
  · exact hstays hgoes
  · have hne : g ≠ h := by
      rintro rfl
      exact hstays (hempty n hn)
    exact hstays (mem_shed_of_overlap hcheck hg hh hne hn hin)

/-- What is worth guarding once it is observed. -/
structure Guardable (i : Instruction) : Prop where
  simple : i.isSimple = true
  single : i.shape.outputs = 1
  noRecordCall : Hook.isRecordCall i = false
  noLoad : Hook.isLoad i = false

theorem worthwhile_iff {o : Observed} :
    Worthwhile o i ↔ (o.record? i.index).isSome = true ∧ Guardable i :=
  ⟨fun h => ⟨h.recorded, h.simple, h.single, h.noRecordCall, h.noLoad⟩,
    fun ⟨hrecorded, h⟩ => ⟨hrecorded, h.simple, h.single, h.noRecordCall, h.noLoad⟩⟩

theorem Guardable.congr (h : Guardable i) (hop : j.op = i.op) : Guardable j := by
  obtain ⟨hsimple, hsingle, hcall, hload⟩ := h
  unfold Instruction.isSimple Instruction.isBlock Instruction.isBlockStart Instruction.isBlockEnd
    Instruction.isJump Instruction.isInternal Instruction.has at hsimple
  unfold Instruction.shape at hsimple hsingle
  unfold Hook.isRecordCall at hcall
  unfold Hook.isLoad at hload
  rw [← hop] at hsimple hsingle hcall hload
  exact ⟨hsimple, hsingle, hcall, hload⟩

theorem Guardable.isBlock (h : Guardable i) : i.isBlock = false := by
  have hsimple := h.simple
  unfold Instruction.isSimple at hsimple
  simp only [Bool.and_eq_true, Bool.not_eq_true'] at hsimple
  exact hsimple.1.1

theorem guardable_of_stays (hcheck : code.check = .ok ()) (hg : g ∈ code.guarded) (hi : i ∈ code)
    (hbody : i.index ∈ g.body) (hstays : i.index ∉ code.doomed o) : Guardable i := by
  have hkept : i.index ∉ code.shed o := fun hmem => hstays ((mem_doomed hcheck).mpr (.inl hmem))
  have hsheds := sheds_shed hcheck o
  cases o with
  | none => exact absurd (hsheds.unobserved rfl g hg _ (mem_body.mp hbody).1) hkept
  | some o =>
    by_contra hnot
    refine hkept (hsheds.unnoticed o rfl g hg _ hbody (.inr ?_))
    intro j hj hworth
    rw [getElem?_index hcheck hi] at hj
    obtain rfl := Option.some.inj hj
    exact hnot (worthwhile_iff.mp hworth).2

theorem dependents_nil (groups : List BlockGroup) (is : Code) : dependents groups [] [] is = [] := by
  induction is with
  | nil => rfl
  | cons i is ih =>
    rw [dependents_cons]
    have hgone : goneAfter groups [] [] i = [] := if_neg fun h => by simp at h
    rw [hgone, if_neg List.not_mem_nil]
    exact ih

/-- Nothing goes where every guarded region holds something, and only what need not go. -/
theorem doomed_eq_nil (hunguarded : code.unguarded o = [])
    (hbody : ∀ g ∈ code.guarded, g.body ≠ []) : code.doomed o = [] := by
  have hshed : code.shed o = [] := by
    unfold shed
    rw [hunguarded, dependents_nil]
  have hcollapse (gs : List BlockGroup) (hgs : ∀ g ∈ gs, g ∈ code.guarded) :
      gs.foldl collapse [] = [] := by
    induction gs with
    | nil => rfl
    | cons g gs ih =>
      obtain ⟨hg, hgs⟩ := List.forall_mem_cons.mp hgs
      have hkept : collapse [] g = [] := by
        unfold collapse
        refine if_neg fun hall => hbody g hg (List.eq_nil_iff_forall_not_mem.mpr fun n hn => ?_)
        exact List.not_mem_nil (List.contains_iff_mem.mp (List.all_eq_true.mp hall n hn))
      rw [List.foldl_cons, hkept]
      exact ih hgs
  rw [doomed_eq, hshed]
  exact hcollapse _ fun g hg => List.mem_reverse.mp hg

end Code

namespace Program

open Code Builder

variable {p q : Program} {o : Option Observed} {g : BlockGroup} {n : Nat}

theorem keeps_of_renamed (hcheck : p.code.check = .ok ()) (hq : q.code.check = .ok ())
    {σ : Variable → Variable}
    (h : List.Forall₂ (Instruction.Renamed σ) (p.code.filter fun i => i.index ∉ p.code.doomed o)
      q.code) : p.code.Keeps (p.code.doomed o) q.code :=
  ⟨hcheck, hq, (closed_doomed hcheck o).1, forall₂_placed (dense_of_check hcheck).indices
    (h.imp fun _ _ hij => hij.op) (dense_of_check hq).indices⟩

section

variable (hkeeps : p.code.Keeps (p.code.doomed o) q.code)

include hkeeps

/-- What a guarded region of the pruned program holds. -/
theorem exists_guardable (hg : g ∈ q.code.guarded) (hn : n ∈ g.body) :
    ∃ j, q.code[n]? = some j ∧ j.index = n ∧ Guardable j := by
  obtain ⟨x, hx, i, hi, hbody, hstays, j, hget, hindex, hop⟩ := exists_source_body hkeeps hg hn
  exact ⟨j, hget, hindex, (guardable_of_stays hkeeps.check hx hi hbody hstays).congr hop⟩

/-- No guarded region is left without an observation. -/
theorem guarded_eq_nil (ho : o = none) : q.code.guarded = [] := by
  refine List.eq_nil_iff_forall_not_mem.mpr fun g hg => ?_
  obtain ⟨x, hx, -, hown, -⟩ := exists_source_guarded hkeeps hg
  obtain ⟨hhead, hle, -⟩ := exists_head hkeeps.check (mem_blockGroups.mp hx).1
  refine hown x.head hhead ((mem_doomed hkeeps.check).mpr (.inl ?_))
  exact (sheds_shed hkeeps.check o).unobserved ho x hx _ (mem_range.mpr ⟨Nat.le_refl _, hle⟩)

/-- The guarded regions of the pruned program hold something. -/
theorem body_ne_nil (hg : g ∈ q.code.guarded) : g.body ≠ [] := by
  obtain ⟨x, hx, htail, hown, rfl⟩ := exists_source_guarded hkeeps hg
  have hclosed := (mem_blockGroups.mp hx).1
  obtain ⟨n, hn, hstays⟩ := exists_body_of_stays hkeeps.check hx
    (hown _ (exists_head hkeeps.check hclosed).1)
  exact List.ne_nil_of_mem ((mem_body_ranked htail hown hstays).mpr hn)

/-- The guarded regions of the pruned program hold no inner blocks. -/
theorem not_inInnerBlock (hg : g ∈ q.code.guarded) : ¬ q.code.InInnerBlock g n := by
  rintro ⟨h, hh, hhead, -⟩
  obtain ⟨j, hget, -, hguardable⟩ := exists_guardable hkeeps hg hhead
  obtain ⟨i, -, hget', -, hblock, -⟩ := exists_own hkeeps.checkCopy hh
    (exists_head hkeeps.checkCopy hh).1
  obtain rfl := Option.some.inj (hget'.symm.trans hget)
  rw [hguardable.isBlock] at hblock
  cases hblock

/-- Where all that the guarded regions of the pruned program hold is observed, nothing goes. -/
theorem doomed_pruned {o' : Option Observed} (ho' : q.code.guarded = [] ∨ ∃ o₁, o' = some o₁ ∧
    ∀ g ∈ q.code.guarded, ∀ n ∈ g.body, (o₁.record? n).isSome = true) :
    q.code.doomed o' = [] := by
  refine doomed_eq_nil ?_ fun g hg => body_ne_nil hkeeps hg
  rcases ho' with hnone | ⟨o₁, rfl, hrecorded⟩
  · unfold unguarded
    rw [hnone]
    cases o' <;> rfl
  · refine List.flatMap_eq_nil_iff.mpr fun g hg => List.eq_nil_iff_forall_not_mem.mpr fun n hn => ?_
    obtain ⟨hbody, hunnoticed⟩ := (mem_unnoticed hkeeps.checkCopy).mp hn
    obtain ⟨j, hget, rfl, hguardable⟩ := exists_guardable hkeeps hg hbody
    rcases hunnoticed with hinner | hnot
    · exact not_inInnerBlock hkeeps hg hinner
    · exact hnot j hget (worthwhile_iff.mpr ⟨hrecorded g hg _ hbody, hguardable⟩)

end

theorem prune_of_doomed {id : Uuid} (h : q.code.doomed o = []) : q.prune id o = .ok q := by
  unfold prune
  rw [h]

/-- Pruning again changes nothing: without guarded regions for every observation, else for every
observation of all that they hold. They hold plain values alone, and none are left without an
observation. -/
theorem exists_prune_stable (hcheck : p.code.check = .ok ()) (hcount : p.code.IsCountable)
    (id : Uuid) (o : Option Observed) :
    ∃ q, p.prune id o = .ok q ∧
      (q.code.guarded = [] → ∀ id' o', q.prune id' o' = .ok q) ∧
      (∀ id' o', (∀ g ∈ q.code.guarded, ∀ n ∈ g.body, (o'.record? n).isSome = true) →
        q.prune id' (some o') = .ok q) ∧
      (o = none → q.code.guarded = []) ∧
      ∀ g ∈ q.code.guarded, ∀ n ∈ g.body, ∃ i, q.code[n]? = some i ∧ i.isBlock = false ∧
        Hook.isRecordCall i = false ∧ Hook.isLoad i = false := by
  obtain ⟨q, σ, hq, hsound, -, hrenamed⟩ := exists_prune_renamed hcheck hcount id o
  have hkeeps := keeps_of_renamed hcheck hsound hrenamed
  refine ⟨q, hq, ?_, ?_, guarded_eq_nil hkeeps, ?_⟩
  · exact fun hnone _ _ => prune_of_doomed (doomed_pruned hkeeps (.inl hnone))
  · exact fun _ o' ho' => prune_of_doomed (doomed_pruned hkeeps (.inr ⟨o', rfl, ho'⟩))
  · intro g hg n hn
    obtain ⟨i, hget, -, hguardable⟩ := exists_guardable hkeeps hg hn
    exact ⟨i, hget, hguardable.isBlock, hguardable.noRecordCall, hguardable.noLoad⟩

/-- One of two guarded values stays, and is not looked at again where it is observed again. -/
theorem exists_prune_stable_guardedPair :
    guardedPair.code.check = .ok () ∧ guardedPair.code.IsCountable ∧
    ∃ q, guardedPair.prune (.fresh 1) (some guardedPairObserved) = .ok q ∧
      (∀ id' o', (∀ g ∈ q.code.guarded, ∀ n ∈ g.body, (o'.record? n).isSome = true) →
        q.prune id' (some o') = .ok q) ∧
      ∀ g ∈ q.code.guarded, ∀ n ∈ g.body, ∃ i, q.code[n]? = some i ∧ i.isBlock = false ∧
        Hook.isRecordCall i = false ∧ Hook.isLoad i = false := by
  have hcheck : guardedPair.code.check = .ok () := rfl
  have hcount : ∀ i ∈ guardedPair.code, i.op.isCountable = true := by decide
  obtain ⟨q, hq, -, hstable, -, hbody⟩ :=
    exists_prune_stable hcheck hcount (.fresh 1) (some guardedPairObserved)
  exact ⟨hcheck, hcount, q, hq, hstable, hbody⟩

end Program

end ScriptFuzz
