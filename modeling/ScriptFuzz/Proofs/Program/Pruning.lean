import ScriptFuzz.Proofs.Builder.Construction
import ScriptFuzz.Proofs.Builder.Room
import ScriptFuzz.Proofs.Code.Groups
import ScriptFuzz.Proofs.Code.Nesting
import ScriptFuzz.Pruning

/-!
# Pruning keeps programs sound

The positions that go are closed in two ways (`Code.closed_doomed`): a group goes as a whole or keeps
its own instructions, and what stays uses nothing that is declared by what goes. So what stays can
be copied, and the copy is sound (`Program.exists_sound_prune`).
-/

namespace ScriptFuzz

set_option autoImplicit false

namespace Code

open Matching

/-- The groups of guarded regions. -/
abbrev guarded (c : Code) : List BlockGroup := c.blockGroups fun i => i.op.isTryStart

/-- What goes before anything depends on it. -/
def unguarded (c : Code) : Option Observed → List Nat
  | none => c.guarded.flatMap BlockGroup.range
  | some o => c.guarded.flatMap (c.unnoticed o)

/-- What must go, whether or not it leaves a guarded region empty. -/
def shed (c : Code) (o : Option Observed) : List Nat :=
  dependents (c.blockGroups fun _ => true) [] (c.unguarded o) c

theorem doomed_eq (c : Code) (o : Option Observed) :
    c.doomed o = c.guarded.reverse.foldl collapse (c.shed o) := by
  cases o <;> rfl

variable {code : Code} {g h : BlockGroup} {gone gone' : List Nat}

/-- Every group goes as a whole, or all its own instructions stay. -/
def Whole (code : Code) (gone : List Nat) : Prop :=
  ∀ g ∈ code.closedGroups, ∀ k ∈ g.own, k ∈ gone → ∀ n ∈ g.range, n ∈ gone

theorem Whole.append (hgone : Whole code gone) (hgone' : Whole code gone') :
    Whole code (gone ++ gone') := by
  intro g hg k hk hmem n hn
  rcases List.mem_append.mp hmem with hmem | hmem
  · exact List.mem_append_left _ (hgone g hg k hk hmem n hn)
  · exact List.mem_append_right _ (hgone' g hg k hk hmem n hn)

theorem whole_flatMap {gs : List BlockGroup} {f : BlockGroup → List Nat}
    (hf : ∀ g ∈ gs, Whole code (f g)) : Whole code (gs.flatMap f) := by
  intro g hg k hk hmem n hn
  obtain ⟨x, hx, hmem⟩ := List.mem_flatMap.mp hmem
  exact List.mem_flatMap.mpr ⟨x, hx, hf x hx g hg k hk hmem n hn⟩

section

variable (hcheck : code.check = .ok ())

include hcheck

theorem whole_range (hh : h ∈ code.closedGroups) : Whole code h.range := by
  obtain ⟨q, hfollows, -⟩ := follows_of_check hcheck
  intro g hg k hk hmem n hn
  have := hfollows.laminar.nested g (mem_closedGroups.mp hg) h (mem_closedGroups.mp hh) k hk
    (mem_range.mp hmem)
  rw [mem_range] at hn ⊢
  omega

/-- A group has no positions outside of the code. -/
theorem lt_length_of_mem_range (hg : g ∈ code.closedGroups) {n : Nat} (hn : n ∈ g.range) :
    n < code.length := by
  obtain ⟨q, hfollows, -⟩ := follows_of_check hcheck
  have htail := (hfollows.laminar.closed g (mem_closedGroups.mp hg)).2.1
  have hle := (mem_range.mp hn).2
  omega

theorem exists_own (hg : g ∈ code.closedGroups) {k : Nat} (hk : k ∈ g.own) :
    ∃ i ∈ code, code[k]? = some i ∧ i.index = k ∧ i.isBlock = true ∧
      (i.isBlockEnd = false → k = g.head) := by
  obtain ⟨q, hfollows, -⟩ := follows_of_check hcheck
  obtain ⟨i, hi, rfl, hblock⟩ := hfollows.framed g (.inr (mem_closedGroups.mp hg)) k hk
  exact ⟨i, hi, getElem?_index hcheck hi, rfl, hblock⟩

/-- A group inside of the bodies of another goes as a whole. -/
theorem whole_unnoticed (o : Observed) (hg : g ∈ code.closedGroups) :
    Whole code (code.unnoticed o g) := by
  obtain ⟨q, hfollows, -⟩ := follows_of_check hcheck
  have hclosed {x : BlockGroup} (hx : x ∈ code.closedGroups) :=
    hfollows.laminar.closed x (mem_closedGroups.mp hx)
  have hnested {x y : BlockGroup} (hx : x ∈ code.closedGroups) (hy : y ∈ code.closedGroups) :=
    hfollows.laminar.nested x (mem_closedGroups.mp hx) y (mem_closedGroups.mp hy)
  intro h hh k hk hmem n hn
  obtain ⟨hin, hown⟩ := mem_body.mp (List.mem_filter.mp hmem).1
  have houter := hnested hh hg k hk (mem_range.mp hin)
  -- The group lies between the own instructions of the other one.
  have hfree {j : Nat} (hj : j ∈ h.range) : j ∉ g.own := by
    intro hjg
    have hinner := hnested hg hh j hjg (mem_range.mp hj)
    have hhead : g.head = h.head := by omega
    obtain rfl := hfollows.laminar.distinct g (mem_closedGroups.mp hg) h (mem_closedGroups.mp hh)
      g.head (hclosed hg).1 (hhead ▸ (hclosed hh).1)
    exact hown hk
  have hhead := (hclosed hh).2.2 h.head (hclosed hh).1
  have hinside : g.contains h.head = true ∧ g.isOwn h.head = false := by
    refine ⟨?_, ?_⟩
    · simp only [BlockGroup.contains, Bool.and_eq_true, decide_eq_true_eq]
      omega
    · simpa [BlockGroup.isOwn] using hfree (mem_range.mpr hhead)
  have hnestedIn : isNested (code.blockGroups fun _ => true) g n = true := by
    obtain ⟨i, -, hget, -⟩ := exists_own hcheck hh (hclosed hh).1
    refine List.any_eq_true.mpr ⟨h, mem_blockGroups.mpr ⟨hh, by rw [hget]; rfl⟩, ?_⟩
    have hcontains : h.contains n = true := by simpa [BlockGroup.contains] using mem_range.mp hn
    simp [hinside, hcontains]
  refine List.mem_filter.mpr ⟨mem_body.mpr ⟨?_, hfree hn⟩, by rw [hnestedIn, Bool.true_or]⟩
  rw [mem_range] at hn ⊢
  omega

theorem whole_extent {i : Instruction} (hi : i ∈ code) (hinputs : i.inputs ≠ []) :
    Whole code (extent (code.blockGroups fun _ => true) i) := by
  unfold extent
  split
  · rename_i g hg
    exact whole_range hcheck (mem_blockGroups.mp (List.mem_of_find?_eq_some hg)).1
  · rename_i hnone
    intro g hg k hk hmem
    exfalso
    obtain ⟨j, hj, hget, hindex, hblock, hhead⟩ := exists_own hcheck hg hk
    have hki := List.mem_singleton.mp hmem
    have hij : j = i := by
      have := getElem?_index hcheck hi
      rw [← hki, hget] at this
      exact Option.some.inj this
    subst hij
    have hend : j.isBlockEnd = false := by
      cases he : j.isBlockEnd with
      | false => rfl
      | true => exact absurd (inputs_of_isBlockEnd he) hinputs
    rw [Instruction.isBlock, hend, Bool.or_false] at hblock
    have hgroup : g ∈ code.blockGroups fun _ => true := by
      refine mem_blockGroups.mpr ⟨hg, ?_⟩
      rw [← hhead hend, hget]
      rfl
    have := List.find?_eq_none.mp hnone g hgroup
    simp [hblock, ← hhead hend, hki] at this

end

/-- What comes later and stays uses nothing that is declared by what goes. -/
def Independent (declared : Instruction → List Variable) (gone : List Nat) (is : Code) : Prop :=
  is.Pairwise fun j i => j.index ∈ gone → i.index ∉ gone → ∀ v ∈ declared j, v ∉ i.inputs

theorem mem_extent (groups : List BlockGroup) {i : Instruction}
    (hgroups : ∀ g ∈ groups, g.head ≤ g.tail) :
    i.index ∈ extent groups i ∧ ∀ n ∈ extent groups i, i.index ≤ n := by
  unfold extent
  split
  · rename_i g hg
    have hle := hgroups g (List.mem_of_find?_eq_some hg)
    have hhead := List.find?_some hg
    simp only [Bool.and_eq_true, beq_iff_eq] at hhead
    rw [← hhead.2]
    exact ⟨mem_range.mpr ⟨Nat.le_refl _, hle⟩, fun n hn => (mem_range.mp hn).1⟩
  · simp

def goneAfter (groups : List BlockGroup) (lost : List Variable) (gone : List Nat)
    (i : Instruction) : List Nat :=
  if i.index ∉ gone ∧ i.inputs.any (fun v => lost.contains v) then extent groups i ++ gone else gone

theorem dependents_cons (groups : List BlockGroup) (lost : List Variable) (gone : List Nat)
    (i : Instruction) (is : Code) : dependents groups lost gone (i :: is) =
      dependents groups
        (if i.index ∈ goneAfter groups lost gone i then i.allOutputs ++ lost else lost)
        (goneAfter groups lost gone i) is := rfl

theorem goneAfter_spec {groups : List BlockGroup} (hgroups : ∀ g ∈ groups, g.head ≤ g.tail)
    (lost : List Variable) {i : Instruction}
    (hextent : i.inputs ≠ [] → Whole code (extent groups i)) (hwhole : Whole code gone) :
    Whole code (goneAfter groups lost gone i) ∧ gone ⊆ goneAfter groups lost gone i ∧
      (∀ k ∈ goneAfter groups lost gone i, k ∈ gone ∨ i.index ≤ k) ∧
      (i.index ∉ goneAfter groups lost gone i → ∀ v ∈ lost, v ∉ i.inputs) := by
  obtain ⟨hself, hlater⟩ := mem_extent groups hgroups (i := i)
  unfold goneAfter
  split
  · rename_i hgoes
    have hinputs : i.inputs ≠ [] := by
      intro hnil
      simp [hnil] at hgoes
    refine ⟨(hextent hinputs).append hwhole, List.subset_append_right _ _, fun k hk => ?_, ?_⟩
    · exact (List.mem_append.mp hk).symm.imp_right (hlater k)
    · exact fun hnot => absurd (List.mem_append_left _ hself) hnot
  · rename_i hstays
    refine ⟨hwhole, List.Subset.refl _, fun k hk => .inl hk, fun hnot v hv hin => hstays ⟨hnot, ?_⟩⟩
    exact List.any_eq_true.mpr ⟨v, hin, List.contains_iff_mem.mpr hv⟩

/-- Reading code from position `n` on adds later positions only: whether an instruction goes is
settled once it is read. -/
theorem dependents_spec {groups : List BlockGroup} (hgroups : ∀ g ∈ groups, g.head ≤ g.tail)
    {is : Code} {n : Nat} (hindex : is.map Instruction.index = List.range' n is.length)
    (lost : List Variable)
    (hextent : ∀ i ∈ is, i.inputs ≠ [] → Whole code (extent groups i)) (hwhole : Whole code gone) :
    Whole code (dependents groups lost gone is) ∧
      (∀ k ∈ dependents groups lost gone is, k ∈ gone ∨ n ≤ k) ∧
      gone ⊆ dependents groups lost gone is ∧
      Independent Instruction.allOutputs (dependents groups lost gone is) is ∧
      ∀ i ∈ is, i.index ∉ dependents groups lost gone is → ∀ v ∈ lost, v ∉ i.inputs := by
  induction is generalizing n lost gone with
  | nil => exact ⟨hwhole, fun k hk => .inl hk, List.Subset.refl _, .nil, nofun⟩
  | cons i is ih =>
    rw [List.map_cons, List.length_cons, List.range'_succ, List.cons.injEq] at hindex
    obtain ⟨rfl, hindex⟩ := hindex
    obtain ⟨hwhole₁, hsub₁, hback₁, hstays₁⟩ :=
      goneAfter_spec hgroups lost (hextent i List.mem_cons_self) hwhole
    rw [dependents_cons]
    generalize goneAfter groups lost gone i = gone₁ at hwhole₁ hsub₁ hback₁ hstays₁ ⊢
    obtain ⟨hwhole₂, hback₂, hsub₂, hind, hstays⟩ :=
      ih hindex (if i.index ∈ gone₁ then i.allOutputs ++ lost else lost)
        (fun k hk => hextent k (List.mem_cons_of_mem i hk)) hwhole₁
    generalize hlost : (if i.index ∈ gone₁ then i.allOutputs ++ lost else lost) = lost₁
      at hwhole₂ hback₂ hsub₂ hind hstays ⊢
    generalize dependents groups lost₁ gone₁ is = final at hwhole₂ hback₂ hsub₂ hind hstays ⊢
    -- What is added later stands later, so whether this instruction goes is settled.
    have hsettled (hi : i.index ∈ final) : i.index ∈ gone₁ := by
      rcases hback₂ _ hi with hi | hi
      · exact hi
      · omega
    refine ⟨hwhole₂, ?_, List.Subset.trans hsub₁ hsub₂, List.pairwise_cons.mpr ⟨?_, hind⟩, ?_⟩
    · intro k hk
      rcases hback₂ k hk with hk | hk
      · exact hback₁ k hk
      · exact .inr (by omega)
    · intro j hj hi hnot v hv
      refine hstays j hj hnot v ?_
      rw [← hlost, if_pos (hsettled hi)]
      exact List.mem_append_left _ hv
    · intro j hj hnot v hv
      rcases List.mem_cons.mp hj with rfl | hj
      · exact hstays₁ (fun hmem => hnot (hsub₂ hmem)) v hv
      · refine hstays j hj hnot v ?_
        rw [← hlost]
        split
        · exact List.mem_append_right _ hv
        · exact hv

section

variable (hcheck : code.check = .ok ())

include hcheck

theorem eq_of_index {i j : Instruction} (hi : i ∈ code) (hj : j ∈ code) (h : j.index = i.index) :
    j = i := by
  have hget := getElem?_index hcheck hj
  rw [h, getElem?_index hcheck hi] at hget
  exact (Option.some.inj hget).symm

theorem outputs_of_own (hg : g ∈ code.blockGroups fun i => i.op.isTryStart) {j : Instruction}
    (hj : j ∈ code) (hown : j.index ∈ g.own) : j.outputs = [] := by
  obtain ⟨hclosed, hhead⟩ := mem_blockGroups.mp hg
  obtain ⟨i, hi, hget, hindex, -, hfirst⟩ := exists_own hcheck hclosed hown
  obtain rfl := eq_of_index hcheck hi hj hindex.symm
  cases he : j.isBlockEnd with
  | true => exact Progress.outputs_of_isBlockEnd he
  | false =>
    rw [← hfirst he, hget] at hhead
    refine Instruction.outputs_eq_nil ?_
    change j.op.isTryStart = true at hhead
    cases hop : j.op <;> rw [hop] at hhead <;> first | rfl | cases hhead

theorem whole_collapse (hg : g ∈ code.closedGroups) (hwhole : Whole code gone) :
    Whole code (collapse gone g) := by
  unfold collapse
  split
  · exact (whole_range hcheck hg).append hwhole
  · exact hwhole

/-- A region in which nothing is left declares nothing that is used. -/
theorem independent_collapse (hg : g ∈ code.blockGroups fun i => i.op.isTryStart)
    (hind : Independent Instruction.outputs gone code) :
    Independent Instruction.outputs (collapse gone g) code := by
  unfold collapse
  split
  · rename_i hall
    refine hind.imp_of_mem fun {j i} hj hi hold hgoes hstays v hv => ?_
    have hstays' : i.index ∉ gone := fun hmem => hstays (List.mem_append_right _ hmem)
    by_cases hmem : j.index ∈ gone
    · exact hold hmem hstays' v hv
    · have hrange := (List.mem_append.mp hgoes).resolve_right hmem
      have hown : j.index ∈ g.own := by
        by_contra hnot
        have := List.all_eq_true.mp hall j.index (mem_body.mpr ⟨hrange, hnot⟩)
        exact hmem (List.contains_iff_mem.mp this)
      rw [outputs_of_own hcheck hg hj hown] at hv
      cases hv
  · exact hind

theorem closed_collapses {gs : List BlockGroup}
    (hgs : ∀ g ∈ gs, g ∈ code.blockGroups fun i => i.op.isTryStart) (hwhole : Whole code gone)
    (hind : Independent Instruction.outputs gone code) :
    Whole code (gs.foldl collapse gone) ∧
      Independent Instruction.outputs (gs.foldl collapse gone) code := by
  induction gs generalizing gone with
  | nil => exact ⟨hwhole, hind⟩
  | cons g gs ih =>
    have hg := hgs g List.mem_cons_self
    exact ih (fun x hx => hgs x (List.mem_cons_of_mem g hx))
      (whole_collapse hcheck (mem_blockGroups.mp hg).1 hwhole) (independent_collapse hcheck hg hind)

theorem whole_unguarded (o : Option Observed) : Whole code (code.unguarded o) := by
  cases o with
  | none => exact whole_flatMap fun g hg => whole_range hcheck (mem_blockGroups.mp hg).1
  | some o => exact whole_flatMap fun g hg => whole_unnoticed hcheck o (mem_blockGroups.mp hg).1

/-- What must go is closed in both ways. -/
theorem closed_shed (o : Option Observed) : Whole code (code.shed o) ∧
    code.unguarded o ⊆ code.shed o ∧
    Independent Instruction.allOutputs (code.shed o) code := by
  obtain ⟨q, hfollows, -⟩ := follows_of_check hcheck
  have hgroups : ∀ g ∈ code.blockGroups fun _ => true, g.head ≤ g.tail := by
    intro g hg
    have hclosed := hfollows.laminar.closed g (mem_closedGroups.mp (mem_blockGroups.mp hg).1)
    exact (hclosed.2.2 g.head hclosed.1).2
  obtain ⟨hwhole, -, hsub, hind, -⟩ := dependents_spec hgroups (dense_of_check hcheck).indices []
    (fun i hi => whole_extent hcheck hi) (whole_unguarded hcheck o)
  exact ⟨hwhole, hsub, hind⟩

/-- What goes is closed in both ways. -/
theorem closed_doomed (o : Option Observed) :
    Whole code (code.doomed o) ∧ Independent Instruction.outputs (code.doomed o) code := by
  obtain ⟨hwhole, -, hind⟩ := closed_shed hcheck o
  rw [doomed_eq]
  refine closed_collapses hcheck (fun g hg => List.mem_reverse.mp hg) hwhole (hind.imp ?_)
  intro j i h hgoes hstays v hv
  exact h hgoes hstays v (List.mem_of_mem_take hv)

end

def Lost (code : Code) (gone : List Nat) (v : Variable) : Prop :=
  ∃ j ∈ code, j.index ∈ gone ∧ v ∈ j.outputs

theorem Numbered.pairwise {n : Nat} {is : Code} (h : Numbered n is) :
    is.Pairwise fun i j => ∀ v ∈ j.outputs, v ∉ i.inputs := by
  induction is generalizing n with
  | nil => exact .nil
  | cons i is ih =>
    refine List.pairwise_cons.mpr ⟨fun j hj v hv hin => ?_, ih h.2.2⟩
    have hlt := h.1 v hin
    have hle := h.2.2.le_of_mem hj (List.mem_of_mem_take hv)
    omega

theorem not_lost (hcheck : code.check = .ok ()) (hind : Independent Instruction.outputs gone code)
    {i : Instruction} (hi : i ∈ code) (hstays : i.index ∉ gone) {v : Variable} (hv : v ∈ i.inputs) :
    ¬Lost code gone v := by
  rintro ⟨j, hj, hgoes, hout⟩
  obtain ⟨q, hrun, -⟩ := check_eq_ok_iff_run.mp hcheck
  have hnumbered :=
    Progress.numbered_of_run Progress.balanced_start Progress.seesNumbered_start hrun
  obtain ⟨pre, post, rfl⟩ := List.append_of_mem hi
  -- It is declared before its use: a later instruction declares other variables.
  rcases List.mem_append.mp hj with hj | hj
  · have hpair := (List.pairwise_append.mp hind).2.2 j hj i List.mem_cons_self
    exact hpair hgoes hstays v hout hv
  · rcases List.mem_cons.mp hj with rfl | hj
    · exact hstays hgoes
    · have hpair := (List.pairwise_cons.mp (List.pairwise_append.mp hnumbered.pairwise).2.1).1 j hj
      exact hpair v hout hv

end Code

namespace Builder

open Code Matching

variable {code done : Code} {gone : List Nat} {m : Matching} {p q final : Progress} {b : Builder}
  {skipped : Nat} {i : Instruction}

/-- Of the open groups the innermost ones go and the others stay. -/
structure Splits (gone : List Nat) (skipped : Nat) (m : Matching) : Prop where
  inner : ∀ g ∈ m.opened.take skipped, g.head ∈ gone
  outer : ∀ g ∈ m.opened.drop skipped, ∀ k ∈ g.own, k ∉ gone
  le : skipped ≤ m.opened.length

theorem splits_start (gone : List Nat) : Splits gone 0 {} := ⟨nofun, nofun, Nat.le_refl 0⟩

theorem Splits.skip (h : Splits gone skipped m) (hgoes : i.index ∈ gone)
    (hend : i.isBlockEnd = true → 0 < skipped) :
    Splits gone (Carries.skippedAfter skipped i) (m.step i) := by
  obtain ⟨hinner, houter, hle⟩ := h
  unfold Carries.skippedAfter Matching.step
  cases he : i.isBlockEnd <;> cases hs : i.isBlockStart
  · exact ⟨hinner, houter, hle⟩
  · refine ⟨?_, houter, Nat.succ_le_succ hle⟩
    simp only [Bool.false_eq_true, if_false, if_true, List.take_succ_cons, List.forall_mem_cons]
    exact ⟨hgoes, hinner⟩
  all_goals
    obtain ⟨n, rfl⟩ : ∃ n, skipped = n + 1 := ⟨skipped - 1, by have := hend he; omega⟩
    cases hm : m.opened with
    | nil =>
      rw [hm] at hle
      simp at hle
    | cons g gs =>
      rw [hm] at hinner houter hle
      simp only [List.take_succ_cons, List.forall_mem_cons] at hinner
      first
      | exact ⟨hinner.2, houter, Nat.le_of_succ_le_succ hle⟩
      | exact ⟨List.forall_mem_cons.mpr hinner, houter, hle⟩

/-- Where all open groups stay and an instruction stays, the groups that are open then stay. -/
theorem Splits.keep (h : Splits gone 0 m) (hstays : i.index ∉ gone) :
    Splits gone 0 (m.step i) := by
  have houter := h.outer
  rw [List.drop_zero] at houter
  refine ⟨nofun, ?_, Nat.zero_le _⟩
  rw [List.drop_zero]
  unfold Matching.step
  split
  · rename_i g gs _ _ hm
    rw [hm, List.forall_mem_cons] at houter
    refine List.forall_mem_cons.mpr ⟨fun k hk => ?_, houter.2⟩
    rcases List.mem_append.mp hk with hk | hk
    · exact houter.1 k hk
    · rwa [List.mem_singleton.mp hk]
  · rename_i g gs _ _ hm
    rw [hm, List.forall_mem_cons] at houter
    exact houter.2
  · refine List.forall_mem_cons.mpr ⟨fun k hk => ?_, houter⟩
    rwa [List.mem_singleton.mp hk]
  · exact houter

section

variable {is : Code} (hcheck : (done ++ i :: is).check = .ok ())
  (hwhole : Whole (done ++ i :: is) gone) (hrun : ({} : Progress).run 0 done = .ok p)
  (hsplits : Splits gone skipped (done.foldl Matching.step {}))

include hcheck hwhole hrun hsplits

theorem pos_of_isBlockEnd (ha : p.Admits done.length i) (hgoes : i.index ∈ gone)
    (he : i.isBlockEnd = true) : 0 < skipped := by
  refine Nat.pos_of_ne_zero fun hzero => ?_
  subst hzero
  have hfollows := follows_start.run Progress.balanced_start hrun
  rw [List.nil_append] at hfollows
  obtain ⟨q, hfinal, hopened⟩ := follows_of_check hcheck
  obtain ⟨opener, rest, hblocks, -⟩ := ha.closes he
  have hdepth := hfollows.depth
  rw [hblocks, List.length_cons] at hdepth
  obtain ⟨g, gs, hm⟩ := List.exists_cons_of_length_eq_add_one hdepth
  have hg : g ∈ (done.foldl Matching.step {}).opened := by simp [hm]
  -- The end belongs to the group that is closed with the innermost one.
  obtain ⟨g₁, hhead₁, hown₁, hmem₁⟩ := exists_own_of_isBlockEnd hm he
  rw [List.foldl_append, List.foldl_cons] at hopened
  obtain ⟨g₂, hmem₂, hhead₂, hown₂⟩ := exists_closed_of_mem hopened hmem₁
  rw [← List.foldl_cons, ← List.foldl_append] at hmem₂
  have hclosed := hfinal.laminar.closed g₂ hmem₂
  have hrange : g₂.head ∈ g₂.range := mem_range.mpr (hclosed.2.2 g₂.head hclosed.1)
  have hgone := hwhole g₂ (mem_closedGroups.mpr hmem₂) i.index (hown₂ hown₁) hgoes _ hrange
  rw [hhead₂, hhead₁] at hgone
  exact hsplits.outer g hg g.head (hfollows.laminar.opened g hg).1 hgone

/-- An instruction that stays lies in no block that goes. -/
theorem eq_zero_of_stays (ha : p.Admits done.length i) (hstays : i.index ∉ gone)
    (hp : p.Balanced) (hlater : p.run done.length (i :: is) = .ok final) : skipped = 0 := by
  refine Nat.eq_zero_of_not_pos fun hpos => hstays ?_
  have hindex : ∀ j ∈ i :: is, done.length ≤ j.index := fun j hj =>
    (Progress.getElem?_index hp hlater hj).1
  have hfollows := follows_start.run Progress.balanced_start hrun
  rw [List.nil_append] at hfollows
  obtain ⟨q, -, hopened⟩ := follows_of_check hcheck
  obtain ⟨n, rfl⟩ : ∃ n, skipped = n + 1 := ⟨skipped - 1, by omega⟩
  have hle := hsplits.le
  obtain ⟨g, gs, hm⟩ := List.exists_cons_of_length_pos (Nat.lt_of_lt_of_le n.succ_pos hle)
  have hg : g ∈ (done.foldl Matching.step {}).opened := by simp [hm]
  have hgoes : g.head ∈ gone := hsplits.inner g (by simp [hm])
  obtain ⟨hhead, hbounds⟩ := hfollows.laminar.opened g hg
  rw [List.foldl_append] at hopened
  obtain ⟨g', hmem, hhead', hown', htail⟩ := exists_closed hindex hopened hg
  rw [← List.foldl_append] at hmem
  refine hwhole g' (mem_closedGroups.mpr hmem) g.head (hown' hhead) hgoes i.index ?_
  rw [mem_range, ha.index, hhead']
  exact ⟨Nat.le_of_lt (hbounds g.head hhead).2, htail⟩

end

theorem allows_adoptAll_filter (done is : Code) (hcheck : (done ++ is).check = .ok ())
    (hcount : Code.IsCountable (done ++ is)) (hwhole : Whole (done ++ is) gone)
    (hind : Independent Instruction.outputs gone (done ++ is))
    (h : Carries (Lost (done ++ is) gone) {} skipped done p b q)
    (hsplits : Splits gone skipped (done.foldl Matching.step {}))
    (hrun : p.run done.length is = .ok final) :
    Fault.Allows (b.adoptAll (is.filter fun i => i.index ∉ gone)) fun b' =>
      ∃ skipped' q', Carries (Lost (done ++ is) gone) {} skipped' (done ++ is) final b' q' := by
  induction is generalizing done p b q skipped with
  | nil =>
    cases hrun
    rw [List.append_nil] at *
    exact ⟨skipped, q, h⟩
  | cons i is ih =>
    obtain ⟨ha, hrun'⟩ := (Progress.run_cons_eq_ok_iff h.balanced).mp hrun
    have happend : done ++ i :: is = done ++ [i] ++ is := by simp
    have hi : i ∈ done ++ i :: is := by simp
    have hstep : (done ++ [i]).foldl Matching.step {} =
        (done.foldl Matching.step {}).step i := by
      rw [List.foldl_append]
      rfl
    have ih {b' : Builder} {q' : Progress} {skipped' : Nat} :=
      @ih (p.after i) q' b' skipped' (done ++ [i]) (happend ▸ hcheck) (happend ▸ hcount)
        (happend ▸ hwhole) (happend ▸ hind)
    rw [List.length_append, hstep, ← happend] at ih
    -- What goes is passed over on the side of the source; what stays is copied, and then no block
    -- around it has gone.
    by_cases hgoes : i.index ∈ gone
    · have hend := pos_of_isBlockEnd hcheck hwhole h.source hsplits ha hgoes
      rw [List.filter_cons_of_neg (by simpa using hgoes)]
      exact ih (h.skip ha hend fun v hv => ⟨i, hi, hgoes, hv⟩) (hsplits.skip hgoes hend) hrun'
    · obtain rfl := eq_zero_of_stays hcheck hwhole h.source hsplits ha hgoes h.balanced
        hrun
      rw [List.filter_cons_of_pos (by simpa using hgoes)]
      have hadopt := h.adoptAs rfl ha rfl (hcount i hi) fun v hv => not_lost hcheck hind hi hgoes hv
      refine hadopt.bind ?_
      rintro ⟨produced, b₁⟩ ⟨j, -, -, h₁⟩
      exact ih h₁ (hsplits.keep hgoes) hrun'

end Builder

namespace Program

open Code Builder

variable {p : Program}

theorem numVariables_filter_le (c : Code) (keep : Instruction → Bool) :
    Code.numVariables (c.filter keep) ≤ c.numVariables := by
  induction c with
  | nil => exact Nat.le_refl _
  | cons i is ih =>
    rw [List.filter_cons, numVariables_cons]
    split
    · rw [numVariables_cons]
      omega
    · omega

/-- What is not doomed is copied, and the copy keeps what is told of the program as a whole. -/
theorem exists_without (hsound : p.code.IsSound) (id : Uuid) (o : Option Observed) :
    ∃ r, p.without id (p.code.doomed o) = .ok r ∧ r.code.IsSound ∧
      r.code.map Instruction.op =
        (p.code.filter fun i => i.index ∉ p.code.doomed o).map Instruction.op ∧
      r.contributors = p.contributors ∧ r.parent = p.parent ∧
      r.comments.header = p.comments.header ∧ r.comments.footer = p.comments.footer := by
  obtain ⟨hwhole, hind⟩ := Code.closed_doomed hsound.check o
  generalize p.code.doomed o = gone at hwhole hind ⊢
  obtain ⟨final, hrun, hblocks⟩ := check_eq_ok_iff_run.mp hsound.check
  have hstart : Carries (Lost p.code gone) {} 0 [] {}
      ({ contributors := p.contributors } : Builder).beginAdoption {} :=
    Carries.start (holds_start.congr rfl rfl rfl rfl rfl)
  have hcopy := allows_adoptAll_filter [] p.code hsound.check hsound.countable hwhole hind hstart
    (splits_start gone) hrun
  cases hall : ({ contributors := p.contributors } : Builder).beginAdoption.adoptAll
      (p.code.filter fun i => i.index ∉ gone) with
  | error f =>
    rw [hall] at hcopy
    have hroom := Nat.lt_of_le_of_lt (numVariables_filter_le p.code fun i => i.index ∉ gone)
      (numVariables_lt_of_check hsound.check)
    have hshort := (fails_of_adoptAll hall).isShortage_eq_false ((Nat.zero_add _).symm ▸ hroom)
    exact absurd (hshort ▸ hcopy) Bool.false_ne_true
  | ok b =>
    rw [hall] at hcopy
    obtain ⟨skipped, q, h⟩ := hcopy
    obtain ⟨r, hr, hcode, hsound'⟩ := h.target.exists_finalize (h.blocks_eq hblocks) id
    have hgrown := continues_adoptAll hall
    have hwithout : p.without id gone = .ok { r with
        parent := p.parent
        comments :=
          { r.comments with header := p.comments.header, footer := p.comments.footer } } := by
      unfold without
      simp only [hall, hr, bind, Except.bind]
      rfl
    refine ⟨_, hwithout, hsound', ?_, ?_, rfl, rfl, rfl⟩
    · exact (congrArg (List.map Instruction.op) hcode).trans hgrown.ops
    · exact (congrArg Program.contributors (eq_of_finalize hr)).trans hgrown.contributors

/-- A sound program without what is doomed is sound, and can be built. -/
theorem exists_sound_prune (hsound : p.code.IsSound) (id : Uuid) (o : Option Observed) :
    ∃ r, p.prune id o = .ok r ∧ r.code.IsSound ∧ r.code.map Instruction.op =
      (p.code.filter fun i => i.index ∉ p.code.doomed o).map Instruction.op := by
  unfold prune
  split
  · rename_i hnone
    refine ⟨p, rfl, hsound, ?_⟩
    rw [hnone, List.filter_eq_self.mpr fun i _ => decide_eq_true List.not_mem_nil]
  · obtain ⟨r, hr, hsound', hops, -⟩ := exists_without hsound id o
    exact ⟨r, hr, hsound', hops⟩

/-- Pruning a checked program looks at no position outside of its code and ends in no fault. What it
gives is checked, holds the instructions at the positions that do not go, and keeps what is told of
the program as a whole. -/
theorem exists_prune (hcheck : p.code.check = .ok ()) (hcount : p.code.IsCountable) (id : Uuid)
    (o : Option Observed) :
    (∀ g ∈ p.code.closedGroups, ∀ n ∈ g.range, n < p.code.length) ∧
    ∃ r, p.prune id o = .ok r ∧ r.code.check = .ok () ∧
      r.code.map Instruction.op =
        (p.code.filter fun i => i.index ∉ p.code.doomed o).map Instruction.op ∧
      r.contributors = p.contributors ∧ r.parent = p.parent ∧
      r.comments.header = p.comments.header ∧ r.comments.footer = p.comments.footer := by
  refine ⟨fun g hg n hn => Code.lt_length_of_mem_range hcheck hg hn, ?_⟩
  unfold prune
  split
  · rename_i hnone
    refine ⟨p, rfl, hcheck, ?_, rfl, rfl, rfl, rfl⟩
    rw [hnone, List.filter_eq_self.mpr fun i _ => decide_eq_true List.not_mem_nil]
  · obtain ⟨r, hr, hsound, hrest⟩ := exists_without ⟨hcheck, hcount⟩ id o
    exact ⟨r, hr, hsound.check, hrest⟩

/-- Two values in a guarded region. -/
def guardedPair : Program where
  id := .fresh 0
  contributors := ["guard"]
  code :=
    [{ op := .loadString "x", inouts := [⟨0⟩], index := 0, arity := by decide },
      { op := .beginTry, inouts := [], index := 1, arity := by decide },
      { op := .loadInteger 1, inouts := [⟨1⟩], index := 2, arity := by decide },
      { op := .loadInteger 2, inouts := [⟨2⟩], index := 3, arity := by decide },
      { op := .beginCatch, inouts := [⟨3⟩], index := 4, arity := by decide },
      { op := .endTryCatchFinally, inouts := [], index := 5, arity := by decide }]

/-- The second of the two values was observed. -/
def guardedPairObserved : Observed where
  program := guardedPair
  records := [(3, { index := 3, kind := .primitive, typeName := "int" })]

theorem exists_prune_guardedPair :
    guardedPair.code.check = .ok () ∧ guardedPair.code.IsCountable ∧
    ∃ r, guardedPair.prune (.fresh 1) (some guardedPairObserved) = .ok r ∧
      r.code.check = .ok () ∧ r.contributors = ["guard"] ∧
      r.code.map Instruction.op =
        [.loadString "x", .beginTry, .loadInteger 2, .beginCatch, .endTryCatchFinally] := by
  have hcheck : guardedPair.code.check = .ok () := rfl
  have hcount : ∀ i ∈ guardedPair.code, i.op.isCountable = true := by decide
  refine ⟨hcheck, hcount, ?_⟩
  obtain ⟨-, r, hr, hsound, hops, hcontributors, -⟩ :=
    exists_prune hcheck hcount (.fresh 1) (some guardedPairObserved)
  have hdoomed : guardedPair.code.doomed (some guardedPairObserved) = [2] := by decide +kernel
  rw [hdoomed] at hops
  exact ⟨r, hr, hsound, hcontributors, hops⟩

end Program

end ScriptFuzz
