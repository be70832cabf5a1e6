import Mathlib.Order.Bounds.Basic
import ScriptFuzz.Proofs.Builder.Renaming
import ScriptFuzz.Proofs.Program.Pruning

/-!
# What pruning removes

The positions that must go are the least set that is closed under two rules (`Code.Sheds`): what guarded
regions hold besides observed values goes, and what uses a variable that goes, goes. One pass over the
code reaches this set (`Code.isLeast_shed`). What is pruned in the end are these positions and the guarded
regions of which they leave nothing (`Program.exists_prune_least`).
-/

namespace ScriptFuzz

set_option autoImplicit false

namespace Code

open Matching

/-- Whether a position lies in a block inside of the bodies of a group. -/
def InInnerBlock (c : Code) (g : BlockGroup) (n : Nat) : Prop :=
  ∃ h ∈ c.closedGroups, h.head ∈ g.body ∧ n ∈ h.range

/-- What is worth guarding: a value that was observed, by an instruction that does not serve the
observation itself. -/
structure Worthwhile (o : Observed) (i : Instruction) : Prop where
  recorded : (o.record? i.index).isSome = true
  simple : i.isSimple = true
  single : i.shape.outputs = 1
  noRecordCall : Hook.isRecordCall i = false
  noLoad : Hook.isLoad i = false

/-- What goes is closed under the rules of pruning. -/
structure Sheds (code : Code) (o : Option Observed) (gone : Set Nat) : Prop where
  unobserved : o = none → ∀ g ∈ code.guarded, ∀ n ∈ g.range, n ∈ gone
  unnoticed : ∀ o', o = some o' → ∀ g ∈ code.guarded, ∀ n ∈ g.body,
    (code.InInnerBlock g n ∨ ∀ i, code[n]? = some i → ¬ Worthwhile o' i) → n ∈ gone
  dependent : ∀ i ∈ code, (∃ j ∈ code, j.index ∈ gone ∧ ∃ v ∈ j.allOutputs, v ∈ i.inputs) →
    i.index ∈ gone ∧ ∀ g ∈ code.closedGroups, g.head = i.index → ∀ n ∈ g.range, n ∈ gone

variable {code : Code} {g h : BlockGroup} {gone : List Nat} {S : Set Nat} {o : Option Observed}
  {i : Instruction} {n k : Nat}

theorem isNoteworthy_iff {o : Observed} : isNoteworthy o i = true ↔ Worthwhile o i := by
  unfold isNoteworthy Instruction.isObservable Instruction.hasOneOutput
  constructor
  · intro h
    simp only [Bool.and_eq_true, Bool.not_eq_true', beq_iff_eq] at h
    obtain ⟨⟨⟨hrecorded, hsimple, hsingle⟩, hcall⟩, hload⟩ := h
    exact ⟨hrecorded, hsimple, hsingle, hcall, hload⟩
  · rintro ⟨hrecorded, hsimple, hsingle, hcall, hload⟩
    simp [hrecorded, hsimple, hsingle, hcall, hload]

section

variable (hcheck : code.check = .ok ())

include hcheck

theorem exists_head (hg : g ∈ code.closedGroups) : g.head ∈ g.own ∧ g.head ≤ g.tail ∧
    ∃ i ∈ code, i.index = g.head ∧ code[g.head]? = some i := by
  obtain ⟨q, hfollows, -⟩ := follows_of_check hcheck
  obtain ⟨hhead, -, hown⟩ := hfollows.laminar.closed g (mem_closedGroups.mp hg)
  obtain ⟨i, hi, hget, hindex, -⟩ := exists_own hcheck hg hhead
  exact ⟨hhead, (hown g.head hhead).2, i, hi, hindex, hget⟩

theorem mem_allGroups : g ∈ code.blockGroups (fun _ => true) ↔ g ∈ code.closedGroups := by
  rw [mem_blockGroups]
  refine ⟨And.left, fun hg => ⟨hg, ?_⟩⟩
  obtain ⟨-, -, i, -, -, hget⟩ := exists_head hcheck hg
  rw [hget]
  rfl

theorem isNested_iff :
    isNested (code.blockGroups fun _ => true) g n = true ↔ code.InInnerBlock g n := by
  have hmem (h : BlockGroup) : (g.contains h.head && !g.isOwn h.head && h.contains n) = true ↔
      h.head ∈ g.body ∧ n ∈ h.range := by
    rw [mem_body, mem_range, mem_range]
    simp [BlockGroup.contains, BlockGroup.isOwn, and_assoc]
  unfold isNested InInnerBlock
  rw [List.any_eq_true]
  simp only [hmem, mem_allGroups hcheck]

/-- Of two groups that overlap, one lies inside of the other. -/
theorem inInnerBlock_of_overlap (hg : g ∈ code.closedGroups) (hh : h ∈ code.closedGroups)
    (hne : g ≠ h) (hk : k ∈ g.body) (hk' : k ∈ h.range) :
    code.InInnerBlock g k ∨ k ∈ h.body ∧ code.InInnerBlock h k := by
  obtain ⟨q, hfollows, -⟩ := follows_of_check hcheck
  have hdistinct := hfollows.laminar.distinct g (mem_closedGroups.mp hg) h (mem_closedGroups.mp hh)
  obtain ⟨hghead, -, -⟩ := exists_head hcheck hg
  obtain ⟨hhhead, -, -⟩ := exists_head hcheck hh
  obtain ⟨hkg, hkown⟩ := mem_body.mp hk
  rw [mem_range] at hkg hk'
  rcases Nat.le_total g.head h.head with hle | hle
  · refine .inl ⟨h, hh, mem_body.mpr ⟨mem_range.mpr ⟨hle, by omega⟩, ?_⟩, mem_range.mpr hk'⟩
    exact fun hown => hne (hdistinct _ hown hhhead)
  · have hown : g.head ∉ h.own := fun hown => hne (hdistinct _ hghead hown)
    have hstays : k ∉ h.own := by
      intro hkh
      have hin := (hfollows.laminar.nested h (mem_closedGroups.mp hh) g (mem_closedGroups.mp hg) k hkh
        hkg).1
      have heq : g.head = h.head := by omega
      exact hown (heq ▸ hhhead)
    refine .inr ⟨mem_body.mpr ⟨mem_range.mpr hk', hstays⟩, g, hg, ?_, mem_range.mpr hkg⟩
    exact mem_body.mpr ⟨mem_range.mpr ⟨hle, by omega⟩, hown⟩

theorem mem_unnoticed {o : Observed} : n ∈ code.unnoticed o g ↔ n ∈ g.body ∧
    (code.InInnerBlock g n ∨ ∀ i, code[n]? = some i → ¬ Worthwhile o i) := by
  unfold unnoticed
  rw [List.mem_filter, Bool.or_eq_true, isNested_iff hcheck]
  refine and_congr_right fun _ => or_congr_right ?_
  rw [Bool.not_eq_true', Option.any_eq_false]
  refine forall₂_congr fun i _ => ?_
  rw [← isNoteworthy_iff, Bool.not_eq_true]

/-- What uses a variable that is declared at a position that must go, must go. -/
theorem mem_shed_of_uses {j : Instruction} {v : Variable} (hi : i ∈ code) (hj : j ∈ code)
    (hgoes : j.index ∈ code.shed o) (hv : v ∈ j.allOutputs) (hin : v ∈ i.inputs) :
    i.index ∈ code.shed o := by
  obtain ⟨-, -, hind⟩ := closed_shed hcheck o
  by_contra hstays
  obtain ⟨a, b, rfl⟩ := List.append_of_mem hi
  have hnumbered := numbered_of_check hcheck
  rcases List.mem_append.mp hj with hj | hj
  · exact (List.pairwise_append.mp hind).2.2 j hj i List.mem_cons_self hgoes hstays v hv hin
  · -- What is declared at this instruction or later is not used by it.
    rcases List.mem_cons.mp hj with rfl | hj
    · exact hnumbered.of_append.not_mem_inputs hv hin
    · have hlt := hnumbered.of_append.1 v hin
      have hle := hnumbered.of_append.2.2.le_of_mem hj hv
      omega

theorem sheds_shed (o : Option Observed) : code.Sheds o {n | n ∈ code.shed o} := by
  obtain ⟨hwhole, hsub, -⟩ := closed_shed hcheck o
  refine ⟨?_, ?_, ?_⟩
  · rintro rfl g hg n hn
    exact hsub (List.mem_flatMap.mpr ⟨g, hg, hn⟩)
  · rintro o' rfl g hg n hn hunnoticed
    exact hsub (List.mem_flatMap.mpr ⟨g, hg, (mem_unnoticed hcheck).mpr ⟨hn, hunnoticed⟩⟩)
  · rintro i hi ⟨j, hj, hgoes, v, hv, hin⟩
    have hindex := mem_shed_of_uses hcheck hi hj hgoes hv hin
    refine ⟨hindex, ?_⟩
    intro g hg hhead
    refine hwhole g hg g.head (exists_head hcheck hg).1 ?_
    rw [hhead]
    exact hindex

end

theorem mem_of_mem_extent (hn : n ∈ extent (code.blockGroups fun _ => true) i) :
    n = i.index ∨ ∃ g ∈ code.closedGroups, g.head = i.index ∧ n ∈ g.range := by
  unfold extent at hn
  split at hn
  · rename_i g hg
    have hhead := List.find?_some hg
    rw [Bool.and_eq_true, beq_iff_eq] at hhead
    exact .inr ⟨g, (mem_blockGroups.mp (List.mem_of_find?_eq_some hg)).1, hhead.2, hn⟩
  · exact .inl (List.mem_singleton.mp hn)

/-- What is found to depend on lost variables lies in every set that is closed under the rules. -/
theorem mem_of_mem_dependents (hS : code.Sheds o S) {is : Code} {lost : List Variable}
    (his : ∀ i ∈ is, i ∈ code) (hgone : ∀ k ∈ gone, k ∈ S)
    (hlost : ∀ v ∈ lost, ∃ j ∈ code, j.index ∈ S ∧ v ∈ j.allOutputs)
    (hk : k ∈ dependents (code.blockGroups fun _ => true) lost gone is) : k ∈ S := by
  induction is generalizing lost gone with
  | nil => exact hgone k hk
  | cons i is ih =>
    obtain ⟨hi, his⟩ := List.forall_mem_cons.mp his
    have hgone' : ∀ k ∈ goneAfter (code.blockGroups fun _ => true) lost gone i, k ∈ S := by
      unfold goneAfter
      split
      · rename_i hgoes
        obtain ⟨v, hin, hv⟩ := List.any_eq_true.mp hgoes.2
        obtain ⟨j, hj, hjS, hvj⟩ := hlost v (List.contains_iff_mem.mp hv)
        obtain ⟨hindex, hgroup⟩ := hS.dependent i hi ⟨j, hj, hjS, v, hvj, hin⟩
        refine List.forall_mem_append.mpr ⟨?_, hgone⟩
        intro k hk
        rcases mem_of_mem_extent hk with rfl | ⟨g, hg, hhead, hk⟩
        · exact hindex
        · exact hgroup g hg hhead k hk
      · exact hgone
    rw [dependents_cons] at hk
    refine ih his hgone' ?_ hk
    split
    · rename_i hindex
      refine List.forall_mem_append.mpr ⟨?_, hlost⟩
      exact fun v hv => ⟨i, hi, hgone' _ hindex, hv⟩
    · exact hlost

/-- One pass over the code finds what must go and nothing else. -/
theorem isLeast_shed (hcheck : code.check = .ok ()) (o : Option Observed) :
    IsLeast {S | code.Sheds o S} {n | n ∈ code.shed o} := by
  refine ⟨sheds_shed hcheck o, ?_⟩
  intro S hS k hk
  refine mem_of_mem_dependents hS (fun _ hi => hi) ?_ (fun _ hv => absurd hv List.not_mem_nil) hk
  intro n hn
  cases o with
  | none =>
    obtain ⟨g, hg, hn⟩ := List.mem_flatMap.mp hn
    exact hS.unobserved rfl g hg n hn
  | some o =>
    obtain ⟨g, hg, hn⟩ := List.mem_flatMap.mp hn
    obtain ⟨hbody, hunnoticed⟩ := (mem_unnoticed hcheck).mp hn
    exact hS.unnoticed o rfl g hg n hbody hunnoticed

/-! ## Guarded regions in which nothing is left -/

/-- Whether nothing of a guarded region is left. -/
def Emptied (gone : List Nat) (g : BlockGroup) : Prop := ∀ n ∈ g.body, n ∈ gone

/-- A position that lies in two guarded regions goes. -/
theorem mem_shed_of_overlap (hcheck : code.check = .ok ()) (hg : g ∈ code.guarded)
    (hh : h ∈ code.guarded) (hne : g ≠ h) (hk : k ∈ g.body) (hk' : k ∈ h.range) :
    k ∈ code.shed o := by
  have hsheds := sheds_shed hcheck o
  cases o with
  | none => exact hsheds.unobserved rfl h hh k hk'
  | some o =>
    rcases inInnerBlock_of_overlap hcheck (mem_blockGroups.mp hg).1 (mem_blockGroups.mp hh).1 hne hk
      hk' with hinner | ⟨hbody, hinner⟩
    · exact hsheds.unnoticed o rfl g hg k hk (.inl hinner)
    · exact hsheds.unnoticed o rfl h hh k hbody (.inl hinner)

/-- Removing one region empties no other, so the order in which they are looked at does not matter. -/
theorem mem_foldl_collapse (hcheck : code.check = .ok ()) {gs : List BlockGroup}
    (hgs : ∀ g ∈ gs, g ∈ code.guarded) (hsub : code.shed o ⊆ gone)
    (hgone : ∀ n ∈ gone, n ∈ code.shed o ∨
      ∃ g ∈ code.guarded, n ∈ g.range ∧ Emptied (code.shed o) g) :
    n ∈ gs.foldl collapse gone ↔
      n ∈ gone ∨ ∃ g ∈ gs, n ∈ g.range ∧ Emptied (code.shed o) g := by
  induction gs generalizing gone with
  | nil => simp
  | cons g gs ih =>
    obtain ⟨hg, hgs⟩ := List.forall_mem_cons.mp hgs
    -- What earlier regions took with them lies in this one only where both overlap.
    have hemptied : (g.body.all fun n => gone.contains n) = true ↔ Emptied (code.shed o) g := by
      rw [List.all_eq_true]
      constructor
      · intro hall k hk
        rcases hgone k (List.contains_iff_mem.mp (hall k hk)) with hk' | ⟨h, hh, hk', hempty⟩
        · exact hk'
        · by_cases hne : g = h
          · rw [hne] at hk
            exact hempty k hk
          · exact mem_shed_of_overlap hcheck hg hh hne hk hk'
      · exact fun hempty k hk => List.contains_iff_mem.mpr (hsub (hempty k hk))
    have hstep : ∀ m, m ∈ collapse gone g ↔ m ∈ gone ∨ m ∈ g.range ∧ Emptied (code.shed o) g := by
      intro m
      unfold collapse
      by_cases hall : Emptied (code.shed o) g
      · rw [if_pos (hemptied.mpr hall), List.mem_append, or_comm]
        simp [hall]
      · rw [if_neg (mt hemptied.mp hall)]
        simp [hall]
    rw [List.foldl_cons, ih hgs (fun m hm => (hstep m).mpr (.inl (hsub hm))), hstep, or_assoc]
    · simp only [List.mem_cons, exists_eq_or_imp]
    · intro m hm
      rcases (hstep m).mp hm with hm | ⟨hm, hempty⟩
      · exact hgone m hm
      · exact .inr ⟨g, hg, hm, hempty⟩

/-- What is pruned is what must go, and the guarded regions of which it leaves nothing. -/
theorem mem_doomed (hcheck : code.check = .ok ()) : n ∈ code.doomed o ↔
    n ∈ code.shed o ∨ ∃ g ∈ code.guarded, n ∈ g.range ∧ Emptied (code.shed o) g := by
  rw [doomed_eq, mem_foldl_collapse hcheck (fun g hg => List.mem_reverse.mp hg) (List.Subset.refl _)
    fun _ hn => .inl hn]
  simp only [List.mem_reverse]

end Code

namespace Program

open Code Builder

variable {p q : Program} {gone : List Nat}

/-- What is left of a checked program is copied under other names. -/
theorem renamed_without (hcheck : p.code.check = .ok ()) {id : Uuid}
    (h : p.without id gone = .ok q) (hq : q.code.check = .ok ()) :
    ∃ σ, Set.InjOn σ (Code.occurring (p.code.filter fun i => i.index ∉ gone)) ∧
      List.Forall₂ (Instruction.Renamed σ) (p.code.filter fun i => i.index ∉ gone) q.code := by
  unfold without at h
  dsimp only at h
  cases hall : ({ contributors := p.contributors } : Builder).beginAdoption.adoptAll
      (p.code.filter fun i => i.index ∉ gone) with
  | error f =>
    rw [hall] at h
    cases h
  | ok b =>
    rw [hall] at h
    cases hr : b.finalize id with
    | error f =>
      simp only [hr, bind, Except.bind] at h
      cases h
    | ok r =>
      simp only [hr, bind, Except.bind] at h
      cases h
      have hcopied := copied_adoptAll hall
        ((declaresNew_of_check hcheck).sublist List.filter_sublist)
      obtain ⟨js, hcode, hrenamed⟩ := hcopied.code
      have hjs : r.code = js := (code_finalize hr).trans hcode
      refine ⟨b.renamed, ?_, hjs ▸ hrenamed⟩
      rw [hcopied.occurring rfl]
      exact injOn_declared hrenamed (hjs ▸ nodup_declared_of_check hq)

/-- What pruning gives holds the instructions at the positions that do not go, under other names. -/
theorem exists_prune_renamed (hcheck : p.code.check = .ok ()) (hcount : p.code.IsCountable)
    (id : Uuid) (o : Option Observed) :
    ∃ q σ, p.prune id o = .ok q ∧ q.code.check = .ok () ∧
      Set.InjOn σ (Code.occurring (p.code.filter fun i => i.index ∉ p.code.doomed o)) ∧
      List.Forall₂ (Instruction.Renamed σ) (p.code.filter fun i => i.index ∉ p.code.doomed o)
        q.code := by
  unfold prune
  split
  · rename_i hnone
    rw [hnone, List.filter_eq_self.mpr fun i _ => decide_eq_true List.not_mem_nil]
    exact ⟨p, fun v => v, rfl, hcheck, Set.injOn_id _, List.forall₂_same.mpr fun i _ => i.renamed_id⟩
  · obtain ⟨q, hq, hsound, -⟩ := exists_without ⟨hcheck, hcount⟩ id o
    obtain ⟨σ, hσ, hrenamed⟩ := renamed_without hcheck hq hsound.check
    exact ⟨q, σ, hq, hsound.check, hσ, hrenamed⟩

/-- Pruning a checked program removes the least set of positions that the rules demand, and the guarded
regions of which that leaves nothing. All else stays as it is, but for the names of the variables. -/
theorem exists_prune_least (hcheck : p.code.check = .ok ()) (hcount : p.code.IsCountable)
    (id : Uuid) (o : Option Observed) :
    ∃ (least : Set Nat) (gone : List Nat), IsLeast {S | p.code.Sheds o S} least ∧
      (∀ n, n ∈ gone ↔ n ∈ least ∨ ∃ g ∈ p.code.guarded, n ∈ g.range ∧ ∀ k ∈ g.body, k ∈ least) ∧
      ∃ q σ, p.prune id o = .ok q ∧ q.code.check = .ok () ∧
        Set.InjOn σ (Code.occurring (p.code.filter fun i => i.index ∉ gone)) ∧
        List.Forall₂ (Instruction.Renamed σ) (p.code.filter fun i => i.index ∉ gone) q.code :=
  ⟨{n | n ∈ p.code.shed o}, p.code.doomed o, isLeast_shed hcheck o, fun _ => mem_doomed hcheck,
    exists_prune_renamed hcheck hcount id o⟩

/-- Of the two guarded values the one goes that was not observed, and nothing else. -/
theorem exists_prune_least_guardedPair :
    guardedPair.code.check = .ok () ∧ guardedPair.code.IsCountable ∧
    ∃ (least : Set Nat) (gone : List Nat),
      IsLeast {S | guardedPair.code.Sheds (some guardedPairObserved) S} least ∧
      (∀ n, n ∈ gone ↔ n = 2) ∧
      ∃ q σ, guardedPair.prune (.fresh 1) (some guardedPairObserved) = .ok q ∧
        Set.InjOn σ (Code.occurring (guardedPair.code.filter fun i => i.index ∉ gone)) ∧
        List.Forall₂ (Instruction.Renamed σ) (guardedPair.code.filter fun i => i.index ∉ gone)
          q.code := by
  have hcheck : guardedPair.code.check = .ok () := rfl
  have hcount : ∀ i ∈ guardedPair.code, i.op.isCountable = true := by decide
  obtain ⟨least, gone, hleast, hgone, q, σ, hq, -, hσ, hrenamed⟩ :=
    exists_prune_least hcheck hcount (.fresh 1) (some guardedPairObserved)
  refine ⟨hcheck, hcount, least, gone, hleast, ?_, q, σ, hq, hσ, hrenamed⟩
  intro n
  have hdoomed : guardedPair.code.doomed (some guardedPairObserved) = [2] := by decide +kernel
  obtain rfl := hleast.unique (isLeast_shed hcheck (some guardedPairObserved))
  rw [hgone, ← List.mem_singleton, ← hdoomed]
  exact (mem_doomed hcheck).symm

end Program

end ScriptFuzz
