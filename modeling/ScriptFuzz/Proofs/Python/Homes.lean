import Mathlib.Data.List.Induction
import Mathlib.Data.List.Pairwise
import ScriptFuzz.Proofs.Code.Embedding
import ScriptFuzz.Proofs.Python.EffectOrder
import ScriptFuzz.Proofs.Python.OuterVariables

/-!
# Where variables are at home

A variable is at home in the innermost function or method around its declaration (`Code.Home`). The search
for assignments to outer variables is exact: for each function or method it lists the variables to which
the instructions assign that have it as their innermost one, those of the module apart from those of
functions and methods around it (`Code.mem_globals_iff`, `Code.mem_nonlocals_iff`).
-/

namespace ScriptFuzz

set_option autoImplicit false

namespace Code

/-- The blocks around an instruction, innermost first, by the positions of the instructions that start
them. -/
def blocksAround (is : Code) (i : Instruction) : List Nat :=
  i.outerPath (pathAfter [] (is.take i.index))

/-- The blocks around what follows an instruction. -/
def blocksAfter (is : Code) (i : Instruction) : List Nat :=
  i.innerPath (pathAfter [] (is.take i.index))

/-- The innermost function or method among blocks; `none` is the module. -/
def innermost (is : Code) (blocks : List Nat) : Option Nat :=
  blocks.find? fun n => (is[n]?).any (·.op.opensFrame)

/-- The function or method in which a variable is declared; `none` is the module. -/
inductive Home (is : Code) (v : Variable) : Option Nat → Prop where
  | outer {i : Instruction} (hi : i ∈ is) (hv : v ∈ i.outputs) :
    Home is v (is.innermost (is.blocksAround i))
  | inner {i : Instruction} (hi : i ∈ is) (hv : v ∈ i.innerOutputs) :
    Home is v (is.innermost (is.blocksAfter i))

/-- Some of the instructions `pre` of the code, with the function or method at position `k` as its
innermost one, assigns to the variable. -/
def Reassigns (is pre : Code) (k : Nat) (v : Variable) : Prop :=
  ∃ i ∈ pre, i.op.assigns = true ∧ i.input 0 = v ∧ is.innermost (is.blocksAround i) = some k

/-- The check has come past the instructions `pre`, and the blocks that it has open are those around
the next instruction. -/
structure Located (is pre : Code) (p : Progress) : Prop where
  run : ({} : Progress).run 0 pre = .ok p
  balanced : p.Balanced
  numbered : p.SeesNumbered
  path : pathAfter [] pre = p.blocks.map (·.index)
  mem : ∀ b ∈ p.blocks, b ∈ pre
  nested : ∀ xs b rest, p.blocks = xs ++ b :: rest → rest.map (·.index) = is.blocksAround b

variable {is pre rest : Code} {p q : Progress} {i : Instruction} {v : Variable} {k : Nat}
  {h h' : Option Nat}

theorem located_start (is : Code) : Located is [] {} where
  run := rfl
  balanced := Progress.balanced_start
  numbered := Progress.seesNumbered_start
  path := rfl
  mem := nofun
  nested := by
    intro xs b rest hblocks
    cases xs <;> cases hblocks

theorem take_index (his : is = pre ++ i :: rest) (ha : p.Admits pre.length i) :
    is.take i.index = pre := by
  rw [his, ha.index]
  exact List.take_left

theorem pathAfter_append (pre : Code) (i : Instruction) :
    pathAfter [] (pre ++ [i]) = i.innerPath (pathAfter [] pre) := by
  unfold pathAfter
  rw [List.foldl_append]
  rfl

namespace Located

theorem blocksAround (hl : Located is pre p) (his : is = pre ++ i :: rest)
    (ha : p.Admits pre.length i) : is.blocksAround i = (p.outerBlocks i).map (·.index) := by
  unfold Code.blocksAround Instruction.outerPath Progress.outerBlocks
  rw [take_index his ha, hl.path]
  split
  · exact List.map_tail.symm
  · rfl

theorem after (hl : Located is pre p) (his : is = pre ++ i :: rest)
    (ha : p.Admits pre.length i) : Located is (pre ++ [i]) (p.after i) := by
  have haround := hl.blocksAround his ha
  have houter : ∀ b ∈ p.outerBlocks i, b ∈ p.blocks := by
    intro b hb
    unfold Progress.outerBlocks at hb
    split at hb
    · exact List.mem_of_mem_tail hb
    · exact hb
  have hsuffix : ∃ xs, p.blocks = xs ++ p.outerBlocks i := by
    unfold Progress.outerBlocks
    split
    · exact ⟨p.blocks.take 1, by rw [← List.drop_one, List.take_append_drop]⟩
    · exact ⟨[], rfl⟩
  have hblocks : (p.after i).blocks =
      if i.isBlockStart then i :: p.outerBlocks i else p.outerBlocks i := rfl
  refine ⟨Progress.run_append_admitted hl.run hl.balanced ha, hl.balanced.after ha,
    hl.numbered.after ha, ?_, ?_, ?_⟩
  · rw [pathAfter_append, hblocks]
    unfold Code.blocksAround at haround
    rw [take_index his ha] at haround
    unfold Instruction.innerPath
    rw [haround]
    split <;> rfl
  · intro b hb
    rw [hblocks] at hb
    split at hb
    · rcases List.mem_cons.mp hb with rfl | hb
      · exact List.mem_append_right _ List.mem_cons_self
      · exact List.mem_append_left _ (hl.mem b (houter b hb))
    · exact List.mem_append_left _ (hl.mem b (houter b hb))
  · -- A block that stays open has the blocks around it that it had.
    obtain ⟨ys, hys⟩ := hsuffix
    have hold : ∀ xs b rest, p.outerBlocks i = xs ++ b :: rest →
        rest.map (·.index) = is.blocksAround b := by
      intro xs b rest hsplit
      exact hl.nested (ys ++ xs) b rest (by rw [hys, hsplit, List.append_assoc])
    intro xs b rest hsplit
    rw [hblocks] at hsplit
    split at hsplit
    · cases xs with
      | nil =>
        obtain ⟨rfl, rfl⟩ := List.cons.inj hsplit
        exact haround.symm
      | cons x xs => exact hold xs b rest (List.cons.inj hsplit).2
    · exact hold xs b rest hsplit

/-- The innermost function or method among open blocks. -/
theorem innermost_eq (hcheck : is.check = .ok ()) {blocks : List Instruction}
    (hmem : ∀ b ∈ blocks, b ∈ is) :
    is.innermost (blocks.map (·.index)) = (framesIn blocks).headD none := by
  unfold innermost
  induction blocks with
  | nil => rfl
  | cons b blocks ih =>
    obtain ⟨hb, hblocks⟩ := List.forall_mem_cons.mp hmem
    rw [List.map_cons, List.find?_cons, Code.getElem?_index hcheck hb, framesIn]
    cases hframe : b.op.opensFrame with
    | true => simp [hframe]
    | false => simpa [hframe] using ih hblocks

theorem frame_around (hl : Located is pre p) (hcheck : is.check = .ok ())
    (his : is = pre ++ i :: rest) (ha : p.Admits pre.length i) :
    is.innermost (is.blocksAround i) = (framesIn (p.outerBlocks i)).headD none := by
  rw [hl.blocksAround his ha]
  apply innermost_eq hcheck
  intro b hb
  rw [his]
  apply List.mem_append_left
  apply hl.mem
  unfold Progress.outerBlocks at hb
  split at hb
  · exact List.mem_of_mem_tail hb
  · exact hb

theorem frame_after (hl : Located is pre p) (hcheck : is.check = .ok ())
    (his : is = pre ++ i :: rest) (ha : p.Admits pre.length i) :
    is.innermost (is.blocksAfter i) = (framesIn (p.after i).blocks).headD none := by
  have hafter := hl.after his ha
  have hblocks : is.blocksAfter i = (p.after i).blocks.map (·.index) := by
    rw [← hafter.path, pathAfter_append, blocksAfter, take_index his ha]
  rw [hblocks]
  apply innermost_eq hcheck
  intro b hb
  have hmem := hafter.mem b hb
  rw [his]
  rcases List.mem_append.mp hmem with hb | hb
  · exact List.mem_append_left _ hb
  · rw [List.mem_singleton.mp hb]
    exact List.mem_append_right _ List.mem_cons_self

end Located

theorem isBlock_of_assigns (hassigns : i.op.assigns = true) : i.isBlock = false := by
  obtain ⟨hs, he⟩ := not_isBlock_of_assigns hassigns
  rw [Instruction.isBlock, hs, he]
  rfl

/-- A variable is at home in one place. -/
theorem Home.unique (hcheck : is.check = .ok ()) (hv : is.Home v h) (hv' : is.Home v h') :
    h = h' := by
  obtain ⟨hown, hothers⟩ := List.nodup_flatMap.mp (nodup_declared_of_check hcheck)
  have hsame {i j : Instruction} (hi : i ∈ is) (hj : j ∈ is) (hvi : v ∈ i.allOutputs)
      (hvj : v ∈ j.allOutputs) : i = j := by
    have : Std.Symm (Function.onFun List.Disjoint Instruction.allOutputs) :=
      ⟨fun _ _ hdisjoint _ hv hv' => hdisjoint hv' hv⟩
    by_contra hne
    exact hothers.forall hi hj hne hvi hvj
  have hapart {i : Instruction} (hi : i ∈ is) (hout : v ∈ i.outputs) (hinner : v ∈ i.innerOutputs) :
      False := by
    have hnodup := hown i hi
    rw [← i.outputs_append_innerOutputs] at hnodup
    exact (List.nodup_append.mp hnodup).2.2 v hout v hinner rfl
  cases hv with
  | outer hi hvi =>
    cases hv' with
    | outer hj hvj => rw [hsame hi hj (List.mem_of_mem_take hvi) (List.mem_of_mem_take hvj)]
    | inner hj hvj =>
      cases hsame hi hj (List.mem_of_mem_take hvi) (List.mem_of_mem_drop hvj)
      exact (hapart hi hvi hvj).elim
  | inner hi hvi =>
    cases hv' with
    | outer hj hvj =>
      cases hsame hi hj (List.mem_of_mem_drop hvi) (List.mem_of_mem_take hvj)
      exact (hapart hi hvj hvi).elim
    | inner hj hvj => rw [hsame hi hj (List.mem_of_mem_drop hvi) (List.mem_of_mem_drop hvj)]

end Code

/-! ## What the search lists -/

theorem mem_framesIn_tail {blocks : List Instruction} {frame : Option Nat}
    (h : frame ∈ framesIn blocks.tail) : frame ∈ framesIn blocks := by
  cases blocks with
  | nil => exact h
  | cons b blocks =>
    rw [framesIn]
    split
    · exact List.mem_cons_of_mem _ h
    · exact h

theorem headD_mem_framesIn (blocks : List Instruction) :
    (framesIn blocks).headD none ∈ framesIn blocks := by
  induction blocks with
  | nil => exact List.mem_cons_self
  | cons b blocks ih =>
    rw [framesIn]
    split
    · exact List.mem_cons_self
    · exact ih

/-- What is visible is at home in one of the frames around. -/
theorem AtHome.exists_home {homes : List (Variable × Option Nat)} {scopes : List (List Variable)}
    {blocks : List Instruction} {v : Variable} (h : AtHome homes scopes blocks)
    (hv : v ∈ scopes.flatten) : ∃ home, homes.lookup v = some home ∧ home ∈ framesIn blocks := by
  induction scopes generalizing blocks with
  | nil => cases hv
  | cons scope scopes ih =>
    rcases List.mem_append.mp hv with hv | hv
    · exact ⟨_, h.1 v hv, headD_mem_framesIn blocks⟩
    · obtain ⟨home, hlookup, hmem⟩ := ih h.2 hv
      exact ⟨home, hlookup, mem_framesIn_tail hmem⟩

namespace Frames

open Code

/-- What is listed for a function or method. -/
def listed (f : Frames) (k : Nat) : OuterAssignments := (f.found.lookup k).getD {}

variable {f : Frames} {frame : Option Nat} {target v : Variable} {k : Nat}

theorem number_inj {v w : Variable} : v.number = w.number ↔ v = w :=
  ⟨congrArg Variable.mk, congrArg Variable.number⟩

/-- An assignment to `target`, which is at home elsewhere, counts for the function or method at
position `k`. -/
def Lists (f : Frames) (frame : Option Nat) (target : Variable) (k : Nat) (home : Option Nat) : Prop :=
  frame = some k ∧ f.homes.lookup target = some home ∧ home ≠ some k

theorem listed_assign {home : Option Nat} (h : f.Lists frame target k home) :
    (f.assign frame target).listed k = if home.isNone then
        { f.listed k with globals := Ordered.insert target.number (f.listed k).globals }
      else { f.listed k with nonlocals := Ordered.insert target.number (f.listed k).nonlocals } := by
  obtain ⟨rfl, hhome, hne⟩ := h
  unfold assign
  rw [hhome]
  dsimp only
  rw [if_neg hne, listed, Ordered.lookup_put]
  rfl

theorem listed_assign_of_not (h : ∀ home, ¬f.Lists frame target k home) :
    (f.assign frame target).listed k = f.listed k := by
  unfold assign
  split
  · rename_i position home hhome
    dsimp only
    split
    · rfl
    · rename_i hne
      have hk : k ≠ position := by
        rintro rfl
        exact h home ⟨rfl, hhome, hne⟩
      unfold listed
      rw [Ordered.lookup_put_of_ne hk]
  · rfl

theorem mem_globals_assign : v.number ∈ ((f.assign frame target).listed k).globals ↔
    v.number ∈ (f.listed k).globals ∨ v = target ∧ f.Lists frame target k none := by
  by_cases h : ∃ home, f.Lists frame target k home
  · obtain ⟨home, h⟩ := h
    rw [listed_assign h]
    cases home with
    | none =>
      simp only [Option.isNone_none, if_true, Ordered.mem_insert, h, and_true]
      rw [or_comm, number_inj]
    | some m =>
      have hnot : ¬f.Lists frame target k none := fun h' => by
        cases h.2.1.symm.trans h'.2.1
      simp [hnot]
  · rw [listed_assign_of_not fun home hl => h ⟨home, hl⟩]
    have hnot : ¬f.Lists frame target k none := fun hl => h ⟨none, hl⟩
    simp [hnot]

theorem mem_nonlocals_assign : v.number ∈ ((f.assign frame target).listed k).nonlocals ↔
    v.number ∈ (f.listed k).nonlocals ∨ v = target ∧ ∃ m, f.Lists frame target k (some m) := by
  by_cases h : ∃ home, f.Lists frame target k home
  · obtain ⟨home, h⟩ := h
    rw [listed_assign h]
    cases home with
    | none =>
      have hnot : ¬∃ m, f.Lists frame target k (some m) := fun ⟨m, h'⟩ => by
        cases h.2.1.symm.trans h'.2.1
      simp [hnot]
    | some m =>
      have hlists : ∃ m, f.Lists frame target k (some m) := ⟨m, h⟩
      simp only [Option.isNone_some, Bool.false_eq_true, if_false, Ordered.mem_insert, hlists,
        and_true]
      rw [or_comm, number_inj]
  · rw [listed_assign_of_not fun home hl => h ⟨home, hl⟩]
    have hnot : ¬∃ m, f.Lists frame target k (some m) := fun ⟨m, hl⟩ => h ⟨some m, hl⟩
    simp [hnot]

/-- The search knows where variables are at home, and lists what the instructions `pre` of the code
assign to outside of the functions and methods around them. -/
structure Finds (is pre : Code) (f : Frames) : Prop where
  homes : ∀ v home, f.homes.lookup v = some home → is.Home v home
  globals : ∀ k v, v.number ∈ (f.listed k).globals ↔ is.Home v none ∧ is.Reassigns pre k v
  nonlocals : ∀ k v, v.number ∈ (f.listed k).nonlocals ↔
    (∃ m, m ≠ k ∧ is.Home v (some m)) ∧ is.Reassigns pre k v

variable {is pre rest : Code} {p q : Progress} {i : Instruction}

theorem not_reassigns_nil : ¬is.Reassigns [] k v := by
  rintro ⟨i, hi, -⟩
  cases hi

theorem reassigns_append_singleton : is.Reassigns (pre ++ [i]) k v ↔ is.Reassigns pre k v ∨
    i.op.assigns = true ∧ v = i.input 0 ∧ is.innermost (is.blocksAround i) = some k := by
  constructor
  · rintro ⟨j, hj, hassigns, rfl, hframe⟩
    rcases List.mem_append.mp hj with hj | hj
    · exact .inl ⟨j, hj, hassigns, rfl, hframe⟩
    · rw [List.mem_singleton.mp hj] at hassigns hframe ⊢
      exact .inr ⟨hassigns, rfl, hframe⟩
  · rintro (⟨j, hj, hassigns⟩ | ⟨hassigns, rfl, hframe⟩)
    · exact ⟨j, List.mem_append_left _ hj, hassigns⟩
    · exact ⟨i, List.mem_append_right _ List.mem_cons_self, hassigns, rfl, hframe⟩

theorem finds_start (is : Code) : Finds is [] {} := by
  refine ⟨nofun, ?_, ?_⟩
  · intro k v
    exact iff_of_false List.not_mem_nil fun h => not_reassigns_nil h.2
  · intro k v
    exact iff_of_false List.not_mem_nil fun h => not_reassigns_nil h.2

theorem homes_declared (h : f.Finds is pre) (hf : f.Follows p) (hl : is.Located pre p)
    (hcheck : is.check = .ok ()) (his : is = pre ++ i :: rest) (ha : p.Admits pre.length i)
    (home : Option Nat) (hlookup : (f.declared i).homes.lookup v = some home) : is.Home v home := by
  have hi : i ∈ is := by
    rw [his]
    exact List.mem_append_right _ List.mem_cons_self
  obtain ⟨hframes, -⟩ := hf.outer ha
  have houter : ∀ home, ((f.outer i).declare i.outputs).homes.lookup v = some home →
      is.Home v home := by
    intro home hlookup
    change ((i.outputs.map fun v => (v, (f.outer i).current)).reverse ++
      (f.outer i).homes).lookup v = some home at hlookup
    by_cases hv : v ∈ i.outputs
    · rw [lookup_of_mem hv, current, hframes, ← hl.frame_around hcheck his ha] at hlookup
      cases hlookup
      exact .outer hi hv
    · rw [lookup_of_not_mem hv, homes_outer] at hlookup
      exact h.homes v home hlookup
  unfold declared at hlookup
  dsimp only at hlookup
  split at hlookup
  · rename_i hstart
    change ((i.innerOutputs.map fun v => (v, _)).reverse ++
      ((f.outer i).declare i.outputs).homes).lookup v = some home at hlookup
    by_cases hv : v ∈ i.innerOutputs
    · rw [lookup_of_mem hv] at hlookup
      have hframe : (((f.outer i).declare i.outputs).enter i).current =
          is.innermost (is.blocksAfter i) := by
        rw [hl.frame_after hcheck his ha]
        unfold Progress.after current enter
        dsimp only
        rw [if_pos hstart, framesIn, ← hframes]
        rfl
      rw [hframe] at hlookup
      cases hlookup
      exact .inner hi hv
    · rw [lookup_of_not_mem hv] at hlookup
      exact houter home hlookup
  · exact houter home hlookup

/-- What an instruction uses is at home in one of the frames around it. -/
theorem exists_home_of_mem_inputs (hf : f.Follows p) (hp : p.Balanced) (hs : p.SeesNumbered)
    (ha : p.Admits pre.length i) (hv : v ∈ i.inputs) (hblock : i.isBlock = false) :
    ∃ home, (f.declared i).homes.lookup v = some home ∧ home ∈ framesIn (p.outerBlocks i) := by
  have hdeclared := hf.declared hp hs ha
  have hvisible : v ∈ (p.after i).scopes.flatten := by
    rw [(Progress.flatten_scopes_after (hp.outerScopes_ne_nil ha.closes)).mem_iff]
    exact List.mem_append_right _ (ha.mem_outerScopes hv)
  have hblocks : (p.after i).blocks = p.outerBlocks i := by
    unfold Progress.after
    rw [Instruction.isBlock, Bool.or_eq_false_iff] at hblock
    simp [hblock.1]
  rw [← hblocks]
  exact hdeclared.homes.exists_home hvisible

theorem Finds.step (h : f.Finds is pre) (hf : f.Follows p) (hl : is.Located pre p)
    (hcheck : is.check = .ok ()) (his : is = pre ++ i :: rest) (ha : p.Admits pre.length i) :
    (f.step i).Finds is (pre ++ [i]) := by
  have hhomes := fun v => homes_declared (v := v) h hf hl hcheck his ha
  have hlisted (k : Nat) : (f.declared i).listed k = f.listed k := by
    unfold listed
    rw [found_declared]
  rw [step_eq]
  split
  · rename_i hassigns
    have hcurrent : (f.outer i).current = is.innermost (is.blocksAround i) := by
      rw [hl.frame_around hcheck his ha, current, (hf.outer ha).1]
    have hblock := isBlock_of_assigns hassigns
    obtain ⟨home, hlookup, -⟩ := exists_home_of_mem_inputs hf hl.balanced hl.numbered ha
      (input_zero_mem_inputs hassigns) hblock
    -- The target is listed where the code has it at home.
    have hlists (k : Nat) (home' : Option Nat) :
        (f.declared i).Lists (f.outer i).current (i.input 0) k home' ↔
          is.innermost (is.blocksAround i) = some k ∧ is.Home (i.input 0) home' ∧
            home' ≠ some k := by
      unfold Lists
      rw [hcurrent]
      refine and_congr_right fun _ => and_congr_left fun _ => ⟨hhomes _ home', fun hhome => ?_⟩
      rw [(hhomes _ home hlookup).unique hcheck hhome] at hlookup
      exact hlookup
    refine ⟨?_, ?_, ?_⟩
    · rw [homes_assign]
      exact hhomes
    · intro k v
      rw [mem_globals_assign, hlisted, h.globals, hlists, reassigns_append_singleton]
      constructor
      · rintro (⟨hhome, hold⟩ | ⟨rfl, hframe, hhome, -⟩)
        · exact ⟨hhome, .inl hold⟩
        · exact ⟨hhome, .inr ⟨hassigns, rfl, hframe⟩⟩
      · rintro ⟨hhome, hold | ⟨-, rfl, hframe⟩⟩
        · exact .inl ⟨hhome, hold⟩
        · exact .inr ⟨rfl, hframe, hhome, (Option.some_ne_none k).symm⟩
    · intro k v
      rw [mem_nonlocals_assign, hlisted, h.nonlocals, reassigns_append_singleton]
      simp only [hlists]
      constructor
      · rintro (⟨hhome, hold⟩ | ⟨rfl, m, hframe, hhome, hne⟩)
        · exact ⟨hhome, .inl hold⟩
        · exact ⟨⟨m, fun hm => hne (congrArg some hm), hhome⟩, .inr ⟨hassigns, rfl, hframe⟩⟩
      · rintro ⟨⟨m, hne, hhome⟩, hold | ⟨-, rfl, hframe⟩⟩
        · exact .inl ⟨⟨m, hne, hhome⟩, hold⟩
        · exact .inr ⟨rfl, m, hframe, hhome, fun hm => hne (Option.some.inj hm)⟩
  · rename_i hassigns
    refine ⟨hhomes, ?_, ?_⟩
    · intro k v
      rw [hlisted, h.globals, reassigns_append_singleton]
      simp [hassigns]
    · intro k v
      rw [hlisted, h.nonlocals, reassigns_append_singleton]
      simp [hassigns]

/-- Behind every start of checked code the check and the search agree. -/
theorem exists_finds (hcheck : is.check = .ok ()) (pre : Code) (his : is = pre ++ rest) :
    ∃ p q, is.Located pre p ∧ p.run pre.length rest = .ok q ∧
      (pre.foldl Frames.step {}).Follows p ∧ (pre.foldl Frames.step {}).Finds is pre := by
  induction pre using List.reverseRecOn generalizing rest with
  | nil =>
    obtain ⟨q, hrun, -⟩ := check_eq_ok_iff_run.mp hcheck
    rw [his] at hrun
    exact ⟨{}, q, located_start is, hrun, follows_start, finds_start is⟩
  | append_singleton pre i ih =>
    have his' : is = pre ++ i :: rest := by rw [his, List.append_assoc, List.singleton_append]
    obtain ⟨p, q, hl, hrun, hf, h⟩ := ih his'
    obtain ⟨ha, hrest⟩ := (Progress.run_cons_eq_ok_iff hl.balanced).mp hrun
    refine ⟨p.after i, q, hl.after his' ha, ?_, ?_, ?_⟩
    · rw [List.length_append]
      exact hrest
    · rw [List.foldl_append]
      exact hf.step hl.balanced hl.numbered ha
    · rw [List.foldl_append]
      exact h.step hf hl hcheck his' ha

end Frames

namespace Code

/-- What is listed for a function or method. -/
def outerAssignmentsOf (is : Code) (k : Nat) : OuterAssignments :=
  (is.outerAssignments.lookup k).getD {}

variable {is pre rest : Code} {p q : Progress} {i : Instruction} {v : Variable} {k m : Nat}

theorem finds_of_check (hcheck : is.check = .ok ()) : (is.foldl Frames.step {}).Finds is is := by
  obtain ⟨p, q, -, -, -, h⟩ := Frames.exists_finds hcheck is (List.append_nil is).symm
  exact h

theorem mem_globals_iff (hcheck : is.check = .ok ()) :
    v.number ∈ (is.outerAssignmentsOf k).globals ↔ is.Home v none ∧ is.Reassigns is k v :=
  (finds_of_check hcheck).globals k v

theorem exists_of_mem_framesIn {blocks : List Instruction} (h : some m ∈ framesIn blocks) :
    ∃ b ∈ blocks, b.index = m := by
  induction blocks with
  | nil => cases List.mem_singleton.mp h
  | cons b blocks ih =>
    have hrest (h : some m ∈ framesIn blocks) : ∃ b' ∈ b :: blocks, b'.index = m := by
      obtain ⟨b', hb', hindex⟩ := ih h
      exact ⟨b', List.mem_cons_of_mem _ hb', hindex⟩
    rw [framesIn] at h
    split at h
    · rcases List.mem_cons.mp h with h | h
      · exact ⟨b, List.mem_cons_self, (Option.some.inj h).symm⟩
      · exact hrest h
    · exact hrest h

theorem framesIn_of_module {blocks : List Instruction} (h : (framesIn blocks).headD none = none) :
    framesIn blocks = [none] := by
  induction blocks with
  | nil => rfl
  | cons b blocks ih =>
    rw [framesIn] at h ⊢
    split at h
    · cases h
    · rename_i hframe
      rw [if_neg hframe]
      exact ih h

theorem split_of_innermost {blocks : List Instruction} (h : (framesIn blocks).headD none = some k) :
    ∃ xs b rest, blocks = xs ++ b :: rest ∧ b.index = k ∧ framesIn blocks = some k :: framesIn rest := by
  induction blocks with
  | nil => cases h
  | cons b blocks ih =>
    rw [framesIn] at h ⊢
    split at h
    · rename_i hframe
      have hk : b.index = k := Option.some.inj h
      exact ⟨[], b, blocks, rfl, hk, by rw [if_pos hframe, hk]⟩
    · rename_i hframe
      obtain ⟨xs, b', rest, rfl, hk, hframes⟩ := ih h
      exact ⟨b :: xs, b', rest, rfl, hk, by rw [if_neg hframe, hframes]⟩

theorem eq_of_index_eq {j : Instruction} (hcheck : is.check = .ok ()) (hi : i ∈ is) (hj : j ∈ is)
    (h : i.index = j.index) : i = j := by
  have hget := Code.getElem?_index hcheck hi
  rw [h, Code.getElem?_index hcheck hj] at hget
  exact (Option.some.inj hget).symm

/-- Where what an instruction uses may be at home: in the innermost function or method, in the module,
or in a function or method around the innermost one. -/
inductive HomeAround (is : Code) (i : Instruction) : Option Nat → Prop where
  | own : HomeAround is i (is.innermost (is.blocksAround i))
  | module : HomeAround is i none
  | enclosing {j : Instruction} {m : Nat} (hj : j ∈ is)
    (hframe : is.innermost (is.blocksAround i) = some j.index) (hm : m ∈ is.blocksAround j) :
    HomeAround is i (some m)

theorem exists_home_of_mem_inputs (hcheck : is.check = .ok ()) (hi : i ∈ is) (hv : v ∈ i.inputs)
    (hblock : i.isBlock = false) : ∃ home, is.Home v home ∧ HomeAround is i home := by
  obtain ⟨pre, rest, his⟩ := List.append_of_mem hi
  obtain ⟨p, q, hl, hrun, hf, h⟩ := Frames.exists_finds hcheck pre his
  obtain ⟨ha, -⟩ := (Progress.run_cons_eq_ok_iff hl.balanced).mp hrun
  obtain ⟨home, hlookup, hmem⟩ :=
    Frames.exists_home_of_mem_inputs hf hl.balanced hl.numbered ha hv hblock
  refine ⟨home, Frames.homes_declared h hf hl hcheck his ha home hlookup, ?_⟩
  have hframe := hl.frame_around hcheck his ha
  have houter : p.outerBlocks i = p.blocks := by
    rw [Instruction.isBlock, Bool.or_eq_false_iff] at hblock
    unfold Progress.outerBlocks
    rw [hblock.2]
    rfl
  rw [houter] at hmem hframe
  cases home with
  | none => exact .module
  | some m =>
    cases hhead : (framesIn p.blocks).headD none with
    | none =>
      rw [framesIn_of_module hhead] at hmem
      cases List.mem_singleton.mp hmem
    | some k =>
      obtain ⟨xs, b, outer, hsplit, rfl, hframes⟩ := split_of_innermost hhead
      rw [hhead] at hframe
      rw [hframes] at hmem
      rcases List.mem_cons.mp hmem with hmem | hmem
      · rw [hmem, ← hframe]
        exact .own
      · have hb : b ∈ is := by
          rw [his]
          apply List.mem_append_left
          apply hl.mem
          rw [hsplit]
          exact List.mem_append_right _ List.mem_cons_self
        obtain ⟨b', hb', rfl⟩ := exists_of_mem_framesIn hmem
        refine .enclosing hb hframe ?_
        rw [← hl.nested xs b outer hsplit]
        exact List.mem_map_of_mem hb'

theorem ne_index_of_mem_blocksAround (hcheck : is.check = .ok ()) (hi : i ∈ is)
    (hm : m ∈ is.blocksAround i) : m ≠ i.index := by
  obtain ⟨pre, rest, his⟩ := List.append_of_mem hi
  obtain ⟨p, q, hl, hrun, -⟩ := Frames.exists_finds hcheck pre his
  obtain ⟨ha, -⟩ := (Progress.run_cons_eq_ok_iff hl.balanced).mp hrun
  rw [hl.blocksAround his ha] at hm
  obtain ⟨b, hb, rfl⟩ := List.mem_map.mp hm
  have hpre : b ∈ pre := by
    apply hl.mem
    unfold Progress.outerBlocks at hb
    split at hb
    · exact List.mem_of_mem_tail hb
    · exact hb
  have hget := (Progress.getElem?_index Progress.balanced_start hl.run hpre).2
  have hlt := (List.getElem?_eq_some_iff.mp hget).1
  rw [ha.index]
  exact Nat.ne_of_lt hlt

theorem mem_nonlocals_iff (hcheck : is.check = .ok ()) (hi : i ∈ is) :
    v.number ∈ (is.outerAssignmentsOf i.index).nonlocals ↔
      (∃ m ∈ is.blocksAround i, is.Home v (some m)) ∧ is.Reassigns is i.index v := by
  rw [show v.number ∈ (is.outerAssignmentsOf i.index).nonlocals ↔ _ from
    (finds_of_check hcheck).nonlocals i.index v]
  refine and_congr_left fun hreassigns => ?_
  constructor
  · rintro ⟨m, hne, hhome⟩
    obtain ⟨j, hj, hassigns, rfl, hframe⟩ := hreassigns
    obtain ⟨home, hhome', haround⟩ := exists_home_of_mem_inputs hcheck hj
      (input_zero_mem_inputs hassigns) (isBlock_of_assigns hassigns)
    cases hhome'.unique hcheck hhome
    generalize hsome : some m = home at haround
    cases haround with
    | own =>
      rw [hframe] at hsome
      exact absurd (Option.some.inj hsome) hne
    | module => cases hsome
    | @enclosing j' m' hj' hframe' hm' =>
      cases hsome
      rw [hframe] at hframe'
      rw [← eq_of_index_eq hcheck hi hj' (Option.some.inj hframe')] at hm'
      exact ⟨m, hm', hhome⟩
  · rintro ⟨m, hm, hhome⟩
    exact ⟨m, ne_index_of_mem_blocksAround hcheck hi hm, hhome⟩

/-- The innermost function or method is a function or method. -/
theorem exists_of_innermost (hcheck : is.check = .ok ()) {blocks : List Nat}
    (h : is.innermost blocks = some k) : ∃ j ∈ is, j.index = k ∧ j.op.opensFrame = true := by
  have hframe := List.find?_some h
  cases hj : is[k]? with
  | none =>
    rw [hj] at hframe
    cases hframe
  | some j =>
    rw [hj] at hframe
    exact ⟨j, List.mem_of_getElem? hj, Code.index_eq hcheck hj, hframe⟩

/-- What an instruction assigns to is at home in its innermost function or method, or it is listed for
that. -/
theorem home_or_listed (hcheck : is.check = .ok ()) (hi : i ∈ is) (hassigns : i.op.assigns = true) :
    is.Home (i.input 0) (is.innermost (is.blocksAround i)) ∨
      ∃ j ∈ is, is.innermost (is.blocksAround i) = some j.index ∧
        i.input 0 ∈ (is.outerAssignmentsOf j.index).variables := by
  obtain ⟨home, hhome, haround⟩ := exists_home_of_mem_inputs hcheck hi
    (input_zero_mem_inputs hassigns) (isBlock_of_assigns hassigns)
  cases haround with
  | own => exact .inl hhome
  | module =>
    cases hframe : is.innermost (is.blocksAround i) with
    | none => exact .inl hhome
    | some k =>
      obtain ⟨j, hj, rfl, -⟩ := exists_of_innermost hcheck hframe
      refine .inr ⟨j, hj, rfl, OuterAssignments.mem_variables.mpr (.inl ?_)⟩
      exact (mem_globals_iff hcheck).mpr ⟨hhome, i, hi, hassigns, rfl, hframe⟩
  | enclosing hj hframe hm =>
    refine .inr ⟨_, hj, hframe, OuterAssignments.mem_variables.mpr (.inr ?_)⟩
    exact (mem_nonlocals_iff hcheck hj).mpr ⟨⟨_, hm, hhome⟩, i, hi, hassigns, rfl, hframe⟩

end Code

end ScriptFuzz
