import ScriptFuzz.Proofs.Code.Scopes
import ScriptFuzz.Proofs.Ordered
import ScriptFuzz.Python.Scope

/-!
# Assignments to outer variables

The search for assignments to outer variables goes along with the check: its frames are the functions and
methods among the open blocks (`Frames.Follows`). So what a function or method is said to assign outside
of itself is visible where it starts (`Code.around_of_outerAssignments`).
-/

namespace ScriptFuzz

set_option autoImplicit false

open Code

/-- The frames around a place in open blocks, innermost first. -/
def framesIn : List Instruction → List (Option Nat)
  | [] => [none]
  | i :: is => if i.op.opensFrame then some i.index :: framesIn is else framesIn is

/-- Each variable was declared in the frame around its scope. -/
def AtHome (homes : List (Variable × Option Nat)) : List (List Variable) → List Instruction → Prop
  | [], _ => True
  | scope :: scopes, blocks =>
    (∀ v ∈ scope, homes.lookup v = some ((framesIn blocks).headD none)) ∧
      AtHome homes scopes blocks.tail

/-- The variables that a body assigns to and that are declared elsewhere. -/
def OuterAssignments.variables (o : OuterAssignments) : List Variable :=
  (o.globals ++ o.nonlocals).map Variable.mk

theorem OuterAssignments.mem_variables {o : OuterAssignments} {v : Variable} :
    v ∈ o.variables ↔ v.number ∈ o.globals ∨ v.number ∈ o.nonlocals := by
  unfold OuterAssignments.variables
  rw [List.mem_map, ← List.mem_append]
  constructor
  · rintro ⟨n, hn, rfl⟩
    exact hn
  · exact fun h => ⟨v.number, h, rfl⟩

theorem OuterAssignments.mem_insert_globals {o : OuterAssignments} {v w : Variable}
    (h : v ∈ OuterAssignments.variables { o with globals := Ordered.insert w.number o.globals }) :
    v = w ∨ v ∈ o.variables := by
  rw [mem_variables] at h ⊢
  rw [Ordered.mem_insert] at h
  rcases h with (h | h) | h
  · exact .inl (congrArg Variable.mk h)
  · exact .inr (.inl h)
  · exact .inr (.inr h)

theorem OuterAssignments.mem_insert_nonlocals {o : OuterAssignments} {v w : Variable}
    (h : v ∈ OuterAssignments.variables
      { o with nonlocals := Ordered.insert w.number o.nonlocals }) :
    v = w ∨ v ∈ o.variables := by
  rw [mem_variables] at h ⊢
  rw [Ordered.mem_insert] at h
  rcases h with h | h | h
  · exact .inr (.inl h)
  · exact .inl (congrArg Variable.mk h)
  · exact .inr (.inr h)

section

variable {homes : List (Variable × Option Nat)} {scopes : List (List Variable)}
  {blocks : List Instruction} {vs : List Variable} {v : Variable} {frame : Option Nat}

theorem lookup_of_mem (hv : v ∈ vs) :
    ((vs.map fun v => (v, frame)).reverse ++ homes).lookup v = some frame := by
  have h : ((vs.map fun v => (v, frame)).reverse).lookup v = some frame := by
    cases hlookup : ((vs.map fun v => (v, frame)).reverse).lookup v with
    | none =>
      have := List.lookup_eq_none_iff.mp hlookup (v, frame) (by simpa using hv)
      simp at this
    | some home =>
      obtain ⟨before, after, hsplit, -⟩ := List.lookup_eq_some_iff.mp hlookup
      have hmem : (v, home) ∈ (vs.map fun v => (v, frame)).reverse := by
        rw [hsplit]
        exact List.mem_append_right _ List.mem_cons_self
      obtain ⟨w, -, hw⟩ := List.mem_map.mp (List.mem_reverse.mp hmem)
      rw [(Prod.mk.inj hw).2]
  rw [List.lookup_append, h]
  rfl

theorem lookup_of_not_mem (hv : v ∉ vs) :
    ((vs.map fun v => (v, frame)).reverse ++ homes).lookup v = homes.lookup v := by
  have h : ((vs.map fun v => (v, frame)).reverse).lookup v = none := by
    rw [List.lookup_eq_none_iff]
    intro x hx
    obtain ⟨w, hw, rfl⟩ := List.mem_map.mp (List.mem_reverse.mp hx)
    rw [bne_iff_ne]
    rintro rfl
    exact hv hw
  rw [List.lookup_append, h]
  rfl

/-- Declaring other variables moves none. -/
theorem AtHome.declare (h : AtHome homes scopes blocks) (hvs : ∀ v ∈ vs, v ∉ scopes.flatten)
    (frame : Option Nat) :
    AtHome ((vs.map fun v => (v, frame)).reverse ++ homes) scopes blocks := by
  induction scopes generalizing blocks with
  | nil => trivial
  | cons scope scopes ih =>
    refine ⟨?_, ih h.2 fun v hv hin => hvs v hv (List.mem_append_right _ hin)⟩
    intro v hv
    rw [lookup_of_not_mem fun hin => hvs v hin (List.mem_append_left _ hv)]
    exact h.1 v hv

/-- A visible variable that was not declared in the innermost function or method is visible around it. -/
theorem AtHome.exists_outside (h : AtHome homes scopes blocks) (hv : v ∈ scopes.flatten)
    {position : Nat} (hframe : (framesIn blocks).headD none = some position)
    (hhome : homes.lookup v ≠ some (some position)) :
    ∃ x ∈ Progress.outsides blocks scopes, x.1.index = position ∧ v ∈ x.2 := by
  induction blocks generalizing scopes with
  | nil => cases hframe
  | cons i is ih =>
    cases scopes with
    | nil => cases hv
    | cons scope scopes =>
      have hrest : v ∈ scopes.flatten := by
        rcases List.mem_append.mp hv with hv | hv
        · rw [h.1 v hv, hframe] at hhome
          exact absurd rfl hhome
        · exact hv
      rw [framesIn] at hframe
      split at hframe
      · exact ⟨(i, scopes.flatten), List.mem_cons_self, Option.some.inj hframe, hrest⟩
      · obtain ⟨x, hx, hindex, hmem⟩ := ih h.2 hrest hframe
        exact ⟨x, List.mem_cons_of_mem _ hx, hindex, hmem⟩

end

namespace Frames

variable {f : Frames} {p q : Progress} {n : Nat} {i : Instruction} {frame : Option Nat}
  {v target : Variable}

/-- The search and the check have read the same code. -/
structure Follows (f : Frames) (p : Progress) : Prop where
  frames : f.frames = framesIn p.blocks
  blocks : f.blocks = p.blocks.map (·.op.opensFrame)
  homes : AtHome f.homes p.scopes p.blocks

theorem follows_start : Follows {} {} := ⟨rfl, rfl, by simp [AtHome]⟩

theorem frames_assign : (f.assign frame target).frames = f.frames := by
  unfold assign
  split
  · dsimp only
    split <;> rfl
  · rfl

theorem blocks_assign : (f.assign frame target).blocks = f.blocks := by
  unfold assign
  split
  · dsimp only
    split <;> rfl
  · rfl

theorem homes_assign : (f.assign frame target).homes = f.homes := by
  unfold assign
  split
  · dsimp only
    split <;> rfl
  · rfl

/-- The search once the block that `i` ends is left. -/
def outer (f : Frames) (i : Instruction) : Frames := if i.isBlockEnd then f.leave else f

theorem homes_outer : (f.outer i).homes = f.homes := by
  unfold outer leave
  split
  · split <;> rfl
  · rfl

theorem found_outer : (f.outer i).found = f.found := by
  unfold outer leave
  split
  · split <;> rfl
  · rfl

theorem Follows.outer (h : f.Follows p) (ha : p.Admits n i) :
    (f.outer i).frames = framesIn (p.outerBlocks i) ∧
      (f.outer i).blocks = (p.outerBlocks i).map (·.op.opensFrame) := by
  unfold Frames.outer Progress.outerBlocks
  split
  · rename_i he
    obtain ⟨opener, rest, hb, -⟩ := ha.closes he
    have hframes := h.frames
    have hblocks := h.blocks
    rw [hb] at hframes hblocks ⊢
    have hleave : f.leave = { f with
        blocks := rest.map (·.op.opensFrame)
        frames := if opener.op.opensFrame then f.frames.tail else f.frames } := by
      unfold leave
      rw [hblocks]
      rfl
    rw [hleave]
    refine ⟨?_, rfl⟩
    dsimp only
    rw [hframes, framesIn]
    split <;> rfl
  · exact ⟨h.frames, h.blocks⟩

theorem Follows.homes_outer (h : f.Follows p) :
    AtHome f.homes (p.outerScopes i) (p.outerBlocks i) := by
  have hhomes := h.homes
  unfold Progress.outerScopes Progress.outerBlocks
  split
  · cases hs : p.scopes with
    | nil => trivial
    | cons s scopes =>
      rw [hs] at hhomes
      exact hhomes.2
  · exact hhomes

/-- The search before it looks for an assignment. -/
def declared (f : Frames) (i : Instruction) : Frames :=
  let f := (f.outer i).declare i.outputs
  if i.isBlockStart then (f.enter i).declare i.innerOutputs else f

theorem step_eq : f.step i =
    if i.op.assigns then (f.declared i).assign (f.outer i).current (i.input 0) else f.declared i := rfl

theorem found_declared : (f.declared i).found = f.found := by
  rw [← f.found_outer (i := i)]
  unfold declared
  dsimp only
  split <;> rfl

theorem Follows.declared (h : f.Follows p) (hp : p.Balanced) (hs : p.SeesNumbered)
    (ha : p.Admits n i) : (f.declared i).Follows (p.after i) := by
  obtain ⟨hframes, hblocks⟩ := h.outer ha
  have hnew (v : Variable) (hv : v ∈ i.outputs) : v ∉ (p.outerScopes i).flatten :=
    ha.not_mem_outerScopes hs (List.mem_of_mem_take hv)
  -- What is declared in the block around the instruction.
  have houter : AtHome ((i.outputs.map fun v => (v, (f.outer i).current)).reverse ++ f.homes)
      (((p.outerScopes i).headD [] ++ i.outputs) :: (p.outerScopes i).tail) (p.outerBlocks i) := by
    have hhomes := (h.homes_outer (i := i)).declare hnew (f.outer i).current
    obtain ⟨s, scopes, ho⟩ := List.exists_cons_of_ne_nil (hp.outerScopes_ne_nil ha.closes)
    rw [ho] at hhomes ⊢
    refine ⟨?_, hhomes.2⟩
    intro v hv
    rcases List.mem_append.mp hv with hv | hv
    · exact hhomes.1 v hv
    · rw [lookup_of_mem hv, current, hframes]
  rw [← f.homes_outer (i := i)] at houter
  unfold Frames.declared Progress.after
  dsimp only
  split
  · refine ⟨?_, ?_, ?_⟩
    · change (if i.op.opensFrame then some i.index :: (f.outer i).frames else (f.outer i).frames) = _
      rw [hframes]
      rfl
    · change i.op.opensFrame :: (f.outer i).blocks = _
      rw [hblocks]
      rfl
    · refine ⟨?_, houter.declare (fun _ => ha.not_mem_around hp hs) _⟩
      intro v hv
      change ((i.innerOutputs.map fun v => (v, _)).reverse ++ _).lookup v = _
      rw [lookup_of_mem hv]
      change some ((if i.op.opensFrame then some i.index :: (f.outer i).frames
        else (f.outer i).frames).headD none) = _
      rw [hframes]
      rfl
  · exact ⟨hframes, hblocks, houter⟩

theorem Follows.step (h : f.Follows p) (hp : p.Balanced) (hs : p.SeesNumbered)
    (ha : p.Admits n i) : (f.step i).Follows (p.after i) := by
  have hdeclared := h.declared hp hs ha
  rw [step_eq]
  split
  · refine ⟨frames_assign.trans hdeclared.frames, blocks_assign.trans hdeclared.blocks, ?_⟩
    rw [homes_assign]
    exact hdeclared.homes
  · exact hdeclared

/-- An assignment adds its target, for the frame that makes it, if the target is declared elsewhere. -/
theorem of_lookup_assign {position : Nat} {o : OuterAssignments}
    (h : (f.assign frame target).found.lookup position = some o) (hv : v ∈ o.variables) :
    (∃ o', f.found.lookup position = some o' ∧ v ∈ o'.variables) ∨
      v = target ∧ frame = some position ∧
        ∃ home, f.homes.lookup target = some home ∧ home ≠ some position := by
  unfold assign at h
  split at h
  · rename_i k home hhome
    dsimp only at h
    split at h
    · exact .inl ⟨o, h, hv⟩
    · rename_i hne
      by_cases hk : position = k
      · subst hk
        rw [Ordered.lookup_put] at h
        cases h
        have hcases : v = target ∨ v ∈ ((f.found.lookup position).getD {}).variables := by
          split at hv
          · exact OuterAssignments.mem_insert_globals hv
          · exact OuterAssignments.mem_insert_nonlocals hv
        rcases hcases with rfl | hold
        · exact .inr ⟨rfl, rfl, home, hhome, hne⟩
        · cases hfound : f.found.lookup position with
          | none =>
            rw [hfound] at hold
            cases hold
          | some o' =>
            rw [hfound] at hold
            exact .inl ⟨o', rfl, hold⟩
      · rw [Ordered.lookup_put_of_ne hk] at h
        exact .inl ⟨o, h, hv⟩
  · exact .inl ⟨o, h, hv⟩

/-- Around the block at position `k` the variables `vs` are visible, and the search has found only those
of them for the block, as targets of assignments. -/
structure Confirms (c : Code) (k : Nat) (vs : List Variable) (f : Frames) (p : Progress) : Prop where
  outside : ∀ x ∈ Progress.outsides p.blocks p.scopes, x.1.index = k → x.2 = vs
  found : ∀ o, f.found.lookup k = some o → ∀ v ∈ o.variables,
    v ∈ vs ∧ ∃ i ∈ c, i.op.assigns = true ∧ i.input 0 = v

theorem confirms_start (c : Code) (k : Nat) (vs : List Variable) : Confirms c k vs {} {} := by
  constructor
  · intro x hx
    cases hx
  · intro o ho
    cases ho

variable {c is pre : Code} {k : Nat} {vs : List Variable}

theorem Confirms.step (h : Confirms c k vs f p) (hf : f.Follows p) (hp : p.Balanced)
    (hs : p.SeesNumbered) (ha : p.Admits n i) (hi : i ∈ c)
    (hstart : i.isBlockStart = true → i.index = k → p.around i = vs) :
    Confirms c k vs (f.step i) (p.after i) := by
  have houtside : ∀ x ∈ Progress.outsides (p.after i).blocks (p.after i).scopes,
      x.1.index = k → x.2 = vs := by
    intro x hx hk
    rw [Progress.outsides_after hp ha] at hx
    rcases List.mem_append.mp hx with hx | hx
    · split at hx
      · rename_i hblock
        rw [List.mem_singleton.mp hx] at hk ⊢
        exact hstart hblock hk
      · cases hx
    · split at hx
      · exact h.outside x (List.mem_of_mem_tail hx) hk
      · exact h.outside x hx hk
  refine ⟨houtside, ?_⟩
  intro o ho v hv
  rw [step_eq] at ho
  split at ho
  · rename_i hassigns
    rcases of_lookup_assign ho hv with ⟨o', ho', hv'⟩ | ⟨rfl, hframe, home, hhome, hne⟩
    · rw [found_declared] at ho'
      exact h.found o' ho' v hv'
    · have hblock := Code.not_isBlock_of_assigns hassigns
      have hdeclared := hf.declared hp hs ha
      have hvisible : i.input 0 ∈ (p.after i).scopes.flatten := by
        rw [(Progress.flatten_scopes_after (hp.outerScopes_ne_nil ha.closes)).mem_iff]
        exact List.mem_append_right _ (ha.mem_outerScopes (Code.input_zero_mem_inputs hassigns))
      have hcurrent : (framesIn (p.after i).blocks).headD none = some k := by
        have hblocks : (p.after i).blocks = p.outerBlocks i := by
          unfold Progress.after
          simp [hblock.1]
        rw [hblocks, ← (hf.outer ha).1]
        exact hframe
      obtain ⟨x, hx, hk, hmem⟩ := hdeclared.homes.exists_outside hvisible hcurrent
        (by rw [hhome]; exact fun h => hne (Option.some.inj h))
      rw [houtside x hx hk] at hmem
      exact ⟨hmem, i, hi, hassigns, rfl⟩
  · rw [found_declared] at ho
    exact h.found o ho v hv

theorem confirms_run (pre : Code) (hc : c = pre ++ is) (hpre : ({} : Progress).run 0 pre = .ok p)
    (hp : p.Balanced) (hs : p.SeesNumbered) (hrun : p.run pre.length is = .ok q)
    (hf : f.Follows p) (h : Confirms c k vs f p)
    (hstart : ∀ a i b p, c = a ++ i :: b → ({} : Progress).run 0 a = .ok p →
      i.isBlockStart = true → i.index = k → p.around i = vs) :
    Confirms c k vs (is.foldl Frames.step f) q := by
  induction is generalizing pre f p with
  | nil =>
    cases hrun
    exact h
  | cons i is ih =>
    obtain ⟨ha, hrest⟩ := (Progress.run_cons_eq_ok_iff hp).mp hrun
    have hi : i ∈ c := by
      rw [hc]
      exact List.mem_append_right _ List.mem_cons_self
    have hpre' : ({} : Progress).run 0 (pre ++ [i]) = .ok (p.after i) := by
      rw [Progress.run_append_eq_ok_iff]
      refine ⟨p, hpre, (Progress.run_cons_eq_ok_iff hp).mpr ⟨?_, rfl⟩⟩
      rw [Nat.zero_add]
      exact ha
    refine ih (pre ++ [i]) (by rw [hc, List.append_assoc]; rfl) hpre' (hp.after ha)
      (hs.after ha) ?_ (hf.step hp hs ha)
      (h.step hf hp hs ha hi fun hblock hk => hstart pre i is p hc hpre hblock hk)
    rw [List.length_append]
    exact hrest

end Frames

/-- What a function or method is said to assign outside of itself is visible around it, and something
assigns to it. -/
theorem Code.around_of_outerAssignments {c a b : Code} {i : Instruction} {p q : Progress}
    {o : OuterAssignments} {v : Variable} (hrun : ({} : Progress).run 0 c = .ok q)
    (hc : c = a ++ i :: b) (hp : ({} : Progress).run 0 a = .ok p)
    (ho : c.outerAssignments.lookup i.index = some o) (hv : v ∈ o.variables) :
    v ∈ p.around i ∧ ∃ j ∈ c, j.op.assigns = true ∧ j.input 0 = v := by
  have hindex {a' b' : Code} {i' : Instruction} (hc' : c = a' ++ i' :: b') :
      i'.index = a'.length := by
    have hget : (a' ++ i' :: b')[a'.length]? = some i' := by
      rw [List.getElem?_append_right (Nat.le_refl _), Nat.sub_self]
      rfl
    rw [← hc'] at hget
    rw [Progress.index_of_getElem? Progress.balanced_start hrun hget, Nat.zero_add]
  refine (Frames.confirms_run [] rfl rfl Progress.balanced_start
    Progress.seesNumbered_start hrun Frames.follows_start
    (Frames.confirms_start c i.index (p.around i)) ?_).found o ho v hv
  intro a' i' b' p' hc' hp' _ hk
  rw [hindex hc, hindex hc'] at hk
  obtain ⟨rfl, hrest⟩ := List.append_inj (hc'.symm.trans hc) hk
  rw [(List.cons.inj hrest).1, Except.ok.inj (hp'.symm.trans hp)]

end ScriptFuzz
