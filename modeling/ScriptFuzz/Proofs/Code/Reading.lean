import ScriptFuzz.Code.Check

/-!
# What the check demands of one instruction

`Progress.Admits` is all that the check demands of the next instruction, and `Progress.after` is what
is known once the instruction is read. `step_eq_ok_iff` says that the check does exactly this, so no
later proof opens `Progress.step` again.
-/

namespace ScriptFuzz

set_option autoImplicit false

open Code

/-- The pairs of an end and a start of blocks that belong together. -/
inductive Operation.Closes : Operation → Operation → Prop where
  | function (n : Nat) : Closes .endPlainFunction (.beginPlainFunction n)
  | otherwise (inverted : Bool) : Closes .beginElse (.beginIf inverted)
  | conditional (inverted : Bool) : Closes .endIf (.beginIf inverted)
  | alternative : Closes .endIf .beginElse
  | whileLoop (comparator : Comparator) : Closes .endWhileLoop (.beginWhileLoop comparator)
  | forLoop : Closes .endForLoop .beginForLoop
  | tryCatch : Closes .beginCatch .beginTry
  | tryFinally : Closes .beginFinally .beginTry
  | catchFinally : Closes .beginFinally .beginCatch
  | catchEnd : Closes .endTryCatchFinally .beginCatch
  | finallyEnd : Closes .endTryCatchFinally .beginFinally
  | switchCase : Closes .endSwitchCase .beginSwitchCase
  | defaultCase : Closes .endSwitchCase .beginSwitchDefaultCase
  | switch : Closes .endSwitch .beginSwitch
  | method (name : String) (n : Nat) : Closes .endClassMethod (.beginClassMethod name n)
  | classDefinition (superclass : Bool) :
      Closes .endClassDefinition (.beginClassDefinition superclass)

theorem Operation.closes_iff {op opener : Operation} :
    op.closes opener = true ↔ op.Closes opener := by
  constructor
  · intro h
    unfold closes at h
    split at h <;> first | constructor | cases h
  · intro h
    cases h <;> rfl

theorem Operation.requires_eq (op : Operation) : op.shape.requires =
    match op with
    | .endPlainFunction | .beginElse | .endIf | .endWhileLoop | .endForLoop | .beginCatch
    | .beginFinally | .endTryCatchFinally | .endSwitchCase | .endClassMethod => .empty
    | .ret => .ofList [.script, .subroutine]
    | .loopBreak | .loopContinue => .ofList [.script, .loop]
    | .beginSwitchCase | .beginSwitchDefaultCase | .endSwitch => .ofList [.switchBlock]
    | .beginClassMethod _ _ | .endClassDefinition => .ofList [.classDefinition]
    | _ => .top := by
  cases op <;> rfl

theorem Operation.opens_eq (op : Operation) : op.shape.opens =
    match op with
    | .beginPlainFunction _ => .ofList [.script, .subroutine]
    | .beginWhileLoop _ | .beginForLoop => .ofList [.loop]
    | .beginSwitch => .ofList [.switchBlock]
    | .beginSwitchCase | .beginSwitchDefaultCase => .ofList [.switchCase]
    | .beginClassDefinition _ => .ofList [.classDefinition]
    | .beginClassMethod _ _ => .ofList [.script, .subroutine, .method]
    | _ => .empty := by
  cases op <;> rfl

/-- How the context of the body that an operation opens is found. -/
theorem Operation.mode_eq (op : Operation) : op.shape.mode =
    match op with
    | .beginPlainFunction _ | .beginSwitch | .beginClassDefinition _ | .beginClassMethod _ _ =>
      .isolate
    | .beginSwitchCase | .beginSwitchDefaultCase => .resume
    | _ => .propagate := by
  cases op <;> rfl

theorem Context.contains_eq (a b : Context) : a.contains b =
    ((!b.script || a.script) && (!b.subroutine || a.subroutine) && (!b.method || a.method) &&
      (!b.loop || a.loop) && (!b.classDefinition || a.classDefinition) &&
      (!b.switchBlock || a.switchBlock) && (!b.switchCase || a.switchCase)) := by
  simp [contains, Capability.all, has, Bool.and_assoc]

namespace Instruction

theorem isBlockStart_eq (i : Instruction) : i.isBlockStart =
    match i.op with
    | .beginPlainFunction _ | .beginIf _ | .beginElse | .beginWhileLoop _ | .beginForLoop
    | .beginTry | .beginCatch | .beginFinally | .beginSwitch | .beginSwitchCase
    | .beginSwitchDefaultCase | .beginClassDefinition _ | .beginClassMethod _ _ => true
    | _ => false := by
  unfold isBlockStart has shape
  cases i.op <;> rfl

theorem isBlockEnd_eq (i : Instruction) : i.isBlockEnd =
    match i.op with
    | .endPlainFunction | .beginElse | .endIf | .endWhileLoop | .endForLoop | .beginCatch
    | .beginFinally | .endTryCatchFinally | .endSwitchCase | .endSwitch | .endClassMethod
    | .endClassDefinition => true
    | _ => false := by
  unfold isBlockEnd has shape
  cases i.op <;> rfl

theorem outputs_append_innerOutputs (i : Instruction) :
    i.outputs ++ i.innerOutputs = i.allOutputs := List.take_append_drop _ _

theorem inputs_append_allOutputs (i : Instruction) : i.inputs ++ i.allOutputs = i.inouts :=
  List.take_append_drop _ _

theorem inputs_eq_nil {i : Instruction} (h : i.op.shape.inputs = 0) : i.inputs = [] :=
  List.eq_nil_of_length_eq_zero (i.length_inputs.trans h)

theorem outputs_eq_nil {i : Instruction} (h : i.op.shape.outputs = 0) : i.outputs = [] :=
  List.eq_nil_of_length_eq_zero (i.length_outputs.trans h)

theorem innerOutputs_eq_nil_of_shape {i : Instruction} (h : i.op.shape.innerOutputs = 0) :
    i.innerOutputs = [] :=
  List.eq_nil_of_length_eq_zero (i.length_innerOutputs.trans h)

theorem isBlockEnd_of_closes {i : Instruction} {opener : Operation} (h : i.op.Closes opener) :
    i.isBlockEnd = true := by
  rw [isBlockEnd_eq]
  generalize i.op = op at h ⊢
  cases h <;> rfl

/-- Only the start of a block declares variables for a body. -/
theorem innerOutputs_eq_nil {i : Instruction} (h : i.isBlockStart = false) :
    i.innerOutputs = [] := by
  apply List.eq_nil_of_length_eq_zero
  rw [length_innerOutputs]
  rw [isBlockStart_eq] at h
  unfold shape
  cases hop : i.op <;> first | rfl | simp [hop] at h

end Instruction

namespace Code.Progress

theorem isVisible_iff {p : Progress} {v : Variable} :
    p.isVisible v = true ↔ ∃ s ∈ p.scopes, v ∈ s := by
  simp [isVisible, List.any_eq_true]

/-- The scopes once the block that `i` ends is left. -/
def outerScopes (p : Progress) (i : Instruction) : List (List Variable) :=
  if i.isBlockEnd then p.scopes.tail else p.scopes

/-- The contexts once the block that `i` ends is left. -/
def outerContexts (p : Progress) (i : Instruction) : List Context :=
  if i.isBlockEnd then p.contexts.tail else p.contexts

/-- The open blocks once the block that `i` ends is left. -/
def outerBlocks (p : Progress) (i : Instruction) : List Instruction :=
  if i.isBlockEnd then p.blocks.tail else p.blocks

/-- Which open switches have had their default case after `i`. -/
def defaultsAfter (p : Progress) (i : Instruction) : List Bool :=
  match i.op with
  | .beginSwitch => false :: p.defaults
  | .beginSwitchDefaultCase => true :: p.defaults.tail
  | .endSwitch => p.defaults.tail
  | _ => p.defaults

/-- What is known once `i` is read. -/
def after (p : Progress) (i : Instruction) : Progress :=
  let scopes := ((p.outerScopes i).headD [] ++ i.outputs) :: (p.outerScopes i).tail
  { next := p.next + i.allOutputs.length
    scopes := if i.isBlockStart then i.innerOutputs :: scopes else scopes
    contexts :=
      if i.isBlockStart then
        i.shape.mode.body (p.outerContexts i) i.shape.opens :: p.outerContexts i
      else p.outerContexts i
    blocks := if i.isBlockStart then i :: p.outerBlocks i else p.outerBlocks i
    defaults := p.defaultsAfter i }

/-- All that is demanded of the instruction at position `n`. -/
structure Admits (p : Progress) (n : Nat) (i : Instruction) : Prop where
  index : i.index = n
  visible : ∀ v ∈ i.inputs, p.isVisible v = true
  context : p.context.contains i.shape.requires = true
  closes : i.isBlockEnd = true → ∃ opener rest, p.blocks = opener :: rest ∧
    i.op.closes opener.op = true
  undefaulted : i.op = .beginSwitchCase ∨ i.op = .beginSwitchDefaultCase →
    p.defaults.head? = some false
  numbered : i.allOutputs.map Variable.number = List.range' p.next i.allOutputs.length
  bounded : i.allOutputs ≠ [] → p.next + i.allOutputs.length < Variable.limit

/-- There is one scope and one context more than there are open blocks. -/
structure Balanced (p : Progress) : Prop where
  scopes : p.scopes.length = p.blocks.length + 1
  contexts : p.contexts.length = p.blocks.length + 1

theorem balanced_start : Balanced {} := ⟨rfl, rfl⟩

theorem flaw?_eq_none_iff {p : Progress} {n : Nat} {i : Instruction} :
    p.flaw? n i = none ↔ i.index = n ∧ (∀ v ∈ i.inputs, p.isVisible v = true) ∧
      p.context.contains i.shape.requires = true := by
  unfold flaw?
  split
  · rename_i h
    constructor
    · intro hn
      cases hn
    · intro hn
      exact absurd hn.1 h
  · rename_i h
    have hi : i.index = n := Decidable.of_not_not h
    cases hv : i.inputs.find? fun v => !p.isVisible v with
    | some v =>
      have hm := List.mem_of_find?_eq_some hv
      have hb := List.find?_some hv
      simp only [reduceCtorEq, false_iff]
      rintro ⟨_, hvis, _⟩
      simp [hvis v hm] at hb
    | none =>
      have hvis : ∀ v ∈ i.inputs, p.isVisible v = true := by
        simpa using List.find?_eq_none.mp hv
      simp only [hi, true_and]
      constructor
      · intro hn
        refine ⟨hvis, ?_⟩
        split at hn
        · assumption
        · cases hn
      · rintro ⟨_, hc⟩
        rw [if_pos hc]

theorem close_eq_ok_iff {p q : Progress} {i : Instruction} :
    p.close i = .ok q ↔
      (i.isBlockEnd = true → ∃ opener rest, p.blocks = opener :: rest ∧
        i.op.closes opener.op = true) ∧
      q = { p with
        scopes := p.outerScopes i, contexts := p.outerContexts i, blocks := p.outerBlocks i
        defaults := if i.op = .endSwitch then p.defaults.tail else p.defaults } := by
  unfold close outerScopes outerContexts outerBlocks
  cases he : i.isBlockEnd with
  | false =>
    have hs : i.op ≠ .endSwitch := by
      intro hop
      simp [Instruction.isBlockEnd_eq, hop] at he
    simp only [Bool.not_false, if_true, Bool.false_eq_true, false_implies, if_false, hs,
      true_and, Except.ok.injEq]
    exact eq_comm
  | true =>
    cases hb : p.blocks with
    | nil => simp
    | cons opener rest =>
      by_cases hc : i.op.closes opener.op = true
      · simp only [Bool.not_true, Bool.false_eq_true, if_false, hc, if_true, Except.ok.injEq,
          List.tail_cons, forall_const]
        constructor
        · rintro rfl
          exact ⟨⟨opener, rest, rfl, hc⟩, rfl⟩
        · rintro ⟨_, rfl⟩
          rfl
      · simp [hc]

theorem countCase_eq_ok_iff {p q : Progress} {i : Instruction} :
    p.countCase i = .ok q ↔
      (i.op = .beginSwitchCase ∨ i.op = .beginSwitchDefaultCase →
        p.defaults.head? = some false) ∧
      q = { p with
        defaults :=
          match i.op with
          | .beginSwitch => false :: p.defaults
          | .beginSwitchDefaultCase => true :: p.defaults.tail
          | _ => p.defaults } := by
  obtain ⟨next, scopes, contexts, blocks, defaults⟩ := p
  rw [eq_comm (a := q)]
  cases hop : i.op <;> cases defaults with
  | nil => simp [countCase, hop]
  | cons d ds => cases d <;> simp [countCase, hop]

theorem declare_eq_ok_iff {p q : Progress} {n : Nat} {vs : List Variable} {s : List Variable}
    {ss : List (List Variable)} (hs : p.scopes = s :: ss) :
    p.declare n vs = .ok q ↔
      vs.map Variable.number = List.range' p.next vs.length ∧
      (vs ≠ [] → p.next + vs.length < Variable.limit) ∧
      q = { p with next := p.next + vs.length, scopes := (s ++ vs) :: ss } := by
  induction vs generalizing p s with
  | nil =>
    obtain ⟨next, scopes, contexts, blocks, defaults⟩ := p
    simp only at hs
    rw [eq_comm (a := q)]
    simp [declare, hs]
  | cons v vs ih =>
    simp only [declare, hs, List.headD_cons, List.tail_cons]
    split
    · rename_i h
      simp only [reduceCtorEq, List.map_cons, List.length_cons, List.range'_succ, List.cons.injEq,
        false_iff]
      exact fun ⟨hnum, _⟩ => h hnum.1
    rename_i h
    split
    · rename_i hlimit
      simp only [reduceCtorEq, ne_eq, not_false_eq_true, List.length_cons, forall_const, false_iff]
      rintro ⟨-, hb, -⟩
      omega
    · rename_i hlimit
      rw [ih rfl]
      simp only [List.map_cons, List.length_cons, List.range'_succ, List.cons.injEq,
        Decidable.not_not.mp h, List.append_assoc, List.singleton_append, true_and, ne_eq, reduceCtorEq,
        not_false_eq_true, forall_const, Nat.add_assoc, Nat.add_comm 1]
      refine and_congr_right fun _ => and_congr_left fun _ => ?_
      constructor
      · intro hb
        by_cases hv : vs = []
        · subst hv
          exact Nat.lt_of_not_le hlimit
        · exact hb hv
      · exact fun hb _ => hb

/-- Leaving a block never takes the outermost scope. -/
theorem Balanced.outerScopes_ne_nil {p : Progress} (h : p.Balanced) {i : Instruction}
    (hc : i.isBlockEnd = true → ∃ opener rest, p.blocks = opener :: rest ∧
      i.op.closes opener.op = true) : p.outerScopes i ≠ [] := by
  have hs := h.scopes
  intro hn
  have hl := congrArg List.length hn
  unfold outerScopes at hl
  split at hl
  · rename_i he
    obtain ⟨opener, rest, hb, _⟩ := hc he
    rw [hb] at hs
    simp only [List.length_tail, List.length_cons, List.length_nil] at hl hs
    omega
  · simp only [List.length_nil] at hl
    omega

theorem mapError_error {ε ε' α : Type} (f : ε → ε') (e : ε) :
    (Except.error e : Except ε α).mapError f = .error (f e) := rfl

theorem mapError_ok {ε ε' α : Type} (f : ε → ε') (a : α) :
    (Except.ok a : Except ε α).mapError f = .ok a := rfl

/-- A step goes through its stages one after the other. -/
theorem step_eq_ok_iff_stages {p q : Progress} {n : Nat} {i : Instruction} :
    p.step n i = .ok q ↔
      p.flaw? n i = none ∧ ∃ p₁, p.close i = .ok p₁ ∧ ∃ p₂, p₁.countCase i = .ok p₂ ∧
        ∃ p₃, p₂.declare n i.outputs = .ok p₃ ∧
          if i.isBlockStart then (p₃.enter i).declare n i.innerOutputs = .ok q else q = p₃ := by
  unfold step
  cases hf : p.flaw? n i with
  | some f => simp [throw, throwThe, MonadExceptOf.throw, bind, Except.bind]
  | none =>
    cases hclose : p.close i with
    | error f => simp [mapError_error, bind, Except.bind]
    | ok p₁ =>
      cases hcase : p₁.countCase i with
      | error f => simp [hcase, mapError_error, mapError_ok, bind, Except.bind]
      | ok p₂ =>
        cases hdecl : p₂.declare n i.outputs with
        | error e => simp [hcase, hdecl, mapError_ok, bind, Except.bind]
        | ok p₃ =>
          cases hs : i.isBlockStart with
          | false =>
            have hin := Instruction.innerOutputs_eq_nil hs
            simp [hcase, hdecl, hin, mapError_ok, bind, Except.bind, pure, Except.pure,
              eq_comm]
          | true =>
            cases hinner : (p₃.enter i).declare n i.innerOutputs with
            | error e => simp [hcase, hdecl, hinner, mapError_ok, bind, Except.bind]
            | ok p₄ => simp [hcase, hdecl, hinner, mapError_ok, bind, Except.bind]

/-- Variables are numbered in one row if they are in two rows, one after the other. -/
theorem numbered_append_iff {vs ws : List Variable} {n : Nat} :
    (vs ++ ws).map Variable.number = List.range' n (vs ++ ws).length ↔
      vs.map Variable.number = List.range' n vs.length ∧
      ws.map Variable.number = List.range' (n + vs.length) ws.length := by
  rw [List.map_append, List.length_append, ← List.range'_append_1]
  constructor
  · intro h
    exact List.append_inj h (by simp)
  · rintro ⟨hv, hw⟩
    rw [hv, hw]

/-- What a step does to the flags of the open switches, stage by stage. -/
theorem defaultsAfter_eq (p : Progress) (i : Instruction) :
    p.defaultsAfter i =
      match i.op with
      | .beginSwitch => false :: if i.op = .endSwitch then p.defaults.tail else p.defaults
      | .beginSwitchDefaultCase =>
        true :: (if i.op = .endSwitch then p.defaults.tail else p.defaults).tail
      | _ => if i.op = .endSwitch then p.defaults.tail else p.defaults := by
  unfold defaultsAfter
  cases i.op <;> rfl

theorem outerDefaults_of_case {p : Progress} {i : Instruction}
    (h : i.op = .beginSwitchCase ∨ i.op = .beginSwitchDefaultCase) :
    (if i.op = .endSwitch then p.defaults.tail else p.defaults) = p.defaults := by
  rcases h with h | h <;> simp [h]

/-- The check of one instruction is exactly `Admits`, and its result is `after`. -/
theorem step_eq_ok_iff {p q : Progress} (hp : p.Balanced) {n : Nat} {i : Instruction} :
    p.step n i = .ok q ↔ p.Admits n i ∧ q = p.after i := by
  have hall := i.outputs_append_innerOutputs
  rw [step_eq_ok_iff_stages, flaw?_eq_none_iff]
  constructor
  · rintro ⟨⟨hindex, hvisible, hcontext⟩, p₁, hclose, p₂, hcase, p₃, hdecl, hlast⟩
    obtain ⟨hopener, rfl⟩ := close_eq_ok_iff.mp hclose
    obtain ⟨hdefault, rfl⟩ := countCase_eq_ok_iff.mp hcase
    have hundefaulted (h : i.op = .beginSwitchCase ∨ i.op = .beginSwitchDefaultCase) :
        p.defaults.head? = some false := by
      have := hdefault h
      rwa [outerDefaults_of_case h] at this
    obtain ⟨s, ss, hscopes⟩ := List.exists_cons_of_ne_nil (hp.outerScopes_ne_nil hopener)
    obtain ⟨hnum, hbound, rfl⟩ := (declare_eq_ok_iff (p := Progress.mk _ _ _ _ _) hscopes).mp hdecl
    cases hs : i.isBlockStart with
    | false =>
      rw [hs] at hlast
      have hin := Instruction.innerOutputs_eq_nil hs
      rw [hin, List.append_nil] at hall
      rw [hall] at hnum hbound hlast
      refine ⟨⟨hindex, hvisible, hcontext, hopener, hundefaulted, hnum, hbound⟩, ?_⟩
      simp only [Bool.false_eq_true, if_false] at hlast
      rw [hlast, after, hs, hscopes, hall, defaultsAfter_eq]
      rfl
    | true =>
      rw [hs, if_pos rfl] at hlast
      obtain ⟨hnum', hbound', rfl⟩ := (declare_eq_ok_iff rfl).mp hlast
      refine ⟨⟨hindex, hvisible, hcontext, hopener, hundefaulted, ?_, ?_⟩, ?_⟩
      · rw [← hall]
        exact numbered_append_iff.mpr ⟨hnum, hnum'⟩
      · intro hne
        rw [← hall, List.length_append]
        by_cases hin : i.innerOutputs = []
        · rw [hin, List.append_nil] at hall
          rw [hin, hall, List.length_nil, Nat.add_zero]
          rw [hall] at hbound
          exact hbound hne
        · have := hbound' hin
          simp only [enter] at this
          omega
      · rw [after, hs, hscopes, ← hall, List.length_append, defaultsAfter_eq]
        simp [enter, Nat.add_assoc]
  · rintro ⟨h, rfl⟩
    obtain ⟨s, ss, hscopes⟩ := List.exists_cons_of_ne_nil (hp.outerScopes_ne_nil h.closes)
    have hnum := h.numbered
    rw [← hall] at hnum
    obtain ⟨hout, hin⟩ := numbered_append_iff.mp hnum
    have hbound (hne : i.outputs ++ i.innerOutputs ≠ []) :
        p.next + (i.outputs.length + i.innerOutputs.length) < Variable.limit := by
      rw [← List.length_append, hall]
      rw [hall] at hne
      exact h.bounded hne
    refine ⟨⟨h.index, h.visible, h.context⟩, _, close_eq_ok_iff.mpr ⟨h.closes, rfl⟩, _,
      countCase_eq_ok_iff.mpr ⟨?_, rfl⟩, _, (declare_eq_ok_iff hscopes).mpr ⟨hout, ?_, rfl⟩, ?_⟩
    · intro h'
      simpa only [outerDefaults_of_case h'] using h.undefaulted h'
    · intro hne
      have := hbound (by simp [hne])
      simp only
      omega
    · split
      · rename_i hs
        refine (declare_eq_ok_iff rfl).mpr ⟨hin, ?_, ?_⟩
        · intro hne
          have := hbound (by simp [hne])
          simp only [enter]
          omega
        · rw [after, hs, hscopes, ← hall, List.length_append, defaultsAfter_eq]
          simp [enter, Nat.add_assoc]
      · rename_i hs
        simp only [Bool.not_eq_true] at hs
        rw [Instruction.innerOutputs_eq_nil hs, List.append_nil] at hall
        rw [after, hs, hscopes, ← hall, defaultsAfter_eq]
        rfl

theorem Balanced.after_of_closes {p : Progress} (hp : p.Balanced) {i : Instruction}
    (hcloses : i.isBlockEnd = true → ∃ opener rest, p.blocks = opener :: rest ∧
      i.op.closes opener.op = true) : (p.after i).Balanced := by
  have hs := hp.scopes
  have hc := hp.contexts
  have hne := hp.outerScopes_ne_nil hcloses
  have houter : (p.outerScopes i).length = (p.outerBlocks i).length + 1 ∧
      (p.outerContexts i).length = (p.outerBlocks i).length + 1 := by
    unfold outerScopes outerContexts outerBlocks
    cases he : i.isBlockEnd with
    | false => exact ⟨hs, hc⟩
    | true =>
      obtain ⟨opener, rest, hb, _⟩ := hcloses he
      simp only [hb, if_true, List.length_tail, List.length_cons] at hs hc ⊢
      omega
  have hlen : (p.outerScopes i).tail.length + 1 = (p.outerScopes i).length := by
    rw [List.length_tail]
    have := List.length_pos_iff.mpr hne
    omega
  unfold Progress.after
  constructor <;> cases i.isBlockStart <;> simp <;> omega

theorem Balanced.after {p : Progress} (hp : p.Balanced) {n : Nat} {i : Instruction}
    (h : p.Admits n i) : (p.after i).Balanced := hp.after_of_closes h.closes

/-! ## Whole readings -/

theorem run_cons_eq_ok_iff {p q : Progress} (hp : p.Balanced) {n : Nat} {i : Instruction}
    {is : Code} :
    p.run n (i :: is) = .ok q ↔ p.Admits n i ∧ (p.after i).run (n + 1) is = .ok q := by
  rw [run]
  cases hs : p.step n i with
  | error e =>
    constructor
    · intro h
      cases h
    · rintro ⟨ha, _⟩
      rw [(step_eq_ok_iff hp).mpr ⟨ha, rfl⟩] at hs
      cases hs
  | ok p' =>
    obtain ⟨ha, rfl⟩ := (step_eq_ok_iff hp).mp hs
    exact ⟨fun h => ⟨ha, h⟩, fun h => h.2⟩

theorem run_append_eq_ok_iff {p q : Progress} {n : Nat} {a b : Code} :
    p.run n (a ++ b) = .ok q ↔ ∃ p', p.run n a = .ok p' ∧ p'.run (n + a.length) b = .ok q := by
  induction a generalizing p n with
  | nil => simp [run]
  | cons i is ih =>
    simp only [List.cons_append, run, List.length_cons]
    cases hs : p.step n i with
    | error e => simp [bind, Except.bind]
    | ok p' =>
      simp only [bind, Except.bind]
      rw [ih, Nat.add_assoc, Nat.add_comm 1]

theorem run_append_admitted {p : Progress} {done : Code} {i : Instruction}
    (h : ({} : Progress).run 0 done = .ok p) (hp : p.Balanced) (ha : p.Admits done.length i) :
    ({} : Progress).run 0 (done ++ [i]) = .ok (p.after i) := by
  refine run_append_eq_ok_iff.mpr ⟨p, h, ?_⟩
  rw [Nat.zero_add]
  exact (run_cons_eq_ok_iff hp).mpr ⟨ha, rfl⟩

/-- A reading keeps what holds of every state and is kept by every admitted instruction. -/
theorem run_induction {motive : Progress → Prop}
    (step : ∀ (p : Progress) (n : Nat) (i : Instruction), p.Balanced → p.Admits n i →
      motive p → motive (p.after i))
    {p q : Progress} {n : Nat} {c : Code} (hp : p.Balanced) (h : p.run n c = .ok q)
    (hm : motive p) : q.Balanced ∧ motive q := by
  induction c generalizing p n with
  | nil =>
    cases h
    exact ⟨hp, hm⟩
  | cons i is ih =>
    obtain ⟨ha, hrest⟩ := (run_cons_eq_ok_iff hp).mp h
    exact ih (hp.after ha) hrest (step p n i hp ha hm)

theorem balanced_of_run {q : Progress} {c : Code} (h : ({} : Progress).run 0 c = .ok q) :
    q.Balanced :=
  (run_induction (motive := fun _ => True) (fun _ _ _ _ _ _ => trivial) balanced_start h trivial).1

/-- What is read stands at its position. -/
theorem getElem?_index {p q : Progress} {n : Nat} {is : Code} (hp : p.Balanced)
    (h : p.run n is = .ok q) {i : Instruction} (hi : i ∈ is) :
    n ≤ i.index ∧ is[i.index - n]? = some i := by
  induction is generalizing p n with
  | nil => cases hi
  | cons j js ih =>
    obtain ⟨ha, hrun⟩ := (run_cons_eq_ok_iff hp).mp h
    rcases List.mem_cons.mp hi with rfl | hi
    · rw [ha.index, Nat.sub_self]
      exact ⟨Nat.le_refl n, rfl⟩
    · obtain ⟨hle, hget⟩ := ih (hp.after ha) hrun hi
      refine ⟨by omega, ?_⟩
      rw [show i.index - n = i.index - (n + 1) + 1 by omega]
      exact hget

theorem index_of_getElem? {p q : Progress} {n : Nat} {is : Code} (hp : p.Balanced)
    (h : p.run n is = .ok q) {k : Nat} {i : Instruction} (hk : is[k]? = some i) :
    i.index = n + k := by
  induction is generalizing p n k with
  | nil => cases hk
  | cons j js ih =>
    obtain ⟨ha, hrun⟩ := (run_cons_eq_ok_iff hp).mp h
    cases k with
    | zero =>
      cases hk
      exact ha.index
    | succ k =>
      have := ih (hp.after ha) hrun hk
      omega

/-! ## Switches and bodies -/

/-- No context is both that of a body and that directly in a switch. -/
def SeparatesSwitches (p : Progress) : Prop :=
  ∀ c ∈ p.contexts, c.script = true → c.switchBlock = false

theorem separatesSwitches_start : SeparatesSwitches {} := by
  intro c hc
  rw [List.mem_singleton.mp hc]
  decide

theorem SeparatesSwitches.after {p : Progress} {i : Instruction} (h : p.SeparatesSwitches) :
    (p.after i).SeparatesSwitches := by
  have houter (c : Context) (hc : c ∈ p.outerContexts i) :
      c.script = true → c.switchBlock = false := by
    refine h c ?_
    unfold outerContexts at hc
    split at hc
    · exact List.mem_of_mem_tail hc
    · exact hc
  -- Where a body keeps a context, what is opened neither makes it a body nor a switch.
  have hunion (c : Context) (hc : c.script = true → c.switchBlock = false) (opened : Context)
      (hopened : opened.script = false ∧ opened.switchBlock = false) :
      (c.union opened).script = true → (c.union opened).switchBlock = false := by
    simpa [Context.union, Context.ofPredicate, Context.has, hopened] using hc
  have hhead : ((p.outerContexts i).headD .empty).script = true →
      ((p.outerContexts i).headD .empty).switchBlock = false := by
    cases hcs : p.outerContexts i with
    | nil => intro hs; cases hs
    | cons c cs => exact houter c (by simp [hcs])
  have hsecond : ((p.outerContexts i)[1]?.getD Context.top).script = true →
      ((p.outerContexts i)[1]?.getD Context.top).switchBlock = false := by
    cases hcs : (p.outerContexts i)[1]? with
    | none => decide
    | some c => exact houter c (List.mem_of_getElem? hcs)
  intro c hc
  unfold Progress.after at hc
  simp only at hc
  split at hc
  · rcases List.mem_cons.mp hc with rfl | hc
    · rw [Instruction.shape, Operation.mode_eq, Operation.opens_eq]
      cases i.op <;>
        first
        | exact hunion _ hhead _ ⟨rfl, rfl⟩
        | exact hunion _ hsecond _ ⟨rfl, rfl⟩
        | exact fun _ => rfl
        | exact fun hs => hs.symm
    · exact houter c hc
  · exact houter c hc

theorem SeparatesSwitches.switchBlock_eq_false {p : Progress} {n : Nat} {i : Instruction}
    (h : p.SeparatesSwitches) (ha : p.Admits n i) (hp : p.contexts ≠ [])
    (hi : i.isBlock = false) : p.context.switchBlock = false := by
  refine h p.context ?_ ?_
  · obtain ⟨c, cs, hc⟩ := List.exists_cons_of_ne_nil hp
    rw [context, hc]
    exact List.mem_cons_self
  · have hcontext := ha.context
    rw [Context.contains_eq, Instruction.shape, Operation.requires_eq] at hcontext
    rw [Instruction.isBlock, Instruction.isBlockStart_eq, Instruction.isBlockEnd_eq] at hi
    cases hop : i.op <;> simp_all [Context.top, Context.ofList, Context.ofPredicate]

end Code.Progress

/-- Code is well formed if it can be read to its end and leaves no block open. -/
theorem Code.check_eq_ok_iff_run {c : Code} :
    c.check = .ok () ↔ ∃ q, ({} : Progress).run 0 c = .ok q ∧ q.blocks = [] := by
  unfold check
  cases hr : ({} : Progress).run 0 c with
  | error e => simp [bind, Except.bind]
  | ok q =>
    cases hb : q.blocks with
    | nil => simp [bind, Except.bind, hb, pure, Except.pure]
    | cons i is => simp [bind, Except.bind, hb, throw, throwThe, MonadExceptOf.throw]

/-- Every instruction of checked code stands at its position. -/
theorem Code.getElem?_index {is : Code} (h : is.check = .ok ()) {i : Instruction} (hi : i ∈ is) :
    is[i.index]? = some i := by
  obtain ⟨q, hrun, -⟩ := check_eq_ok_iff_run.mp h
  exact (Progress.getElem?_index Progress.balanced_start hrun hi).2

theorem Code.index_eq {is : Code} (h : is.check = .ok ()) {n : Nat} {i : Instruction}
    (hn : is[n]? = some i) : i.index = n := by
  obtain ⟨q, hrun, -⟩ := check_eq_ok_iff_run.mp h
  rw [Progress.index_of_getElem? Progress.balanced_start hrun hn, Nat.zero_add]

/-- Code from the operations and variables of its instructions. What does not fit is left out. -/
def Code.ofRows (rows : List (Operation × List Nat)) : Code :=
  rows.zipIdx.filterMap fun x =>
    (Instruction.ofParts x.1.1 (x.1.2.map Variable.mk) x.2).toOption

end ScriptFuzz
