import ScriptFuzz.Builder.Basic
import ScriptFuzz.Proofs.Code.Reading

/-!
# A builder stands where the check stands

The builder and the check keep the same stacks. `Builder.Reads` says that a builder holds what the
check knows after the code built so far. `Builder.emit_eq_ok_iff` says when an instruction is
emitted and `Builder.Reads.extended` that it takes both to the same state; the check asks for nothing
else than that no case follows a default case (`Builder.admits_drafted`).
-/

namespace ScriptFuzz

set_option autoImplicit false

open Code

/-- Whether a fault only says that memory or the numbers of variables have run out. -/
def Fault.isShortage : Fault → Bool
  | .oversized | .exhausted => true
  | _ => false

/-- The outcome is a result that satisfies one condition or a fault that satisfies another. -/
def Fault.Ends {α : Type} (outcome : Except Fault α) (Q : α → Prop) (E : Fault → Prop) : Prop :=
  match outcome with
  | .ok a => Q a
  | .error f => E f

theorem Fault.Ends.mono {α : Type} {outcome : Except Fault α} {Q Q' : α → Prop}
    {E E' : Fault → Prop} (h : Fault.Ends outcome Q E) (hQ : ∀ a, Q a → Q' a)
    (hE : ∀ f, E f → E' f) : Fault.Ends outcome Q' E' := by
  cases outcome with
  | ok a => exact hQ a h
  | error f => exact hE f h

theorem Fault.Ends.and {α : Type} {outcome : Except Fault α} {Q Q' : α → Prop}
    {E E' : Fault → Prop} (h : Fault.Ends outcome Q E) (h' : Fault.Ends outcome Q' E') :
    Fault.Ends outcome (fun a => Q a ∧ Q' a) fun f => E f ∧ E' f := by
  cases outcome with
  | ok a => exact ⟨h, h'⟩
  | error f => exact ⟨h, h'⟩

/-- Nothing is said about faults. -/
theorem Fault.ends_iff_forall {α : Type} {outcome : Except Fault α} {Q : α → Prop} :
    Fault.Ends outcome Q (fun _ => True) ↔ ∀ a, outcome = .ok a → Q a := by
  cases outcome with
  | ok a => exact ⟨fun h c hc => Except.ok.inj hc ▸ h, fun h => h a rfl⟩
  | error f => exact ⟨nofun, fun _ => trivial⟩

theorem Fault.ends_iff_exists {α : Type} {outcome : Except Fault α} {Q : α → Prop}
    {E : Fault → Prop} :
    Fault.Ends outcome Q E ↔ (∃ a, outcome = .ok a ∧ Q a) ∨ ∃ f, outcome = .error f ∧ E f := by
  cases outcome with
  | ok a => exact ⟨fun h => .inl ⟨a, rfl, h⟩, fun h => by simpa [Ends] using h⟩
  | error f => exact ⟨fun h => .inr ⟨f, rfl, h⟩, fun h => by simpa [Ends] using h⟩

/-- The outcome is a shortage or a result that satisfies a condition. -/
def Fault.Allows {α : Type} (outcome : Except Fault α) (Q : α → Prop) : Prop :=
  Fault.Ends outcome Q fun f => f.isShortage = true

theorem Fault.Allows.mono {α : Type} {outcome : Except Fault α} {Q Q' : α → Prop}
    (h : Fault.Allows outcome Q) (hQ : ∀ a, Q a → Q' a) : Fault.Allows outcome Q' :=
  Fault.Ends.mono h hQ fun _ => id

theorem Fault.Allows.bind {α β : Type} {outcome : Except Fault α} {f : α → Except Fault β}
    {Q : α → Prop} {R : β → Prop} (h : Fault.Allows outcome Q)
    (hf : ∀ a, Q a → Fault.Allows (f a) R) : Fault.Allows (outcome >>= f) R := by
  cases outcome with
  | ok a => exact hf a h
  | error e => exact h

def Code.IsCountable (c : Code) : Prop := ∀ i ∈ c, i.op.isCountable = true

/-- Code that passes the check, and whose variables can be counted. -/
structure Code.IsSound (c : Code) : Prop where
  check : c.check = .ok ()
  countable : c.IsCountable

namespace Code.Progress

theorem mem_of_mem_blocks {p q : Progress} {n : Nat} {c : Code} (hp : p.Balanced)
    (h : p.run n c = .ok q) {i : Instruction} (hi : i ∈ q.blocks) : i ∈ p.blocks ∨ i ∈ c := by
  induction c generalizing p n with
  | nil =>
    cases h
    exact .inl hi
  | cons j js ih =>
    obtain ⟨ha, hrun⟩ := (run_cons_eq_ok_iff hp).mp h
    rcases ih (hp.after ha) hrun with hblock | hjs
    · have houter (hmem : i ∈ p.outerBlocks j) : i ∈ p.blocks := by
        unfold outerBlocks at hmem
        split at hmem
        · exact List.mem_of_mem_tail hmem
        · exact hmem
      simp only [Progress.after] at hblock
      split at hblock
      · rcases List.mem_cons.mp hblock with rfl | hblock
        · exact .inr List.mem_cons_self
        · exact .inl (houter hblock)
      · exact .inl (houter hblock)
    · exact .inr (List.mem_cons_of_mem _ hjs)

end Code.Progress

namespace Builder

variable {b b' : Builder} {p : Progress} {op : Operation} {inputs produced : List Variable}

/-- The stacks of the builder are those of the check. -/
structure Mirrors (b : Builder) (p : Progress) : Prop where
  next : b.nextVariable = p.next
  scopes : b.scopes = p.scopes
  contexts : b.contexts = p.contexts
  blocks : b.openBlocks = p.blocks.map Instruction.index

/-- The check reads the code built so far, and the builder holds what the check knows after it. -/
structure Reads (b : Builder) (p : Progress) : Prop extends Mirrors b p where
  run : ({} : Progress).run 0 b.code = .ok p

theorem reads_start : Reads {} {} := ⟨⟨rfl, rfl, rfl, rfl⟩, rfl⟩

theorem Reads.balanced (h : b.Reads p) : p.Balanced := Progress.balanced_of_run h.run

theorem Mirrors.isVisible (h : b.Mirrors p) (v : Variable) : b.isVisible v = p.isVisible v := by
  rw [Builder.isVisible, Progress.isVisible, h.scopes]

theorem Mirrors.context (h : b.Mirrors p) : b.context = p.context := by
  rw [Builder.context, Progress.context, h.contexts]

/-- The stacks of the builder fit together, and the instructions whose blocks are open are there. It
is not said that the check accepts the code. -/
structure Stands (b : Builder) (p : Progress) : Prop extends Mirrors b p where
  balanced : p.Balanced
  openers : ∀ i ∈ p.blocks, b.code[i.index]? = some i

theorem Reads.stands (h : b.Reads p) : b.Stands p where
  toMirrors := h.toMirrors
  balanced := h.balanced
  openers i hi := by
    rcases Progress.mem_of_mem_blocks Progress.balanced_start h.run hi with hi | hi
    · cases hi
    · exact (Progress.getElem?_index Progress.balanced_start h.run hi).2

@[simp] theorem variablesFrom_zero (n : Nat) : variablesFrom n 0 = [] := rfl

theorem variablesFrom_append (n k l : Nat) :
    variablesFrom n k ++ variablesFrom (n + k) l = variablesFrom n (k + l) := by
  unfold variablesFrom
  rw [← List.map_append, List.range'_append_1]

theorem map_number_variablesFrom (n k : Nat) :
    (variablesFrom n k).map Variable.number = List.range' n k := by
  unfold variablesFrom
  rw [List.map_map]
  exact List.map_id _

def declares (op : Operation) : Nat := op.shape.outputs + op.shape.innerOutputs

/-- The instruction that the operation and its inputs become. -/
def drafted (b : Builder) (op : Operation) (inputs : List Variable)
    (h : inputs.length = op.shape.inputs) : Instruction :=
  { op, inouts := inputs ++ variablesFrom b.nextVariable (declares op), index := b.code.length
    arity := by
      rw [List.length_append, length_variablesFrom, h, declares, Shape.size, Nat.add_assoc] }

section

variable (h : inputs.length = op.shape.inputs)

theorem inputs_drafted : (b.drafted op inputs h).inputs = inputs := by
  unfold drafted Instruction.inputs Instruction.shape
  simp only
  rw [← h, List.take_left]

theorem allOutputs_drafted :
    (b.drafted op inputs h).allOutputs = variablesFrom b.nextVariable (declares op) := by
  unfold drafted Instruction.allOutputs Instruction.shape
  simp only
  rw [← h, List.drop_left]

theorem outputs_drafted :
    (b.drafted op inputs h).outputs = variablesFrom b.nextVariable op.shape.outputs := by
  have hsplit := variablesFrom_append b.nextVariable op.shape.outputs op.shape.innerOutputs
  unfold Instruction.outputs
  rw [allOutputs_drafted, declares, ← hsplit]
  exact List.take_left' (length_variablesFrom _ _)

theorem innerOutputs_drafted : (b.drafted op inputs h).innerOutputs =
    variablesFrom (b.nextVariable + op.shape.outputs) op.shape.innerOutputs := by
  have hsplit := variablesFrom_append b.nextVariable op.shape.outputs op.shape.innerOutputs
  unfold Instruction.innerOutputs
  rw [allOutputs_drafted, declares, ← hsplit]
  exact List.drop_left' (length_variablesFrom _ _)

/-- The builder with an instruction added, the stacks being those that the check has after it. -/
def extended (b : Builder) (p : Progress) (i : Instruction) : Builder :=
  { b with
    code := b.code ++ [i]
    nextVariable := (p.after i).next
    scopes := (p.after i).scopes
    contexts := (p.after i).contexts
    openBlocks := (p.after i).blocks.map Instruction.index
    definitions := b.definitions ++ List.replicate i.allOutputs.length b.code.length }

/-- What the builder asks of an operation and its inputs, as far as the check asks for it too. -/
structure Fits (p : Progress) (op : Operation) (inputs : List Variable) : Prop where
  length : inputs.length = op.shape.inputs
  visible : ∀ v ∈ inputs, p.isVisible v = true
  context : p.context.contains op.shape.requires = true
  closes : op.shape.has .blockEnd = true → ∃ opener rest, p.blocks = opener :: rest ∧
    op.closes opener.op = true

end

theorem fault?_eq_none_iff (h : b.Mirrors p) : b.fault? op inputs = none ↔
    op.shape.inputs < Operation.countLimit ∧ op.shape.innerOutputs < Operation.countLimit ∧
      inputs.length = op.shape.inputs ∧ (∀ v ∈ inputs, p.isVisible v = true) ∧
      p.context.contains op.shape.requires = true := by
  unfold fault?
  simp only [h.isVisible, h.context]
  split
  · rename_i hc
    simp only [reduceCtorEq, false_iff]
    omega
  · rename_i hc
    split
    · rename_i hl
      simp only [reduceCtorEq, false_iff]
      exact fun hn => hl hn.2.2.1
    · rename_i hl
      have hl' := Decidable.of_not_not hl
      cases hv : inputs.find? fun v => !p.isVisible v with
      | some v =>
        have hm := List.mem_of_find?_eq_some hv
        have hb := List.find?_some hv
        simp only [reduceCtorEq, false_iff]
        rintro ⟨_, _, _, hvis, _⟩
        simp [hvis v hm] at hb
      | none =>
        have hvis : ∀ v ∈ inputs, p.isVisible v = true := by
          simpa using List.find?_eq_none.mp hv
        simp only [ite_eq_left_iff, reduceCtorEq, imp_false, Bool.not_eq_true,
          Bool.not_eq_false]
        constructor
        · intro hctx
          exact ⟨by omega, by omega, hl', hvis, hctx⟩
        · exact fun hn => hn.2.2.2.2

/-- The builder in the middle of an emission: the innermost block is left where the operation ends
one. -/
def left (b : Builder) (op : Operation) : Builder :=
  if op.shape.has .blockEnd then
    { b with openBlocks := b.openBlocks.tail, contexts := b.contexts.tail, scopes := b.scopes.tail }
  else b

theorem close_eq_ok_iff (h : b.Stands p) : b.close op = .ok b' ↔
    (op.shape.has .blockEnd = true → ∃ opener rest, p.blocks = opener :: rest ∧
      op.closes opener.op = true) ∧ b' = b.left op := by
  unfold close left
  cases he : op.shape.has .blockEnd with
  | false =>
    simp only [Bool.not_false, if_true, Bool.false_eq_true, false_implies, if_false, true_and,
      Except.ok.injEq]
    exact eq_comm
  | true =>
    rw [h.blocks]
    cases hb : p.blocks with
    | nil => simp
    | cons opener rest =>
      have hget := h.openers opener (by simp [hb])
      simp only [Bool.not_true, Bool.false_eq_true, if_false, List.map_cons, hget, forall_const,
        if_true, List.tail_cons]
      by_cases hc : op.closes opener.op = true
      · simp only [hc, if_true, Except.ok.injEq]
        constructor
        · rintro rfl
          exact ⟨⟨opener, rest, rfl, hc⟩, rfl⟩
        · rintro ⟨_, rfl⟩
          rfl
      · simp [hc]

theorem checkRoom_eq_ok_iff : b.checkRoom op = .ok () ↔
    declares op < capacity ∧ b.nextVariable + declares op < Variable.limit := by
  have hcapacity : capacity ≤ Operation.countLimit := by decide
  unfold checkRoom declares
  simp only [Nat.add_assoc]
  split
  · simp only [reduceCtorEq, false_iff]
    omega
  · split
    · simp only [reduceCtorEq, false_iff]
      omega
    · split
      · simp only [reduceCtorEq, false_iff]
        omega
      · simp only [true_iff]
        omega

theorem isShortage_of_checkRoom {f : Fault} (hc : op.isCountable = true)
    (h : b.checkRoom op = .error f) : f.isShortage = true := by
  have hc' : op.shape.size < Operation.countLimit := by simpa [Operation.isCountable] using hc
  rw [Shape.size] at hc'
  unfold checkRoom at h
  simp only at h
  split at h
  · omega
  · split at h
    · cases h
      rfl
    · split at h
      · cases h
        rfl
      · cases h

/-- What the builder adds declares the next variables. -/
theorem Mirrors.number_drafted (h : b.Mirrors p) (hl : inputs.length = op.shape.inputs) :
    (b.drafted op inputs hl).allOutputs.map Variable.number =
      List.range' p.next (b.drafted op inputs hl).allOutputs.length := by
  rw [allOutputs_drafted, map_number_variablesFrom, length_variablesFrom, h.next]

/-- The stacks that the builder has once an instruction is added are those of the check. -/
theorem allocated_eq (h : b.Mirrors p) (hl : inputs.length = op.shape.inputs)
    (hcloses : op.shape.has .blockEnd = true → ∃ opener rest, p.blocks = opener :: rest ∧
      op.closes opener.op = true) :
    { (((b.left op).allocate op.shape.outputs).enter op).allocate op.shape.innerOutputs with
      code := b.code ++ [b.drafted op inputs hl] } =
    b.extended p (b.drafted op inputs hl) := by
  have hs : (b.drafted op inputs hl).isBlockStart = op.shape.has .blockStart := rfl
  have he : (b.drafted op inputs hl).isBlockEnd = op.shape.has .blockEnd := rfl
  have hin := innerOutputs_drafted (b := b) hl
  have hlength : (b.drafted op inputs hl).allOutputs.length = declares op := by
    rw [allOutputs_drafted, length_variablesFrom]
  have hempty : op.shape.has .blockStart = false → op.shape.innerOutputs = 0 := by
    intro hstart
    have := Instruction.innerOutputs_eq_nil (i := b.drafted op inputs hl) hstart
    rw [hin] at this
    simpa using congrArg List.length this
  simp only [extended, Progress.after, hs, hlength, outputs_drafted, hin,
    Progress.outerScopes, Progress.outerContexts, Progress.outerBlocks, he, declares]
  simp only [left, allocate, enter, nextIndex]
  -- An operation may end a block, start one, do both, or neither.
  cases hend : op.shape.has .blockEnd <;> cases hstart : op.shape.has .blockStart <;>
    simp only [Bool.false_eq_true, if_false, if_true]
  · simp [h.scopes, h.contexts, h.blocks, h.next, hempty hstart]
  · simp [h.scopes, h.contexts, h.blocks, h.next, Instruction.shape, drafted,
      Nat.add_assoc]
  · obtain ⟨opener, rest, hb, _⟩ := hcloses hend
    simp [h.scopes, h.contexts, h.blocks, h.next, hempty hstart]
  · obtain ⟨opener, rest, hb, _⟩ := hcloses hend
    simp [h.scopes, h.contexts, h.blocks, h.next, hb, Instruction.shape, drafted,
      Nat.add_assoc]

structure HasRoom (b : Builder) (op : Operation) : Prop where
  memory : declares op < capacity
  numbers : b.nextVariable + declares op < Variable.limit

theorem nextVariable_left : (b.left op).nextVariable = b.nextVariable := by
  unfold left
  split <;> rfl

theorem code_left : (b.left op).code = b.code := by
  unfold left
  split <;> rfl

theorem code_allocate (n : Nat) : (b.allocate n).code = b.code := rfl

/-- Entering a block changes nothing but the stacks. -/
theorem enter_frame (b : Builder) (op : Operation) : (b.enter op).code = b.code ∧
    (b.enter op).nextVariable = b.nextVariable ∧ (b.enter op).contributors = b.contributors ∧
      (b.enter op).comments = b.comments ∧ (b.enter op).parent = b.parent := by
  unfold enter
  split <;> exact ⟨rfl, rfl, rfl, rfl, rfl⟩

theorem code_enter : (b.enter op).code = b.code := (enter_frame b op).1

theorem nextVariable_enter : (b.enter op).nextVariable = b.nextVariable := (enter_frame b op).2.1

theorem emit_of_stages (hfault : b.fault? op inputs = none) (hclose : b.close op = .ok (b.left op))
    (hroom : (b.left op).checkRoom op = .ok ()) (hl : inputs.length = op.shape.inputs) :
    b.emit op inputs = .ok (variablesFrom b.nextVariable (declares op),
      { (((b.left op).allocate op.shape.outputs).enter op).allocate op.shape.innerOutputs with
        code := b.code ++ [b.drafted op inputs hl] }) := by
  have hdeclared := variablesFrom_append b.nextVariable op.shape.outputs op.shape.innerOutputs
  unfold emit
  simp only [hfault, hclose, hroom, bind, Except.bind, nextVariable_left, nextVariable_enter,
    show ((b.left op).allocate op.shape.outputs).nextVariable =
      b.nextVariable + op.shape.outputs from congrArg (· + _) nextVariable_left, hdeclared,
    code_allocate, code_enter, code_left]
  rw [dif_pos (by
    rw [List.length_append, length_variablesFrom, hl, Shape.size, Nat.add_assoc])]
  rfl

theorem emit_eq_ok (h : b.Stands p) (hcount : op.shape.inputs < Operation.countLimit)
    (hroom : b.HasRoom op) (hfits : Fits p op inputs) :
    b.emit op inputs = .ok (variablesFrom b.nextVariable (declares op),
      b.extended p (b.drafted op inputs hfits.length)) := by
  have hinner : op.shape.innerOutputs < Operation.countLimit := by
    have hmemory := hroom.memory
    have hcapacity : capacity ≤ Operation.countLimit := by decide
    unfold declares at hmemory
    omega
  rw [emit_of_stages
    ((fault?_eq_none_iff h.toMirrors).mpr
      ⟨hcount, hinner, hfits.length, hfits.visible, hfits.context⟩)
    ((close_eq_ok_iff h).mpr ⟨hfits.closes, rfl⟩)
    (checkRoom_eq_ok_iff.mpr ⟨hroom.memory, by rw [nextVariable_left]; exact hroom.numbers⟩)
    hfits.length, allocated_eq h.toMirrors hfits.length hfits.closes]

theorem emit_eq_error_of_checkRoom {f : Fault} (hfault : b.fault? op inputs = none)
    (hclose : b.close op = .ok b') (hroom : b'.checkRoom op = .error f) :
    b.emit op inputs = .error f := by
  unfold emit
  simp only [hfault, hclose, hroom, bind, Except.bind]

theorem stages_of_emit {r : List Variable × Builder} (he : b.emit op inputs = .ok r) :
    b.fault? op inputs = none ∧ ∃ closed, b.close op = .ok closed ∧
      closed.checkRoom op = .ok () := by
  unfold emit at he
  cases hfault : b.fault? op inputs with
  | some f => simp [hfault, bind, Except.bind, throw, throwThe, MonadExceptOf.throw] at he
  | none =>
    cases hclose : b.close op with
    | error f => simp [hfault, hclose, bind, Except.bind] at he
    | ok closed =>
      cases hroom : closed.checkRoom op with
      | error f => simp [hfault, hclose, hroom, bind, Except.bind] at he
      | ok _ => exact ⟨rfl, closed, rfl, hroom⟩

/-- Leaving a block changes nothing but the stacks. -/
theorem close_frame (h : b.close op = .ok b') : b'.code = b.code ∧
    b'.nextVariable = b.nextVariable ∧ b'.contributors = b.contributors ∧
      b'.comments = b.comments ∧ b'.parent = b.parent := by
  unfold close at h
  split at h
  · cases h
    exact ⟨rfl, rfl, rfl, rfl, rfl⟩
  split at h
  · cases h
  split at h
  · cases h
  split at h
  · cases h
    exact ⟨rfl, rfl, rfl, rfl, rfl⟩
  · cases h

theorem code_emit {r : List Variable × Builder} (h : b.emit op inputs = .ok r) :
    ∃ j : Instruction, j.op = op ∧ r.2.code = b.code ++ [j] := by
  obtain ⟨hfault, closed, hclose, hroom⟩ := stages_of_emit h
  unfold emit at h
  simp only [hfault, hclose, hroom, bind, Except.bind] at h
  split at h
  · rename_i harity
    cases h
    refine ⟨Instruction.placed { op, inouts := _, arity := harity } b.code.length, rfl, ?_⟩
    simp only [Code.append, code_allocate, code_enter, (close_frame hclose).1]
  · cases h

theorem eq_of_finalize {id : Uuid} {q : Program} (h : b.finalize id = .ok q) :
    q = { id, parent := b.parent, code := b.code, comments := b.comments
          contributors := b.contributors } := by
  unfold finalize at h
  cases hopen : b.openBlocks.isEmpty <;> cases hformed : b.code.isWellFormed <;>
    rw [hopen, hformed] at h <;> cases h
  rfl

theorem code_finalize {id : Uuid} {q : Program} (h : b.finalize id = .ok q) :
    q.code = b.code := congrArg Program.code (eq_of_finalize h)

theorem check_of_finalize {id : Uuid} {q : Program} (h : b.finalize id = .ok q) :
    b.code.check = .ok () := by
  unfold finalize at h
  cases hcheck : b.code.check with
  | ok _ => rfl
  | error e =>
    have hformed : b.code.isWellFormed = false := by rw [isWellFormed, hcheck]
    cases hopen : b.openBlocks.isEmpty <;> rw [hopen, hformed] at h <;> cases h

/-- An instruction is added exactly if it fits and there is room for what it declares. -/
theorem emit_eq_ok_iff (h : b.Stands p) : b.emit op inputs = .ok (produced, b') ↔
    op.shape.inputs < Operation.countLimit ∧ b.HasRoom op ∧ ∃ hfits : Fits p op inputs,
      produced = variablesFrom b.nextVariable (declares op) ∧
        b' = b.extended p (b.drafted op inputs hfits.length) := by
  constructor
  · intro he
    obtain ⟨hfault, closed, hclose, hroom⟩ := stages_of_emit he
    obtain ⟨hcount, -, hlength, hvisible, hcontext⟩ := (fault?_eq_none_iff h.toMirrors).mp hfault
    obtain ⟨hcloses, rfl⟩ := (close_eq_ok_iff h).mp hclose
    rw [checkRoom_eq_ok_iff, nextVariable_left] at hroom
    have hfits : Fits p op inputs := ⟨hlength, hvisible, hcontext, hcloses⟩
    rw [emit_eq_ok h hcount ⟨hroom.1, hroom.2⟩ hfits] at he
    cases he
    exact ⟨hcount, ⟨hroom.1, hroom.2⟩, hfits, rfl, rfl⟩
  · rintro ⟨hcount, hroom, hfits, rfl, rfl⟩
    exact emit_eq_ok h hcount hroom hfits

theorem isShortage_of_emit {f : Fault} (h : b.Stands p) (hcount : op.isCountable = true)
    (hfits : Fits p op inputs) (he : b.emit op inputs = .error f) : f.isShortage = true := by
  have hsize : op.shape.size < Operation.countLimit := by simpa [Operation.isCountable] using hcount
  rw [Shape.size] at hsize
  have hfault : b.fault? op inputs = none := (fault?_eq_none_iff h.toMirrors).mpr
    ⟨by omega, by omega, hfits.length, hfits.visible, hfits.context⟩
  have hclose := (close_eq_ok_iff h).mpr ⟨hfits.closes, rfl⟩
  cases hroom : (b.left op).checkRoom op with
  | error g =>
    rw [emit_eq_error_of_checkRoom hfault hclose hroom] at he
    cases he
    exact isShortage_of_checkRoom hcount hroom
  | ok _ =>
    rw [emit_of_stages hfault hclose hroom hfits.length] at he
    cases he

/-- The check admits what the builder adds, but for a case that follows a default case. -/
theorem admits_drafted (h : b.Reads p) (hroom : b.HasRoom op) (hfits : Fits p op inputs)
    (hcase : op = .beginSwitchCase ∨ op = .beginSwitchDefaultCase →
      p.defaults.head? = some false) :
    p.Admits b.code.length (b.drafted op inputs hfits.length) where
  index := rfl
  visible v hv := hfits.visible v (by rwa [inputs_drafted] at hv)
  context := hfits.context
  closes := hfits.closes
  undefaulted := hcase
  numbered := h.number_drafted hfits.length
  bounded _ := by
    rw [allOutputs_drafted, length_variablesFrom, ← h.next]
    exact hroom.numbers

/-- Builder and check take an instruction that both admit to the same state. -/
theorem Reads.extended (h : b.Reads p) {i : Instruction} (ha : p.Admits b.code.length i) :
    (b.extended p i).Reads (p.after i) where
  next := rfl
  scopes := rfl
  contexts := rfl
  blocks := rfl
  run := Progress.run_append_admitted h.run h.balanced ha

/-- A builder that the check reads, with instructions whose variables can be counted. -/
structure Holds (b : Builder) (p : Progress) : Prop extends Reads b p where
  countable : b.code.IsCountable

theorem holds_start : Holds {} {} := ⟨reads_start, nofun⟩

theorem Holds.congr (h : b.Holds p) (hcode : b'.code = b.code)
    (hnext : b'.nextVariable = b.nextVariable) (hscopes : b'.scopes = b.scopes) (hcontexts : b'.contexts = b.contexts)
    (hblocks : b'.openBlocks = b.openBlocks) : b'.Holds p where
  next := hnext.trans h.next
  scopes := hscopes.trans h.scopes
  contexts := hcontexts.trans h.contexts
  blocks := hblocks.trans h.blocks
  run := hcode ▸ h.run
  countable := hcode ▸ h.countable

/-- What fits is added, unless memory or numbers run out; a case needs a switch whose default case
is not there yet. -/
theorem Holds.emit (h : b.Holds p) (hcount : op.isCountable = true) (hfits : Fits p op inputs)
    (hcase : op = .beginSwitchCase ∨ op = .beginSwitchDefaultCase → p.defaults.head? = some false) :
    Fault.Allows (b.emit op inputs) fun r => ∃ j : Instruction, j.op = op ∧ r.1 = j.allOutputs ∧
      r.2.code = b.code ++ [j] ∧ r.2.Holds (p.after j) ∧ r.2.adoption = b.adoption := by
  cases he : b.emit op inputs with
  | error f => exact isShortage_of_emit h.stands hcount hfits he
  | ok r =>
    obtain ⟨produced, b'⟩ := r
    obtain ⟨-, hroom, hfits', rfl, rfl⟩ := (emit_eq_ok_iff h.stands).mp he
    refine ⟨b.drafted op inputs hfits'.length, rfl, (allOutputs_drafted hfits'.length).symm, rfl,
      ⟨h.toReads.extended (admits_drafted h.toReads hroom hfits' hcase), ?_⟩, rfl⟩
    intro i hi
    rcases List.mem_append.mp hi with hi | hi
    · exact h.countable i hi
    · rw [List.mem_singleton.mp hi]
      exact hcount

end Builder

end ScriptFuzz
