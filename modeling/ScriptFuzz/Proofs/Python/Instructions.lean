import ScriptFuzz.Proofs.Python.Emission

/-!
# What an instruction makes of its inputs

An instruction takes the expressions of its inputs from the queue. One that neither starts nor ends a
block makes a value of them, which it declares, or a statement.
-/

namespace ScriptFuzz

set_option autoImplicit false

open Python Python.Render

namespace Instruction

theorem inputs_eq_map (i : Instruction) :
    i.inputs = (List.range i.op.shape.inputs).map i.input := by
  refine List.ext_getElem ?_ ?_
  · rw [length_inputs, List.length_map, List.length_range]
    rfl
  · intro n h h'
    rw [List.getElem_map, List.getElem_range, input, List.getElem?_eq_getElem h]
    rfl

/-- What may be written in the places of the inputs. -/
def slots (i : Instruction) : List (Variable × Slot) :=
  match i.op with
  | .createArray _ | .callMethod _ _ | .beginForLoop | .beginClassDefinition _ =>
    i.inputs.map fun v => (v, .inline)
  | .eval _ _ => i.inputs.map fun v => (v, .settled)
  | .callFunction _ | .construct _ => callSlots i.inputs
  | .getProperty _ | .getElement _ | .unaryOperation _ | .dup | .ret | .throwException | .print
  | .beginIf _ | .beginSwitch | .beginSwitchCase => [(i.input 0, .inline)]
  | .setProperty _ | .setElement _ | .reassign => [(i.input 0, .name), (i.input 1, .inline)]
  | .update op => [(i.input 0, .name), (i.input 1, if op.isLogical then .settled else .inline)]
  | .binaryOperation op =>
    [(i.input 0, .inline), (i.input 1, if op.isLogical then .settled else .inline)]
  | .compare _ => [(i.input 0, .inline), (i.input 1, .inline)]
  | .beginWhileLoop _ => [(i.input 0, .settled), (i.input 1, .settled)]
  | .ternaryOperation => [(i.input 0, .inline), (i.input 1, .settled), (i.input 2, .settled)]
  | _ => []

theorem map_fst_callSlots (vs : List Variable) : (callSlots vs).map Prod.fst = vs := by
  cases vs with
  | nil => rfl
  | cons v vs => simp [callSlots, Function.comp_def]

theorem map_fst_slots (i : Instruction) : i.slots.map Prod.fst = i.inputs := by
  have h := i.inputs_eq_map
  unfold slots
  cases hop : i.op <;> rw [hop] at h <;>
    first
    | exact h.symm
    | simp [map_fst_callSlots, Function.comp_def]

/-- What an instruction does itself. -/
def event? (i : Instruction) : Option Python.Event :=
  match i.op with
  | .createArray _ | .getProperty _ | .getElement _ | .callFunction _ | .construct _
  | .callMethod _ _ | .unaryOperation _ | .binaryOperation _ | .ternaryOperation | .compare _
  | .dup => some (.computes i.index)
  | .nop | .setProperty _ | .setElement _ | .ret | .reassign | .update _ | .eval _ _ | .loopBreak
  | .loopContinue | .throwException | .print => some (.performs i.index)
  | _ => if i.isBlockStart then some (.opens i.index) else none

/-- What an instruction with an output makes of the expressions of its inputs. -/
def value (i : Instruction) (es : List Expr) : Expr :=
  match i.op with
  | .loadInteger v | .loadBigInt v => .int v
  | .loadFloat v => .float v
  | .loadString v | .loadRegExp v => .string v
  | .loadBoolean v => .bool v
  | .loadBuiltin path => .builtin path
  | .createArray _ => .list es
  | .getProperty name => .attribute (es.headD .none) name
  | .getElement index => .subscript (es.headD .none) index
  | .callFunction _ | .construct _ => .call (es.headD .none) es.tail
  | .callMethod name _ => .call (.attribute (es.headD .none) name) es.tail
  | .unaryOperation op => .unary op (es.headD .none)
  | .binaryOperation op => .binary op (es.headD .none) ((es[1]?).getD .none)
  | .compare op => .compare op (es.headD .none) ((es[1]?).getD .none)
  | .ternaryOperation =>
    .conditional (es.headD .none) ((es[1]?).getD .none) ((es[2]?).getD .none)
  | .dup => es.headD .none
  | _ => .none

/-- The statement that an instruction without outputs makes of the expressions of its inputs. -/
def statement (i : Instruction) (es : List Expr) : Statement :=
  match i.op with
  | .loopBreak => .breakLoop
  | .loopContinue => .continueLoop
  | .setProperty name => .setAttribute (es.headD .none) name ((es[1]?).getD .none)
  | .setElement index => .setElement (es.headD .none) index ((es[1]?).getD .none)
  | .ret => .ret (es.headD .none)
  | .throwException => .raise (es.headD .none)
  | .print => .report (es.headD .none)
  | .reassign => .assign (es.headD .none) ((es[1]?).getD .none)
  | .update op =>
    if op.isLogical then
      .assign (es.headD .none) (.binary op (es.headD .none) ((es[1]?).getD .none))
    else .augment (es.headD .none) op ((es[1]?).getD .none)
  | .eval code _ => .raw (fillPlaceholders (cutPlaceholders code.toList) es)
  | _ => .pass

end Instruction

namespace Python.Render

variable {s : Subject} {n : Nat} {i : Instruction} {v : Variable}

theorem bind_operandAs {α : Type} (slot : Slot) (f : Expr → Render α) :
    operandAs s i slot >>= f =
      operands s i.index [(i.input 0, slot)] >>= fun es => f (es.headD .none) := by
  simp only [operandAs, operandsAs, List.map_cons, List.map_nil, bind_assoc, pure_bind]

theorem bind_pair {α : Type} (first second : Slot) (f : Expr × Expr → Render α) :
    pair s i first second >>= f =
      operands s i.index [(i.input 0, first), (i.input 1, second)] >>= fun es =>
        f (es.headD .none, (es[1]?).getD .none) := by
  simp only [pair, bind_assoc, pure_bind]

theorem operands_nil : operands s n [] = pure [] := by
  funext l
  have hkept : kept [] l.pending = l.pending := List.take_length
  change (_, { l with pending := kept [] l.pending }) = (_, l)
  rw [hkept]
  rfl

theorem exists_output (h : i.op.shape.outputs = 1) :
    ∃ v, i.output? = some v ∧ v ∈ i.allOutputs := by
  obtain ⟨v, hv⟩ := List.length_eq_one_iff.mp (i.length_outputs.trans h)
  refine ⟨v, ?_, ?_⟩
  · rw [Instruction.output?, hv]
  · refine List.mem_of_mem_take (i := i.shape.outputs) ?_
    change v ∈ i.outputs
    rw [hv]
    exact List.mem_singleton_self v

/-- Each placeholder takes the next argument, as long as there are some. -/
theorem arguments_fillPlaceholders (parts : List (List Char)) (es : List Expr) :
    (fillPlaceholders parts es).filterMap Piece.argument? = es.take (parts.length - 1) := by
  fun_induction fillPlaceholders parts es with
  | case1 => simp
  | case2 => simp [Piece.argument?]
  | case3 part parts hne ih => simpa [Piece.argument?] using ih
  | case4 part parts e es hne ih =>
    have hlen : parts.length ≠ 0 := by simpa using hne
    obtain ⟨m, hm⟩ := Nat.exists_eq_succ_of_ne_zero hlen
    simp only [Piece.argument?, List.filterMap_cons, List.length_cons, ih]
    simp [hm]

theorem event?_cases (i : Instruction) : i.event? = none ∨ i.event? = some (.computes i.index) ∨
    i.event? = some (.performs i.index) ∨ i.event? = some (.opens i.index) := by
  rw [Instruction.event?, Instruction.isBlockStart_eq]
  cases i.op <;> simp

theorem of_computes (h : i.event? = some (.computes i.index)) :
    i.isBlock = false ∧ i.op.shape.outputs = 1 := by
  rw [Instruction.event?, Instruction.isBlockStart_eq] at h
  rw [Instruction.isBlock, Instruction.isBlockStart_eq, Instruction.isBlockEnd_eq]
  cases hop : i.op <;> rw [hop] at h <;> first | exact ⟨rfl, rfl⟩ | simp at h

theorem of_performs (h : i.event? = some (.performs i.index)) :
    i.isBlock = false ∧ i.op.shape.outputs = 0 := by
  rw [Instruction.event?, Instruction.isBlockStart_eq] at h
  rw [Instruction.isBlock, Instruction.isBlockStart_eq, Instruction.isBlockEnd_eq]
  cases hop : i.op <;> rw [hop] at h <;> first | exact ⟨rfl, rfl⟩ | simp at h

theorem of_opens (h : i.event? = some (.opens i.index)) : i.isBlockStart = true := by
  rw [Instruction.event?, Instruction.isBlockStart_eq] at h
  rw [Instruction.isBlockStart_eq]
  cases hop : i.op <;> rw [hop] at h <;> first | rfl | simp at h

theorem of_silent (h : i.event? = none) : i.isBlockStart = false ∧ i.slots = [] := by
  rw [Instruction.event?, Instruction.isBlockStart_eq] at h
  rw [Instruction.isBlockStart_eq]
  unfold Instruction.slots
  cases hop : i.op <;> rw [hop] at h <;>
    first
    | exact ⟨rfl, rfl⟩
    | simp at h

theorem of_load (h : i.event? = none) (he : i.isBlockEnd = false) : i.op.shape.outputs = 1 := by
  rw [Instruction.event?, Instruction.isBlockStart_eq] at h
  rw [Instruction.isBlockEnd_eq] at he
  cases hop : i.op <;> rw [hop] at h he <;>
    first
    | rfl
    | simp at h he

theorem instruction_eq_load (hevent : i.event? = none) (hend : i.isBlockEnd = false) :
    instruction s i = load s i (i.value []) := by
  unfold instruction Instruction.value
  cases hop : i.op with
  | loadInteger v | loadBigInt v | loadFloat v | loadString v | loadRegExp v | loadBoolean v
  | loadUndefined | loadNull | loadBuiltin path => rfl
  | _ =>
    simp [Instruction.event?, Instruction.isBlockStart_eq, Instruction.isBlockEnd_eq, hop]
      at hevent hend

/-- An instruction that computes a value declares it, unless it binds it right away. -/
theorem instruction_eq_compute (hevent : i.event? = some (.computes i.index))
    (hop : ∀ n, i.op ≠ .construct n) : instruction s i =
      operands s i.index i.slots >>= fun es => compute s i (i.value es) := by
  unfold instruction Instruction.slots Instruction.value
  cases h : i.op with
  | createArray n | callMethod name n | callFunction n | ternaryOperation => rfl
  | getProperty name | getElement index | unaryOperation op | dup => exact bind_operandAs _ _
  | binaryOperation op | compare op => exact bind_pair _ _ _
  | construct n => exact absurd h (hop n)
  | _ => simp [Instruction.event?, Instruction.isBlockStart_eq, h] at hevent

theorem instruction_eq_assign {n : Nat} (hop : i.op = .construct n) (hv : i.output? = some v) :
    instruction s i = operands s i.index i.slots >>= fun es =>
      assign s i.index v (.computed i.index (i.value es)) := by
  unfold instruction Instruction.slots Instruction.value
  rw [hop, hv]

/-- A switch is left before its end is written; a match without a case gets one. -/
theorem run_instruction_endSwitch (hop : i.op = .endSwitch) (l : Lifting) :
    (instruction s i).run l = (do
      if l.switches.head? = some false then
        enter s i.index .caseAny
        exit s i.index
      exit s i.index : Render Unit).run { l with switches := l.switches.tail } := by
  unfold instruction
  rw [hop]
  rfl

/-- An instruction that performs something writes its statement. -/
theorem instruction_eq_emit (hevent : i.event? = some (.performs i.index)) :
    instruction s i = operands s i.index i.slots >>= fun es => emit s i.index (i.statement es) := by
  unfold instruction Instruction.slots Instruction.statement
  cases hop : i.op with
  | nop | loopBreak | loopContinue =>
    rw [operands_nil]
    rfl
  | setProperty name | setElement index | reassign => exact bind_pair _ _ _
  | ret | throwException | print => exact bind_operandAs _ _
  | update op =>
    cases hlogical : op.isLogical <;>
      simp only [hlogical, if_true, Bool.false_eq_true, if_false] <;>
      exact bind_pair _ _ _
  | eval code n => rfl
  | _ => simp [Instruction.event?, Instruction.isBlockStart_eq, hop] at hevent

end Python.Render

end ScriptFuzz
