import ScriptFuzz.Proofs.Python.Instructions

/-!
# Rendering one instruction

An instruction takes the expressions of its inputs from the queue, and then writes something or declares
its output. What that adds is what the language does with the inputs, in the order in which it evaluates
them, and then one event of the instruction itself.
-/

namespace ScriptFuzz

set_option autoImplicit false

open Python Python.Render

namespace Instruction

/-- Things that belong to the inputs, in the order in which the source evaluates the inputs. The right
side of an assignment comes before its target. Raw code drops what has no placeholder. -/
def reading {α : Type} (i : Instruction) (xs : List α) : List α :=
  match i.op with
  | .reassign | .setElement _ => xs.reverse
  | .setProperty name => if isIdentifier name then xs.reverse else xs
  | .update op => if op.isLogical then xs ++ xs.take 1 else xs
  | .eval code _ => xs.take ((cutPlaceholders code.toList).length - 1)
  | _ => xs

/-- The variables that wait after the instruction in the code `c`, if the variables `rest` still wait when
its inputs are taken. Only constants that are used do not empty the queue, and only a value that is used
once and never changes is added to it. -/
def queued (i : Instruction) (c : Code) (rest : List Variable) : List Variable :=
  match i.output?, i.event? with
  | some v, none =>
    if (c.usage v).isSingleAssignment ∧ 0 < (c.usage v).uses then rest else []
  | some v, some (.computes _) =>
    match i.op with
    | .construct _ => []
    | _ => if (c.usage v).isSingleAssignment ∧ (c.usage v).uses = 1 then rest ++ [v] else []
  | _, _ => []

/-- The headers around the instruction, if the headers `path` are around what precedes it. -/
def outerPath (i : Instruction) (path : List Nat) : List Nat :=
  if i.isBlockEnd then path.tail else path

/-- The headers around what follows the instruction. -/
def innerPath (i : Instruction) (path : List Nat) : List Nat :=
  if i.isBlockStart then i.index :: i.outerPath path else i.outerPath path

end Instruction

namespace Python.Render

open Lifting

variable {s : Subject} {l : Lifting} {n k : Nat} {c pre is : Code} {i : Instruction} {e : Expr}

theorem adds_compute (h : l.Valid s is k) (hcode : s.code = pre ++ i :: is)
    (hnum : Code.Numbered k (i :: is)) (hout : i.op.shape.outputs = 1) (hd : e.deferred = []) :
    Adds s is (k + i.allOutputs.length) l ((compute s i e).run l).2
      ((e.trace i.index ++ [Event.computes i.index]).map (Prod.mk l.layout.path))
      l.layout.path := by
  obtain ⟨v, hv, hmem⟩ := exists_output hout
  rw [compute, hv]
  exact adds_declare_computed h hcode hnum hmem hd

theorem adds_load (h : l.Valid s is k) (hnum : Code.Numbered k (i :: is))
    (hout : i.op.shape.outputs = 1) (he : e.isEffectful = false)
    (hsilent : ∀ n, e.trace n = []) (hd : e.deferred = []) :
    Adds s is (k + i.allOutputs.length) l ((load s i e).run l).2 [] l.layout.path := by
  obtain ⟨v, hv, hmem⟩ := exists_output hout
  rw [load, hv]
  exact (adds_declare_constant h hnum hmem he hsilent hd).mono (Nat.le_add_right _ _)

/-- A statement without events may be written although expressions wait. -/
theorem adds_silent (h : l.Valid s c k) (st : Statement) (hd : st.deferred = [])
    (hs : st.trace n = []) : Adds s c k l ((write n st).run l).2 [] l.layout.path := by
  have hm := moves_write (s := s) (n := n) h.sound _ hd
  rw [hs] at hm
  exact h.adds_of_quiet hm rfl (by simp)

theorem adds_declarations (h : l.Valid s c k) (declarations : List (Nat × OuterAssignments)) :
    Adds s c k l { l with declarations := declarations } [] l.layout.path :=
  ⟨⟨h.sound, h.deferred, h.nodup, h.waits, h.once, h.settled⟩, rfl, (List.append_nil _).symm⟩

/-- The declarations of outer variables do nothing. -/
theorem flushes_declareOuter (h : l.Valid s c k) (hp : l.pending = []) :
    Flushes s c k l ((declareOuter s i).run l).2 [] l.layout.path := by
  unfold declareOuter
  rw [run_get_bind]
  split
  · exact ⟨h.adds_refl, hp⟩
  · rename_i outer _
    have hnonlocals {l' : Lifting} (h' : l'.Valid s c k) (hp' : l'.pending = []) :
        Flushes s c k l' ((do if !outer.nonlocals.isEmpty then
          write i.index (.nonlocals (outer.nonlocals.map fun n => s.nameOf ⟨n⟩)) :
          Render Unit).run l').2 [] l'.layout.path := by
      split
      · exact ⟨adds_silent h' _ rfl rfl, hp'⟩
      · exact ⟨h'.adds_refl, hp'⟩
    simp only [run_bind]
    have hfirst := adds_declarations h (l.declarations.filter fun x => x.1 ≠ i.index)
    refine hfirst.flushes ?_
    split
    · have hglobals := adds_silent (n := i.index) hfirst.valid
        (.globals (outer.globals.map fun n => s.nameOf ⟨n⟩)) rfl rfl
      have := hglobals.flushes (hnonlocals hglobals.valid hp)
      rw [hglobals.path] at this
      exact this
    · exact hnonlocals hfirst.valid hp

/-- The names of a body's variables are bound, and the body is entered. -/
theorem flushes_bindNames_enter (h : l.Valid s is k) (hnum : Code.Numbered k (i :: is))
    {vs : List Variable} (hvs : vs ⊆ i.allOutputs) {f : List Name → Header}
    (hd : ∀ names, (f names).deferred = []) {es : List Event}
    (ht : ∀ names, (f names).trace n = es) :
    Flushes s is k l ((bindNames s vs >>= fun names => enter s n (f names)).run l).2
      (es.map (Prod.mk l.layout.path)) (n :: l.layout.path) := by
  have hnames := adds_bindNames h vs fun v hp hv =>
    not_mem_pending h hnum (hvs hv) hp
  have henter := flushes_enter (n := n) hnames.valid _ (hd ((bindNames s vs).run l).1)
  rw [hnames.path, ht] at henter
  exact hnames.flushes henter

theorem outputs_subset : i.outputs ⊆ i.allOutputs := fun _ => List.mem_of_mem_take

theorem innerOutputs_subset : i.innerOutputs ⊆ i.allOutputs := fun _ => List.mem_of_mem_drop

/-- What an instruction does itself, with the headers around it. A match without cases gets a case that
belongs to no instruction. -/
inductive Own (i : Instruction) (path : List Nat) : List (List Nat × Event) → Prop where
  | event : Own i path (i.event?.toList.map (Prod.mk (i.outerPath path)))
  | emptySwitch (h : i.op = .endSwitch) : Own i path [(path, .opens i.index)]

/-- Rendering an instruction takes its inputs from the queue and goes on with `f`, which adds what the
inputs do and then what the instruction does itself. -/
structure Renders (s : Subject) (i : Instruction) (f : List Expr → Render Unit) : Prop where
  run : instruction s i = operands s i.index i.slots >>= f
  adds : ∀ {pre is : Code} {k : Nat} {l : Lifting} {es : List Expr}, s.code = pre ++ i :: is →
    Code.Numbered k (i :: is) → l.Valid s is k → List.Forall₂ (Supplies s i.index l) i.slots es →
    (i.op = .beginSwitchCase → ∀ e ∈ es, e.computations = []) →
    ∃ own, Own i l.layout.path own ∧
      Adds s is (k + i.allOutputs.length) l ((f es).run l).2
        (((i.reading es).flatMap (Expr.trace i.index)).map (Prod.mk l.layout.path) ++ own)
        (i.innerPath l.layout.path) ∧
      ((f es).run l).2.pending = i.queued s.code l.pending

theorem queued_of_performs (h : i.event? = some (.performs i.index)) (rest : List Variable) :
    i.queued c rest = [] := by
  unfold Instruction.queued
  rw [h]
  cases i.output? <;> rfl

theorem queued_of_opens (h : i.event? = some (.opens i.index)) (rest : List Variable) :
    i.queued c rest = [] := by
  unfold Instruction.queued
  rw [h]
  cases i.output? <;> rfl

theorem output?_of_isBlockEnd (h : i.isBlockEnd = true) : i.output? = none := by
  have hout : i.outputs = [] := by
    apply List.eq_nil_of_length_eq_zero
    rw [i.length_outputs]
    rw [Instruction.isBlockEnd_eq] at h
    unfold Instruction.shape
    cases hop : i.op <;> first | rfl | simp [hop] at h
  rw [Instruction.output?, hout]

theorem queued_of_isBlockEnd (h : i.isBlockEnd = true) (rest : List Variable) :
    i.queued c rest = [] := by
  unfold Instruction.queued
  rw [output?_of_isBlockEnd h]

theorem reading_nil {α : Type} (i : Instruction) : i.reading ([] : List α) = [] := by
  unfold Instruction.reading
  split <;> first | rfl | split <;> rfl | simp

theorem innerPath_of_not_isBlock (h : i.isBlock = false) (path : List Nat) :
    i.innerPath path = path := by
  obtain ⟨hs, he⟩ : i.isBlockStart = false ∧ i.isBlockEnd = false := by
    simpa [Instruction.isBlock] using h
  rw [Instruction.innerPath, hs, Instruction.outerPath, he]
  rfl

theorem outerPath_of_not_isBlock (h : i.isBlock = false) (path : List Nat) :
    i.outerPath path = path := by
  have he : i.isBlockEnd = false := by
    simp only [Instruction.isBlock, Bool.or_eq_false_iff] at h
    exact h.2
  rw [Instruction.outerPath, he]
  rfl

/-- An expression that stands for the only input. -/
theorem supplies_one {x : Variable × Slot} {es : List Expr}
    (h : List.Forall₂ (Supplies s n l) [x] es) : ∃ e, es = [e] ∧ Supplies s n l x e := by
  obtain ⟨e, es', he, hnil, rfl⟩ := List.forall₂_cons_left_iff.mp h
  cases hnil
  exact ⟨e, rfl, he⟩

theorem supplies_two {x y : Variable × Slot} {es : List Expr}
    (h : List.Forall₂ (Supplies s n l) [x, y] es) :
    ∃ e e', es = [e, e'] ∧ Supplies s n l x e ∧ Supplies s n l y e' := by
  obtain ⟨e, es', he, hrest, rfl⟩ := List.forall₂_cons_left_iff.mp h
  obtain ⟨e', rfl, he'⟩ := supplies_one hrest
  exact ⟨e, e', rfl, he, he'⟩

theorem supplies_three {x y z : Variable × Slot} {es : List Expr}
    (h : List.Forall₂ (Supplies s n l) [x, y, z] es) :
    ∃ e e' e'', es = [e, e', e''] ∧ Supplies s n l x e ∧ Supplies s n l y e' ∧
      Supplies s n l z e'' := by
  obtain ⟨e, es', he, hrest, rfl⟩ := List.forall₂_cons_left_iff.mp h
  obtain ⟨e', e'', rfl, he', he''⟩ := supplies_two hrest
  exact ⟨e, e', e'', rfl, he, he', he''⟩

theorem supplies_cons {es : List Expr} (h : List.Forall₂ (Supplies s n l) i.slots es)
    (hin : i.op.shape.inputs ≠ 0) : ∃ e es', es = e :: es' := by
  have hlen := h.length_eq
  have hslots := congrArg List.length i.map_fst_slots
  rw [List.length_map, i.length_inputs] at hslots
  cases es with
  | nil => exact absurd (hslots.symm.trans hlen) hin
  | cons e es' => exact ⟨e, es', rfl⟩

theorem supplies_deferred {xs : List (Variable × Slot)} {es : List Expr}
    (h : List.Forall₂ (Supplies s n l) xs es) : es.flatMap Expr.deferred = [] := by
  induction h with
  | nil => rfl
  | cons he _ ih => rw [List.flatMap_cons, he.deferred, ih, List.nil_append]

/-- Where no expression that computes something may stand, and for settled variables, nothing is
computed. -/
theorem supplies_settled {xs : List (Variable × Slot)} {es : List Expr}
    (h : List.Forall₂ (Supplies s n l) xs es)
    (hxs : ∀ x ∈ xs, x.2 ≠ .inline ∨ Settled s x.1 (l.standsFor s x.1)) :
    es.flatMap Expr.computations = [] := by
  induction h with
  | nil => rfl
  | @cons x e xs es he _ ih =>
    rw [List.flatMap_cons, he.settled (hxs x List.mem_cons_self),
      ih fun y hy => hxs y (List.mem_cons_of_mem _ hy), List.nil_append]

/-- The right operand computes nothing where it is evaluated conditionally. -/
theorem deferred_binary {op : BinaryOperator} {l' : Lifting} {x : Variable} {left right : Expr}
    (hl : left.deferred = [])
    (hr : Supplies s n l' (x, if op.isLogical then .settled else .inline) right) :
    (Expr.binary op left right).deferred = [] := by
  rw [Expr.deferred, hl, List.nil_append]
  split
  · rename_i hop
    refine hr.settled (.inl ?_)
    simp [hop]
  · exact hr.deferred

/-! ## Operations that compute a value -/

theorem reading_of_computes {α : Type} (h : i.event? = some (.computes i.index)) (xs : List α) :
    i.reading xs = xs := by
  rw [Instruction.event?, Instruction.isBlockStart_eq] at h
  unfold Instruction.reading
  cases hop : i.op <;> rw [hop] at h <;> first | rfl | simp at h

theorem queued_of_computes (hevent : i.event? = some (.computes i.index)) {v : Variable}
    (hv : i.output? = some v) (hop : ∀ n, i.op ≠ .construct n) (rest : List Variable) :
    i.queued c rest =
      if (c.usage v).isSingleAssignment ∧ (c.usage v).uses = 1 then rest ++ [v] else [] := by
  unfold Instruction.queued
  rw [hevent, hv]
  cases h : i.op <;> first | rfl | exact absurd h (hop _)

/-- What an instruction computes evaluates its inputs in turn. -/
theorem value_of_computes (hevent : i.event? = some (.computes i.index)) {es : List Expr}
    (hes : List.Forall₂ (Supplies s i.index l) i.slots es) :
    (i.value es).deferred = [] ∧ (i.value es).trace i.index = es.flatMap (Expr.trace i.index) := by
  have hd := supplies_deferred hes
  unfold Instruction.value
  cases hop : i.op with
  | createArray n =>
    rw [Expr.deferred, Expr.deferredList_eq, Expr.trace, Expr.traceList_eq]
    exact ⟨hd, rfl⟩
  | callFunction n | construct n | callMethod name n =>
    obtain ⟨e, es', rfl⟩ := supplies_cons hes (by rw [hop]; exact Nat.succ_ne_zero n)
    simp only [List.flatMap_cons, List.append_eq_nil_iff] at hd
    simp [Expr.deferred, Expr.deferredList_eq, Expr.trace, Expr.traceList_eq, hd]
  | getProperty name | getElement index | unaryOperation op =>
    rw [Instruction.slots, hop] at hes
    obtain ⟨e, rfl, he⟩ := supplies_one hes
    simp [Expr.deferred, Expr.trace, he.deferred]
  | dup =>
    rw [Instruction.slots, hop] at hes
    obtain ⟨e, rfl, he⟩ := supplies_one hes
    exact ⟨he.deferred, (List.append_nil _).symm⟩
  | binaryOperation op =>
    rw [Instruction.slots, hop] at hes
    obtain ⟨e, e', rfl, he, he'⟩ := supplies_two hes
    exact ⟨deferred_binary he.deferred he', by simp [Expr.trace]⟩
  | compare op =>
    rw [Instruction.slots, hop] at hes
    obtain ⟨e, e', rfl, he, he'⟩ := supplies_two hes
    simp [Expr.deferred, Expr.trace, he.deferred, he'.deferred]
  | ternaryOperation =>
    rw [Instruction.slots, hop] at hes
    obtain ⟨e, e', e'', rfl, he, he', he''⟩ := supplies_three hes
    simp [Expr.deferred, Expr.trace, he.deferred, he'.settled, he''.settled]
  | _ => simp [Instruction.event?, Instruction.isBlockStart_eq, hop] at hevent

theorem exists_renders_of_computes (hevent : i.event? = some (.computes i.index)) :
    ∃ f, Renders s i f := by
  obtain ⟨hb, hout⟩ := of_computes hevent
  obtain ⟨v, hv, -⟩ := exists_output hout
  by_cases hop : ∃ n, i.op = .construct n
  · obtain ⟨n, hop⟩ := hop
    refine ⟨_, instruction_eq_assign hop hv, ?_⟩
    intro pre is k l es hcode hnum h hes _
    obtain ⟨hd, htrace⟩ := value_of_computes hevent hes
    have := (adds_assign (n := i.index) (v := v) (e := .computed i.index (i.value es)) h hd).mono
      (Nat.le_add_right k i.allOutputs.length)
    rw [Expr.trace, htrace, List.map_append] at this
    refine ⟨_, .event, ?_⟩
    rw [hevent, innerPath_of_not_isBlock hb, outerPath_of_not_isBlock hb, reading_of_computes hevent]
    refine ⟨this, ?_⟩
    rw [Instruction.queued, hevent, hv, hop]
    exact pending_assign (e := .computed i.index (i.value es)) h hd
  · have hne (n : Nat) : i.op ≠ .construct n := fun h => hop ⟨n, h⟩
    refine ⟨_, instruction_eq_compute hevent hne, ?_⟩
    intro pre is k l es hcode hnum h hes _
    obtain ⟨hd, htrace⟩ := value_of_computes hevent hes
    have := adds_compute h hcode hnum hout hd
    rw [htrace, List.map_append] at this
    refine ⟨_, .event, ?_⟩
    rw [hevent, innerPath_of_not_isBlock hb, outerPath_of_not_isBlock hb, reading_of_computes hevent]
    refine ⟨this, ?_⟩
    rw [queued_of_computes hevent hv hne, compute, hv]
    exact pending_declare_computed h hd

/-! ## Operations that perform a statement -/

/-- The statement of an instruction evaluates its inputs in the order of the language. -/
theorem statement_of_performs (hevent : i.event? = some (.performs i.index)) {es : List Expr}
    (hes : List.Forall₂ (Supplies s i.index l) i.slots es) :
    (i.statement es).deferred = [] ∧ (i.statement es).trace i.index =
      (i.reading es).flatMap (Expr.trace i.index) ++ [.performs i.index] := by
  rw [Instruction.slots] at hes
  unfold Instruction.statement Instruction.reading
  cases hop : i.op with
  | nop | loopBreak | loopContinue =>
    rw [hop] at hes
    cases hes
    exact ⟨rfl, rfl⟩
  | setProperty name =>
    rw [hop] at hes
    obtain ⟨e, e', rfl, he, he'⟩ := supplies_two hes
    by_cases hname : isIdentifier name = true <;>
      simp [Statement.deferred, Statement.trace, he.deferred, he'.deferred, hname]
  | setElement index | reassign =>
    rw [hop] at hes
    obtain ⟨e, e', rfl, he, he'⟩ := supplies_two hes
    simp [Statement.deferred, Statement.trace, he.deferred, he'.deferred]
  | ret | throwException | print =>
    rw [hop] at hes
    obtain ⟨e, rfl, he⟩ := supplies_one hes
    simp [Statement.deferred, Statement.trace, he.deferred]
  | update op =>
    rw [hop] at hes
    obtain ⟨e, e', rfl, he, he'⟩ := supplies_two hes
    cases hlogical : op.isLogical with
    | true =>
      have hd := deferred_binary he.deferred he'
      simp [Statement.deferred, Statement.trace, Expr.trace, he.deferred, hd, hlogical]
    | false => simp [Statement.deferred, Statement.trace, he.deferred, he'.deferred, hlogical]
  | eval code n =>
    rw [hop] at hes
    have hsettled := supplies_settled hes (by simp)
    rw [Statement.deferred, Statement.trace, arguments_fillPlaceholders]
    rw [List.flatMap_eq_nil_iff] at hsettled ⊢
    exact ⟨fun e he => hsettled e (List.mem_of_mem_take he), rfl⟩
  | _ => simp [Instruction.event?, Instruction.isBlockStart_eq, hop] at hevent

theorem exists_renders_of_performs (hevent : i.event? = some (.performs i.index)) :
    ∃ f, Renders s i f := by
  have hb := (of_performs hevent).1
  refine ⟨_, instruction_eq_emit hevent, ?_⟩
  intro pre is k l es hcode hnum h hes _
  obtain ⟨hd, htrace⟩ := statement_of_performs hevent hes
  refine ⟨_, .event, ?_⟩
  have := (adds_emit (n := i.index) h _ hd).mono (Nat.le_add_right k i.allOutputs.length)
  rw [htrace, List.map_append] at this
  rw [hevent, innerPath_of_not_isBlock hb, outerPath_of_not_isBlock hb]
  exact ⟨this, (pending_emit h _ hd).trans (queued_of_performs hevent _).symm⟩

/-! ## Operations that load a constant -/

/-- A constant is evaluated without an event. -/
theorem value_of_load (hevent : i.event? = none) : (i.value []).isEffectful = false ∧
    (∀ n, (i.value []).trace n = []) ∧ (i.value []).deferred = [] := by
  unfold Instruction.value
  cases hop : i.op <;>
    first
    | exact ⟨rfl, fun _ => rfl, rfl⟩
    | simp [Instruction.event?, hop] at hevent

theorem exists_renders_of_load (hevent : i.event? = none) (hend : i.isBlockEnd = false) :
    ∃ f, Renders s i f := by
  obtain ⟨hs, hslots⟩ := of_silent hevent
  obtain ⟨he, hsilent, hd⟩ := value_of_load hevent
  have hout := of_load hevent hend
  have hb : i.isBlock = false := by
    rw [Instruction.isBlock, hs, hend]
    rfl
  refine ⟨fun _ => load s i (i.value []), ?_, ?_⟩
  · rw [instruction_eq_load hevent hend, hslots, operands_nil]
    rfl
  · intro pre is k l es hcode hnum h hes _
    rw [hslots] at hes
    cases hes
    refine ⟨_, .event, ?_⟩
    rw [hevent, innerPath_of_not_isBlock hb, reading_nil]
    refine ⟨adds_load h hnum hout he hsilent hd, ?_⟩
    obtain ⟨v, hv, -⟩ := exists_output hout
    rw [Instruction.queued, hevent, hv, load, hv]
    exact pending_declare_constant h he hd

/-! ## Operations that start and end blocks -/

theorem reading_of_opens {α : Type} (h : i.event? = some (.opens i.index)) (xs : List α) :
    i.reading xs = xs := by
  rw [Instruction.event?, Instruction.isBlockStart_eq] at h
  unfold Instruction.reading
  cases hop : i.op <;> rw [hop] at h <;> first | rfl | simp at h

/-- A header that holds the inputs, in a block that does not end another. -/
theorem renders_header (f : List Expr → Render Unit) (header : List Expr → Header)
    (hevent : i.event? = some (.opens i.index)) (hend : i.isBlockEnd = false)
    (hrun : instruction s i = operands s i.index i.slots >>= f)
    (hflushes : ∀ {is : Code} {k : Nat} {l : Lifting} {es : List Expr}, l.Valid s is k →
      Code.Numbered k (i :: is) → (header es).deferred = [] →
      Flushes s is k l ((f es).run l).2
        (((header es).trace i.index).map (Prod.mk l.layout.path)) (i.index :: l.layout.path))
    (hf : ∀ {l : Lifting} {es : List Expr}, List.Forall₂ (Supplies s i.index l) i.slots es →
      (i.op = .beginSwitchCase → ∀ e ∈ es, e.computations = []) →
      (header es).deferred = [] ∧ (header es).trace i.index =
        es.flatMap (Expr.trace i.index) ++ [.opens i.index]) :
    ∃ f, Renders s i f := by
  have hs := of_opens hevent
  refine ⟨f, hrun, ?_⟩
  intro pre is k l es hcode hnum h hes hcase
  obtain ⟨hd, htrace⟩ := hf hes hcase
  refine ⟨_, .event, ?_⟩
  have := (hflushes h hnum hd).mono (Nat.le_add_right k i.allOutputs.length)
  rw [htrace, List.map_append] at this
  rw [hevent, Instruction.innerPath, hs, Instruction.outerPath, hend,
      reading_of_opens hevent]
  exact ⟨this.toAdds, this.empty.trans (queued_of_opens hevent _).symm⟩

/-- A block that ends another. -/
theorem renders_section {f : Render Unit} (hevent : i.event? = some (.opens i.index))
    (hend : i.isBlockEnd = true) (hslots : i.slots = [])
    (hrun : instruction s i = exit s i.index >>= fun _ => f)
    (hflushes : ∀ {is : Code} {k : Nat} {l : Lifting}, l.Valid s is k →
      Code.Numbered k (i :: is) → Flushes s is k l (f.run l).2
        [(l.layout.path, .opens i.index)] (i.index :: l.layout.path)) :
    ∃ f, Renders s i f := by
  have hs := of_opens hevent
  refine ⟨fun _ => instruction s i, ?_, ?_⟩
  · rw [hslots, operands_nil]
    rfl
  · intro pre is k l es hcode hnum h hes _
    rw [hslots] at hes
    cases hes
    refine ⟨_, .event, ?_⟩
    have hexit := flushes_exit (n := i.index) h
    have := (hexit.flushes (hflushes hexit.valid hnum)).mono
      (Nat.le_add_right k i.allOutputs.length)
    rw [hexit.path] at this
    rw [hevent, Instruction.innerPath, hs, Instruction.outerPath, hend,
      reading_of_opens hevent, hrun]
    exact ⟨this.toAdds, this.empty.trans (queued_of_opens hevent _).symm⟩

theorem adds_switches (h : l.Valid s c k) (switches : List Bool) :
    Adds s c k l { l with switches := switches } [] l.layout.path :=
  ⟨⟨h.sound, h.deferred, h.nodup, h.waits, h.once, h.settled⟩, rfl, (List.append_nil _).symm⟩

/-- Entering a block after a change to the open switches. -/
theorem flushes_switches_enter (h : l.Valid s c k) (switches : List Bool) {header : Header}
    (hd : header.deferred = []) :
    Flushes s c k l ((enter s n header).run { l with switches := switches }).2
      ((header.trace n).map (Prod.mk l.layout.path)) (n :: l.layout.path) :=
  (adds_switches h switches).flushes (flushes_enter (adds_switches h switches).valid _ hd)

/-- The names of a body's variables are bound, and the body starts with declarations. -/
theorem flushes_bindNames_enter_declareOuter (h : l.Valid s is k) (hnum : Code.Numbered k (i :: is))
    {vs : List Variable} (hvs : vs ⊆ i.allOutputs) {f : List Name → Header}
    (hd : ∀ names, (f names).deferred = []) {es : List Event}
    (ht : ∀ names, (f names).trace n = es) :
    Flushes s is k l ((do
        let names ← bindNames s vs
        enter s n (f names)
        declareOuter s i : Render Unit).run l).2
      (es.map (Prod.mk l.layout.path)) (n :: l.layout.path) := by
  have henter := flushes_bindNames_enter (n := n) h hnum hvs hd ht
  have := henter.flushes (flushes_declareOuter (i := i) henter.valid henter.empty)
  rw [henter.path, List.append_nil] at this
  exact this

theorem renders_plain_header {f : Render Unit} (header : Header)
    (hevent : i.event? = some (.opens i.index)) (hend : i.isBlockEnd = false)
    (hslots : i.slots = []) (hrun : instruction s i = f)
    (hd : header.deferred = []) (htrace : header.trace i.index = [.opens i.index])
    (hflushes : ∀ {is : Code} {k : Nat} {l : Lifting}, l.Valid s is k → Code.Numbered k (i :: is) →
      Flushes s is k l (f.run l).2 ((header.trace i.index).map (Prod.mk l.layout.path))
        (i.index :: l.layout.path)) : ∃ f, Renders s i f := by
  refine renders_header (fun _ => f) (fun _ => header) hevent hend ?_ ?_ ?_
  · rw [hrun, hslots, operands_nil]
    rfl
  · intro is k l es h hnum _
    exact hflushes h hnum
  · intro l es hes _
    rw [hslots] at hes
    cases hes
    exact ⟨hd, htrace⟩

theorem renders_function {n : Nat} (hop : i.op = .beginPlainFunction n)
    (hevent : i.event? = some (.opens i.index)) (hend : i.isBlockEnd = false) :
    ∃ f, Renders s i f := by
  refine renders_plain_header (.function (s.nameOf default) []) hevent hend ?_ rfl rfl
    rfl ?_
  · rw [Instruction.slots, hop]
  · intro is k l h hnum
    unfold instruction
    rw [hop]
    have hnames := adds_bindNames h i.innerOutputs fun v hp hv =>
      not_mem_pending h hnum (innerOutputs_subset hv) hp
    have := flushes_bindNames_enter_declareOuter (n := i.index) hnames.valid hnum outputs_subset
      (f := fun names => .function (names.headD (s.nameOf default))
        ((bindNames s i.innerOutputs).run l).1) (fun _ => rfl) (fun _ => rfl)
    rw [hnames.path] at this
    exact hnames.flushes this

theorem renders_class {superclass : Bool} (hop : i.op = .beginClassDefinition superclass)
    (hevent : i.event? = some (.opens i.index)) (hend : i.isBlockEnd = false) :
    ∃ f, Renders s i f := by
  refine renders_header (fun es => do
      let names ← bindNames s i.outputs
      enter s i.index (.classBody (names.headD (s.nameOf default)) es.head?))
    (fun es => .classBody (s.nameOf default) es.head?) hevent hend ?_ ?_ ?_
  · unfold instruction Instruction.slots
    rw [hop]
    rfl
  · intro is k l es h hnum hd
    exact flushes_bindNames_enter (n := i.index) h hnum outputs_subset
      (f := fun names => .classBody (names.headD (s.nameOf default)) es.head?) (fun _ => hd)
      (fun _ => rfl)
  · intro l es hes _
    have hd := supplies_deferred hes
    have hlen : es.length ≤ 1 := by
      have hslots := congrArg List.length i.map_fst_slots
      rw [List.length_map, i.length_inputs, Instruction.shape, hop] at hslots
      rw [← hes.length_eq, hslots, Operation.shape]
      split <;> simp
    rcases es with _ | ⟨e, _ | ⟨e', es⟩⟩
    · simp [Header.deferred, Header.trace]
    · simpa [Header.deferred, Header.trace] using hd
    · simp at hlen

theorem exists_renders_of_starts (hevent : i.event? = some (.opens i.index))
    (hend : i.isBlockEnd = false) : ∃ f, Renders s i f := by
  cases hop : i.op with
  | beginPlainFunction n => exact renders_function hop hevent hend
  | beginClassMethod name n =>
    refine renders_plain_header (.method name []) hevent hend ?_ rfl rfl rfl ?_
    · rw [Instruction.slots, hop]
    · intro is k l h hnum
      unfold instruction
      rw [hop]
      exact flushes_bindNames_enter_declareOuter h hnum innerOutputs_subset (fun _ => rfl)
        (fun _ => rfl)
  | beginTry =>
    refine renders_plain_header .tryBlock hevent hend ?_ rfl rfl rfl ?_
    · rw [Instruction.slots, hop]
    · intro is k l h _
      unfold instruction
      rw [hop]
      exact flushes_enter h _ rfl
  | beginSwitchDefaultCase =>
    refine renders_plain_header .caseAny hevent hend ?_ rfl rfl rfl ?_
    · rw [Instruction.slots, hop]
    · intro is k l h _
      unfold instruction
      rw [hop]
      exact flushes_switches_enter h _ rfl
  | beginIf inverted =>
    refine renders_header (fun es => enter s i.index
        (if inverted then .ifFalse (es.headD .none) else .ifTrue (es.headD .none)))
      (fun es => if inverted then .ifFalse (es.headD .none) else .ifTrue (es.headD .none))
      hevent hend ?_ ?_ ?_
    · unfold instruction Instruction.slots
      rw [hop]
      exact bind_operandAs _ _
    · intro is k l es h _ hd
      exact flushes_enter h _ hd
    · intro l es hes _
      rw [Instruction.slots, hop] at hes
      obtain ⟨e, rfl, he⟩ := supplies_one hes
      cases inverted <;> simp [Header.deferred, Header.trace, he.deferred]
  | beginWhileLoop op =>
    refine renders_header
      (fun es => enter s i.index (.whileLoop op (es.headD .none) ((es[1]?).getD .none)))
      (fun es => .whileLoop op (es.headD .none) ((es[1]?).getD .none)) hevent hend ?_ ?_ ?_
    · unfold instruction Instruction.slots
      rw [hop]
      exact bind_pair _ _ _
    · intro is k l es h _ hd
      exact flushes_enter h _ hd
    · intro l es hes _
      rw [Instruction.slots, hop] at hes
      obtain ⟨e, e', rfl, he, he'⟩ := supplies_two hes
      simp [Header.deferred, Header.trace, he.settled, he'.settled]
  | beginForLoop =>
    refine renders_header (fun es => do
        let counters ← bindNames s i.innerOutputs
        enter s i.index (.forLoop (counters.headD (s.nameOf default)) es))
      (fun es => .forLoop (s.nameOf default) es) hevent hend ?_ ?_ ?_
    · unfold instruction Instruction.slots
      rw [hop]
      rfl
    · intro is k l es h hnum hd
      exact flushes_bindNames_enter (n := i.index) h hnum innerOutputs_subset
        (f := fun counters => .forLoop (counters.headD (s.nameOf default)) es) (fun _ => hd)
        (fun _ => rfl)
    · intro l es hes _
      rw [Header.deferred, Header.trace, Expr.deferredList_eq, Expr.traceList_eq,
        supplies_deferred hes]
      exact ⟨rfl, rfl⟩
  | beginSwitch =>
    refine renders_header (fun es => do
        modify fun l => { l with switches := false :: l.switches }
        enter s i.index (.matching (es.headD .none)))
      (fun es => .matching (es.headD .none)) hevent hend ?_ ?_ ?_
    · unfold instruction Instruction.slots
      rw [hop]
      exact bind_operandAs _ _
    · intro is k l es h _ hd
      exact flushes_switches_enter h _ hd
    · intro l es hes _
      rw [Instruction.slots, hop] at hes
      obtain ⟨e, rfl, he⟩ := supplies_one hes
      simp [Header.deferred, Header.trace, he.deferred]
  | beginSwitchCase =>
    refine renders_header (fun es => do
        markCase
        enter s i.index (.caseEqual (.capture i.index) (es.headD .none)))
      (fun es => .caseEqual (.capture i.index) (es.headD .none)) hevent hend ?_ ?_ ?_
    · unfold instruction Instruction.slots
      rw [hop]
      rfl
    · intro is k l es h _ hd
      exact flushes_switches_enter h _ hd
    · intro l es hes hcase
      rw [Instruction.slots, hop] at hes
      obtain ⟨e, rfl, he⟩ := supplies_one hes
      have := hcase hop e (List.mem_singleton_self e)
      simp [Header.deferred, Header.trace, this]
  | beginClassDefinition superclass => exact renders_class hop hevent hend
  | _ =>
    simp [Instruction.event?, Instruction.isBlockStart_eq, Instruction.isBlockEnd_eq, hop]
      at hevent hend

theorem exists_renders_of_continues (hevent : i.event? = some (.opens i.index))
    (hend : i.isBlockEnd = true) : ∃ f, Renders s i f := by
  cases hop : i.op with
  | beginElse =>
    refine renders_section (f := enter s i.index .otherwise) hevent hend ?_ ?_ ?_
    · rw [Instruction.slots, hop]
    · unfold instruction
      rw [hop]
    · intro is k l h _
      exact flushes_enter h _ rfl
  | beginFinally =>
    refine renders_section (f := enter s i.index .finallyBlock) hevent hend ?_ ?_ ?_
    · rw [Instruction.slots, hop]
    · unfold instruction
      rw [hop]
    · intro is k l h _
      exact flushes_enter h _ rfl
  | beginCatch =>
    refine renders_section (f := do
      let errors ← bindNames s i.innerOutputs
      enter s i.index (.exceptBlock (errors.headD (s.nameOf default)))) hevent hend ?_ ?_ ?_
    · rw [Instruction.slots, hop]
    · unfold instruction
      rw [hop]
    · intro is k l h hnum
      exact flushes_bindNames_enter h hnum innerOutputs_subset (fun _ => rfl) (fun _ => rfl)
  | _ =>
    simp [Instruction.event?, Instruction.isBlockStart_eq, Instruction.isBlockEnd_eq, hop]
      at hevent hend

theorem exists_renders_of_ends (hevent : i.event? = none) (hend : i.isBlockEnd = true) :
    ∃ f, Renders s i f := by
  obtain ⟨hs, hslots⟩ := of_silent hevent
  refine ⟨fun _ => instruction s i, ?_, ?_⟩
  · rw [hslots, operands_nil]
    rfl
  intro pre is k l es hcode hnum h hes _
  rw [hslots] at hes
  cases hes
  rw [Instruction.innerPath, hs, Instruction.outerPath, hend, reading_nil]
  have hk := Nat.le_add_right k i.allOutputs.length
  have hown : Own i l.layout.path [] := by
    have : Own i l.layout.path _ := .event
    rw [hevent] at this
    exact this
  cases hop : i.op with
  | endPlainFunction | endIf | endWhileLoop | endForLoop | endTryCatchFinally | endSwitchCase
  | endClassMethod | endClassDefinition =>
    refine ⟨[], hown, ?_⟩
    unfold instruction
    rw [hop]
    exact ⟨(flushes_exit h).toAdds.mono hk,
      (flushes_exit h).empty.trans (queued_of_isBlockEnd hend _).symm⟩
  | endSwitch =>
    have hleft := adds_switches h l.switches.tail
    rw [run_instruction_endSwitch hop]
    split
    · -- The match has no case, and gets one.
      have henter := hleft.flushes (flushes_enter (n := i.index) hleft.valid .caseAny rfl)
      have hexit := henter.flushes (flushes_exit (n := i.index) henter.valid)
      have := (hexit.flushes (flushes_exit (n := i.index) hexit.valid)).mono hk
      rw [hexit.path, henter.path] at this
      exact ⟨_, .emptySwitch hop, this.toAdds, this.empty.trans (queued_of_isBlockEnd hend _).symm⟩
    · have := (hleft.flushes (flushes_exit (n := i.index) hleft.valid)).mono hk
      exact ⟨[], hown, this.toAdds, this.empty.trans (queued_of_isBlockEnd hend _).symm⟩
  | _ =>
    simp [Instruction.event?, Instruction.isBlockStart_eq, Instruction.isBlockEnd_eq, hop]
      at hevent hend

theorem of_event? {x : Event} (h : i.event? = some x) : x = .computes i.index ∨
    x = .performs i.index ∨ x = .opens i.index ∧ i.isBlockStart = true := by
  rcases event?_cases i with hevent | hevent | hevent | hevent
  · rw [hevent] at h
    cases h
  · exact .inl (Option.some.inj (h.symm.trans hevent))
  · exact .inr (.inl (Option.some.inj (h.symm.trans hevent)))
  · exact .inr (.inr ⟨Option.some.inj (h.symm.trans hevent), of_opens hevent⟩)

/-- Nothing waits after the start or the end of a block. -/
theorem queued_of_isBlock (h : i.isBlock = true) (rest : List Variable) :
    i.queued c rest = [] := by
  rcases event?_cases i with hevent | hevent | hevent | hevent
  · rw [Instruction.isBlock, (of_silent hevent).1] at h
    exact queued_of_isBlockEnd h rest
  · rw [(of_computes hevent).1] at h
    cases h
  · rw [(of_performs hevent).1] at h
    cases h
  · exact queued_of_opens hevent rest

/-- Every instruction is rendered so. -/
theorem exists_renders (s : Subject) (i : Instruction) : ∃ f, Renders s i f := by
  rcases event?_cases i with hevent | hevent | hevent | hevent
  · cases hend : i.isBlockEnd with
    | false => exact exists_renders_of_load hevent hend
    | true => exact exists_renders_of_ends hevent hend
  · exact exists_renders_of_computes hevent
  · exact exists_renders_of_performs hevent
  · cases hend : i.isBlockEnd with
    | false => exact exists_renders_of_starts hevent hend
    | true => exact exists_renders_of_continues hevent hend

end Python.Render

end ScriptFuzz
