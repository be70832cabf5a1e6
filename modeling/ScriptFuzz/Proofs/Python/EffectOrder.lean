import ScriptFuzz.Proofs.Python.Steps

/-!
# The order of effects

`Code.schedule` is what the instructions of checked code do, one after the other. `Program.layout_trace`
says that the lines of the source do the same: writing expressions in the places of variables changes
neither the order of effects nor the blocks in which they happen.
-/

namespace ScriptFuzz

set_option autoImplicit false

open Python Python.Render Python.Lifting

/-- Whether an event is one of the program's. Reading a variable has no effect, and the case of a match
without cases is the source's own. -/
def Code.expects (is : Code) : Python.Event → Bool
  | .reads _ _ => false
  | .opens n => (is[n]?).any Instruction.isBlockStart
  | .computes _ | .performs _ => true

/-- What instructions do, one after the other, each with the blocks around it. -/
def Code.schedule (path : List Nat) : Code → List (List Nat × Python.Event)
  | [] => []
  | i :: is => i.event?.toList.map (Prod.mk (i.outerPath path)) ++ schedule (i.innerPath path) is

/-- The blocks that are open after some instructions. -/
def Code.pathAfter (path : List Nat) (c : Code) : List Nat :=
  c.foldl (fun path i => i.innerPath path) path

/-- The variables that wait after the instructions `a` of the code `c`, if `pending` wait before them. -/
def Code.queueAfter (c : Code) (pending : List Variable) (a : Code) : List Variable :=
  a.foldl (fun pending i => i.queued c (kept i.slots pending)) pending

namespace Instruction

theorem map_reading {α β : Type} (i : Instruction) (f : α → β) (xs : List α) :
    (i.reading xs).map f = i.reading (xs.map f) := by
  unfold reading
  split
  all_goals try split
  all_goals simp

theorem mem_of_mem_reading {α : Type} (i : Instruction) {x : α} {xs : List α}
    (h : x ∈ i.reading xs) : x ∈ xs := by
  unfold reading at h
  split at h
  · exact List.mem_reverse.mp h
  · exact List.mem_reverse.mp h
  · split at h
    · exact List.mem_reverse.mp h
    · exact h
  · split at h
    · rcases List.mem_append.mp h with h | h
      · exact h
      · exact List.mem_of_mem_take h
    · exact h
  · exact List.mem_of_mem_take h
  · exact h

/-- The order of evaluation keeps the inline inputs in order. -/
theorem filter_reading_slots (i : Instruction) {q : Variable × Slot → Bool}
    (hq : ∀ x, q x = true → x.2 = .inline) : (i.reading i.slots).filter q = i.slots.filter q := by
  have hnot (v : Variable) {slot : Slot} (h : slot ≠ .inline) : q (v, slot) = false := by
    cases hx : q (v, slot) with
    | false => rfl
    | true => exact absurd (hq _ hx) h
  unfold reading slots
  cases hop : i.op with
  | reassign | setElement _ => simp [List.filter_cons, hnot]
  | setProperty name =>
    by_cases hname : isIdentifier name = true <;> simp [hname, List.filter_cons, hnot]
  | update op => cases hlogical : op.isLogical <;> simp [hlogical, List.filter_cons, hnot]
  | eval code n =>
    have (xs : List Variable) : (xs.map fun v => (v, Slot.settled)).filter q = [] := by
      rw [List.filter_eq_nil_iff]
      simp [hnot]
    change ((i.inputs.map fun v => (v, Slot.settled)).take _).filter q =
      (i.inputs.map fun v => (v, Slot.settled)).filter q
    rw [← List.map_take, this, this]
  | _ => rfl

end Instruction

namespace Python.Render

variable {s : Subject} {l : Lifting} {n k : Nat} {c pre is : Code} {i : Instruction}

/-- What the operands do, in the order in which they are evaluated. -/
theorem trace_reading {es : List Expr} (h : List.Forall₂ (Supplies s n l) i.slots es) :
    (i.reading es).flatMap (Expr.trace n) =
      (i.reading i.slots).flatMap fun x => (l.standsFor s x.1).trace n := by
  have hmap {xs : List (Variable × Slot)} {es : List Expr}
      (h : List.Forall₂ (Supplies s n l) xs es) :
      es.map (Expr.trace n) = xs.map fun x => (l.standsFor s x.1).trace n := by
    induction h with
    | nil => rfl
    | cons he _ ih => rw [List.map_cons, List.map_cons, he.trace, ih]
  rw [List.flatMap_def, List.flatMap_def, i.map_reading, i.map_reading, hmap h]

/-- An instruction takes its inputs from the queue, and adds what they do and what it does itself. -/
theorem exists_step (h : l.Valid s (i :: is) k) (hcode : s.code = pre ++ i :: is)
    (hnum : Code.Numbered k (i :: is)) (hcase : i.op = .beginSwitchCase → l.pending = []) :
    ∃ l₁ es own, Taken s i.index k is l i.slots es l₁ ∧ Own i l.layout.path own ∧
      Adds s is (k + i.allOutputs.length) l₁ ((instruction s i).run l).2
        (((i.reading i.slots).flatMap fun x => (l₁.standsFor s x.1).trace i.index).map
          (Prod.mk l.layout.path) ++ own) (i.innerPath l.layout.path) ∧
      ((instruction s i).run l).2.pending = i.queued s.code (kept i.slots l.pending) := by
  obtain ⟨f, hf⟩ := exists_renders s i
  have htaken := taken_operands (n := i.index) h i.map_fst_slots
  have hsettled (hop : i.op = .beginSwitchCase) :
      ∀ e ∈ ((operands s i.index i.slots).run l).1, e.computations = [] := by
    have hnil : inPlace i.slots l.pending = [] := by
      rw [hcase hop, inPlace, List.drop_nil]
    rw [← List.flatMap_eq_nil_iff]
    refine supplies_settled htaken.supplies fun x hx => .inr ?_
    exact htaken.settled x.1 (List.mem_map_of_mem hx) (by simp [hnil])
  obtain ⟨own, hown, hadds, hpending⟩ := hf.adds hcode hnum htaken.valid htaken.supplies hsettled
  refine ⟨_, _, own, htaken, htaken.path ▸ hown, ?_, ?_⟩
  · rw [hf.run, run_bind, ← trace_reading htaken.supplies]
    rw [htaken.path] at hadds
    exact hadds
  · rw [hf.run, run_bind, ← htaken.pending]
    exact hpending

theorem flatMap_eq_flatMap_filter {α β : Type} {xs : List α} {q : α → Bool} {g : α → List β}
    (h : ∀ x ∈ xs, q x = false → g x = []) : xs.flatMap g = (xs.filter q).flatMap g := by
  induction xs with
  | nil => rfl
  | cons x xs ih =>
    rw [List.flatMap_cons, ih fun y hy => h y (List.mem_cons_of_mem _ hy), List.filter_cons]
    cases hx : q x with
    | true => rw [if_pos rfl, List.flatMap_cons]
    | false =>
      rw [h x List.mem_cons_self hx, if_neg (by simp)]
      rfl

/-- A waiting variable is an input at most once. -/
theorem count_le_one (h : l.Valid s (i :: is) k) :
    ∀ v ∈ l.pending, (i.slots.map Prod.fst).count v ≤ 1 := by
  intro v hv
  have := (h.once v hv).1
  rw [i.map_fst_slots]
  rw [Code.uses_cons] at this
  omega

/-- Apart from what the instruction reads itself, its operands do what the expressions do that it takes
from the queue, in the same order. -/
theorem filter_operands {l₁ : Lifting} {es : List Expr} {P : List Nat × Event → Bool}
    {path : List Nat} (h : l.Valid s (i :: is) k)
    (ht : Taken s i.index k is l i.slots es l₁) (hP : ∀ v, P (path, .reads i.index v) = false) :
    (((i.reading i.slots).flatMap fun x => (l₁.standsFor s x.1).trace i.index).map
      (Prod.mk path)).filter P =
    ((l₁.traceOf s (inPlace i.slots l.pending)).map (Prod.mk path)).filter P := by
  have honce := count_le_one h
  -- What is in the queue and stands where any expression may stand.
  let q (x : Variable × Slot) : Bool :=
    x.2 = .inline && (inPlace i.slots l.pending).contains x.1
  have hq (x : Variable × Slot) (hx : q x = true) :
      x.2 = .inline ∧ x.1 ∈ inPlace i.slots l.pending := by
    simpa [q] using hx
  have hsettled : ∀ x ∈ i.reading i.slots, q x = false →
      (((l₁.standsFor s x.1).trace i.index).map (Prod.mk path)).filter P = [] := by
    intro x hx hqx
    have hx' := i.mem_of_mem_reading hx
    have hnot : x.1 ∉ inPlace i.slots l.pending := by
      intro hin
      have hslot := slot_of_inPlace (honce x.1 (List.mem_of_mem_drop hin)) hx' hin
      simp [q, hslot, hin] at hqx
    have hs := ht.settled x.1 (List.mem_map_of_mem hx') hnot
    generalize l₁.standsFor s x.1 = e at hs
    cases hs with
    | named => simp [Expr.trace, Subject.nameOf, Name.trace, hP]
    | constant _ silent _ => simp [silent]
  have htaken : ∀ x ∈ i.slots.filter q,
      (l₁.standsFor s x.1).trace i.index = (l₁.standsFor s x.1).trace 0 := by
    intro x hx
    obtain ⟨m, e, he, -⟩ := ht.waits x.1 (hq x (List.mem_filter.mp hx).2).2
    rw [he]
    rfl
  have hinPlace : (i.slots.filter q).map Prod.fst = inPlace i.slots l.pending :=
    filter_inPlace honce
  rw [List.map_flatMap, List.filter_flatMap, flatMap_eq_flatMap_filter hsettled,
    i.filter_reading_slots fun x hx => (hq x hx).1, ← hinPlace, traceOf, List.flatMap_map,
    List.map_flatMap, List.filter_flatMap]
  refine List.flatMap_congr ?_
  intro x hx
  rw [htaken x hx]

/-- Among the events other than the reads of the instruction, rendering adds what it does itself. -/
theorem filter_step {P : List Nat × Event → Bool} (h : l.Valid s (i :: is) k)
    (hcode : s.code = pre ++ i :: is) (hnum : Code.Numbered k (i :: is))
    (hcase : i.op = .beginSwitchCase → l.pending = [])
    (hreads : ∀ path v, P (path, .reads i.index v) = false)
    (hopens : i.op = .endSwitch → ∀ path, P (path, .opens i.index) = false) :
    let l' := ((instruction s i).run l).2
    l'.Valid s is (k + i.allOutputs.length) ∧ l'.layout.path = i.innerPath l.layout.path ∧
      l'.pending = i.queued s.code (kept i.slots l.pending) ∧
      (l'.trace s).filter P = (l.trace s).filter P ++
        (i.event?.toList.map (Prod.mk (i.outerPath l.layout.path))).filter P := by
  obtain ⟨l₁, es, own, htaken, hown, hadds, hpending⟩ := exists_step h hcode hnum hcase
  refine ⟨hadds.valid, hadds.path, hpending, ?_⟩
  rw [hadds.trace, htaken.trace, List.filter_append, List.filter_append, List.filter_append,
    filter_operands h htaken (hreads _), List.append_assoc]
  congr 2
  cases hown with
  | event => rfl
  | emptySwitch hop =>
    rw [List.filter_cons, hopens hop]
    simp [Instruction.event?, Instruction.isBlockStart_eq, hop]

/-- The state of the check and that of rendering between two instructions. -/
structure Agrees (s : Subject) (p : Code.Progress) (rest : Code) (l : Lifting) : Prop where
  balanced : p.Balanced
  separates : p.SeparatesSwitches
  numbered : Code.Numbered p.next rest
  valid : l.Valid s rest p.next
  /-- Nothing waits where only cases may stand. -/
  waiting : l.pending ≠ [] → p.context.switchBlock = false

variable {p q : Code.Progress}

theorem Agrees.not_waiting (h : Agrees s p (i :: is) l) (ha : p.Admits n i)
    (hop : i.op = .beginSwitchCase) : l.pending = [] := by
  by_contra hne
  have hcontext := ha.context
  rw [Context.contains_eq, Instruction.shape, Operation.requires_eq, hop] at hcontext
  simp [Context.ofList, Context.ofPredicate, h.waiting hne] at hcontext

theorem Agrees.step {P : List Nat × Event → Bool} (h : Agrees s p (i :: is) l)
    (ha : p.Admits n i) (hcode : s.code = pre ++ i :: is)
    (hreads : ∀ path v, P (path, .reads i.index v) = false)
    (hopens : i.op = .endSwitch → ∀ path, P (path, .opens i.index) = false) :
    let l' := ((instruction s i).run l).2
    Agrees s (p.after i) is l' ∧ l'.layout.path = i.innerPath l.layout.path ∧
      l'.pending = i.queued s.code (kept i.slots l.pending) ∧
      (l'.trace s).filter P = (l.trace s).filter P ++
        (i.event?.toList.map (Prod.mk (i.outerPath l.layout.path))).filter P := by
  obtain ⟨hvalid, hpath, hpending, htrace⟩ :=
    filter_step h.valid hcode h.numbered (h.not_waiting ha) hreads hopens
  refine ⟨⟨h.balanced.after ha, h.separates.after, h.numbered.2.2, hvalid, ?_⟩, hpath, hpending,
    htrace⟩
  intro hne
  have hi : i.isBlock = false := by
    cases hb : i.isBlock with
    | false => rfl
    | true => exact absurd (hpending.trans (queued_of_isBlock hb _)) hne
  have hcontexts : p.contexts ≠ [] := by
    intro hnil
    have := h.balanced.contexts
    rw [hnil, List.length_nil] at this
    omega
  have hsame : (p.after i).context = p.context := by
    obtain ⟨hs, he⟩ : i.isBlockStart = false ∧ i.isBlockEnd = false := by
      simpa [Instruction.isBlock] using hi
    simp [Code.Progress.after, Code.Progress.context, Code.Progress.outerContexts, hs, he]
  rw [hsame]
  exact h.separates.switchBlock_eq_false ha hcontexts hi

/-- Writes a comment if comments are wanted. -/
def note (wanted : Bool) (text : Option String) : Render Unit :=
  match wanted, text with
  | true, some text => comment text
  | _, _ => return ()

/-- A comment changes nothing but the lines. -/
theorem Agrees.noted (h : Agrees s p c l) (wanted : Bool) (text : Option String) :
    let l' := ((note wanted text).run l).2
    Agrees s p c l' ∧ l'.layout.path = l.layout.path ∧ l'.pending = l.pending ∧
      l'.trace s = l.trace s := by
  unfold note
  split
  · rename_i text
    have hadds := adds_comment h.valid text
    refine ⟨{ h with valid := hadds.valid }, hadds.path, rfl, ?_⟩
    rw [hadds.trace, List.append_nil]
  · exact ⟨h, rfl, rfl, rfl⟩

/-- Renders instructions, with their comments if these are wanted. -/
def instructions (s : Subject) (wanted : Bool) (texts : Nat → Option String) (c : Code) :
    Render Unit :=
  c.forM fun i => do
    note wanted (texts i.index)
    instruction s i

/-- Rendering the instructions `a`, which `b` follow. -/
theorem Agrees.run {a b : Code} (h : Agrees s p (a ++ b) l) (P : List Nat × Event → Bool)
    (wanted : Bool) (texts : Nat → Option String) (pre : Code) (hcode : s.code = pre ++ (a ++ b))
    (hrun : p.run n a = .ok q) (hreads : ∀ i ∈ a, ∀ path v, P (path, .reads i.index v) = false)
    (hopens : ∀ i ∈ a, i.op = .endSwitch → ∀ path, P (path, .opens i.index) = false) :
    let l' := ((instructions s wanted texts a).run l).2
    Agrees s q b l' ∧ l'.layout.path = Code.pathAfter l.layout.path a ∧
      l'.pending = Code.queueAfter s.code l.pending a ∧
      (l'.trace s).filter P =
        (l.trace s).filter P ++ (Code.schedule l.layout.path a).filter P := by
  induction a generalizing pre p l n with
  | nil =>
    cases hrun
    exact ⟨h, rfl, rfl, (List.append_nil _).symm⟩
  | cons i is ih =>
    obtain ⟨ha, hrun'⟩ := (Code.Progress.run_cons_eq_ok_iff h.balanced).mp hrun
    obtain ⟨hnote, hpath, hpending, htrace⟩ := h.noted wanted (texts i.index)
    obtain ⟨hstep, hpath', hpending', htrace'⟩ := hnote.step ha hcode (hreads i List.mem_cons_self)
      (hopens i List.mem_cons_self)
    have hcode' : s.code = (pre ++ [i]) ++ (is ++ b) := by
      rw [hcode]
      simp
    obtain ⟨hrest, hpath'', hpending'', htrace''⟩ := ih hstep _ hcode' hrun'
      (fun j hj => hreads j (List.mem_cons_of_mem _ hj))
      (fun j hj => hopens j (List.mem_cons_of_mem _ hj))
    rw [hpath', hpath] at hpath'' htrace''
    rw [hpending', hpending] at hpending''
    rw [htrace', htrace, hpath] at htrace''
    refine ⟨hrest, hpath'', hpending'', ?_⟩
    rw [Code.schedule, List.filter_append, ← List.append_assoc]
    exact htrace''

/-- The state before the first instruction. -/
theorem agrees_start (hrun : ({} : Code.Progress).run 0 s.code = .ok q)
    (declarations : List (Nat × OuterAssignments)) :
    Agrees s {} s.code { declarations := declarations } := by
  refine ⟨Code.Progress.balanced_start, Code.Progress.separatesSwitches_start,
    Code.Progress.numbered_of_run Code.Progress.balanced_start Code.Progress.seesNumbered_start hrun,
    ⟨Layout.isSound_empty, rfl, List.nodup_nil, by simp, by simp, ?_⟩, by simp⟩
  intro v _ _
  exact .named

/-- Emptying the queue writes what waited. -/
theorem Agrees.emptied (h : Agrees s p c l) :
    let l' := ((drain s n).run l).2
    Agrees s p c l' ∧ l'.layout.trace = l.trace s := by
  obtain ⟨hm, hp⟩ := moves_drain (n := n) h.valid
  have hvalid := h.valid.moves_nil hm hp fun _ hv => hv
  exact ⟨{ h with valid := hvalid, waiting := fun hne => absurd hp hne }, hm.layout.trace⟩

/-- What is left to do when all instructions are rendered. -/
theorem Agrees.finish (h : Agrees s p [] l) (wanted : Bool) (text : Option String) :
    let l' := ((do drain s n; note wanted text : Render Unit).run l).2
    l'.layout.trace = l.trace s ∧ l'.layout.deferred = [] := by
  obtain ⟨hdrain, htrace⟩ := h.emptied (n := n)
  obtain ⟨hm, hp⟩ := moves_drain (n := n) h.valid
  generalize hl' : ((drain s n).run l).2 = l' at hdrain htrace hp
  have hrun : (do drain s n; note wanted text : Render Unit).run l = (note wanted text).run l' := by
    rw [run_bind, hl']
  rw [hrun]
  unfold note
  split
  · rename_i text
    have hcomment := Layout.extends_comment hdrain.valid.sound text
    refine ⟨?_, ?_⟩
    · exact hcomment.trace.trans (by rw [List.append_nil, htrace])
    · exact hcomment.deferred.trans (by rw [List.append_nil, hdrain.valid.deferred])
  · exact ⟨htrace, hdrain.valid.deferred⟩

/-- Among events that are no reads and belong to the program, the lines do what is scheduled. -/
theorem program_trace {P : List Nat × Event → Bool} (hcheck : s.code.check = .ok ())
    (annotations : Annotations) (comments : Comments) (declarations : List (Nat × OuterAssignments))
    (hreads : ∀ i ∈ s.code, ∀ path v, P (path, .reads i.index v) = false)
    (hopens : ∀ i ∈ s.code, i.op = .endSwitch → ∀ path, P (path, .opens i.index) = false) :
    let l := ((program s annotations comments).run { declarations := declarations }).2
    l.layout.trace.filter P = ((s.code.schedule []).filter P) ∧ l.layout.deferred = [] := by
  obtain ⟨q, hrun, -⟩ := Code.check_eq_ok_iff_run.mp hcheck
  obtain ⟨hnote, hpath, -, htrace⟩ :=
    (agrees_start hrun declarations).noted annotations.comments comments.header
  rw [← List.append_nil s.code] at hnote
  obtain ⟨hend, -, -, htrace'⟩ := hnote.run P annotations.comments comments.get? []
    (List.append_nil s.code).symm hrun hreads hopens
  obtain ⟨htrace'', hdeferred⟩ := hend.finish (n := (s.code.getLast?.map (·.index)).getD 0)
    annotations.comments comments.footer
  rw [htrace, hpath, ← htrace''] at htrace'
  refine ⟨htrace'.trans ?_, hdeferred⟩
  rfl

end Python.Render

theorem Code.mem_schedule {x : List Nat × Python.Event} {c : Code} {path : List Nat}
    (h : x ∈ c.schedule path) : ∃ i ∈ c, i.event? = some x.2 := by
  induction c generalizing path with
  | nil => cases h
  | cons i is ih =>
    rcases List.mem_append.mp h with h | h
    · obtain ⟨e, he, rfl⟩ := List.mem_map.mp h
      exact ⟨i, List.mem_cons_self, Option.mem_toList.mp he⟩
    · obtain ⟨j, hj, he⟩ := ih h
      exact ⟨j, List.mem_cons_of_mem _ hj, he⟩

/-- Every event of the schedule is one of the program's. -/
theorem Code.filter_schedule {is : Code} (h : ∀ i ∈ is, is[i.index]? = some i) (path : List Nat) :
    ((is.schedule path).filter fun x => is.expects x.2) = is.schedule path := by
  refine List.filter_eq_self.mpr ?_
  intro x hx
  obtain ⟨i, hi, he⟩ := mem_schedule hx
  rcases of_event? he with he | he | ⟨he, hs⟩
  · rw [he]
    rfl
  · rw [he]
    rfl
  · rw [he, expects, h i hi]
    exact hs

/-- The lines of a program do what its instructions do, one after the other and each in its block.
Nothing is computed where it need not happen exactly once. -/
theorem Program.layout_trace (p : Program) (annotations : Annotations)
    (h : p.code.check = .ok ()) :
    ((p.layout annotations).trace.filter fun x => p.code.expects x.2) = p.code.schedule [] ∧
      (p.layout annotations).deferred = [] := by
  have hindex {i : Instruction} (hi : i ∈ p.code) := Code.getElem?_index h hi
  have hopens : ∀ i ∈ p.code, i.op = .endSwitch →
      ∀ _path : List Nat, p.code.expects (.opens i.index) = false := by
    intro i hi hop _
    simp [Code.expects, hindex hi, Instruction.isBlockStart_eq, hop]
  have := program_trace (s := .ofCode p.code) (P := fun x => p.code.expects x.2) h annotations
    p.comments p.code.outerAssignments (fun _ _ _ _ => rfl) hopens
  rwa [show (Subject.ofCode p.code).code = p.code from rfl,
    Code.filter_schedule fun i hi => hindex hi] at this

/-- Two calls, of which the second is the left operand of a sum. -/
def Program.callsInTurn : Program where
  id := default
  code := .ofRows [
    (.loadBuiltin "f", [0]),
    (.callFunction 0, [0, 1]),
    (.beginIf false, [1]),
    (.callFunction 0, [0, 2]),
    (.callFunction 0, [0, 3]),
    (.binaryOperation .add, [3, 2, 4]),
    (.print, [4]),
    (.endIf, [])]

theorem Program.layout_trace_callsInTurn :
    callsInTurn.code.check = .ok () ∧
      ((callsInTurn.layout {}).trace.filter fun x => callsInTurn.code.expects x.2) =
        [([], .computes 1), ([], .opens 2), ([2], .computes 3), ([2], .computes 4),
          ([2], .computes 5), ([2], .performs 6)] ∧
      (callsInTurn.layout {}).deferred = [] :=
  ⟨rfl, layout_trace callsInTurn {} rfl⟩

end ScriptFuzz
