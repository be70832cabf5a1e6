import ScriptFuzz.Proofs.Python.Declarations
import ScriptFuzz.Proofs.Python.Mirroring

/-!
# What the parts of rendering write

`Lifting.coded` lists what the lines hold that tell a position. `Tells` says what a part of rendering adds
to it, and for which variables it changes what stands for them. `Empties` says of a part of rendering that
it binds all that waits, one variable after the other, and then writes lines of its own. An instruction
that starts a block ends so: `exists_start` and `exists_section` give the header that it writes.
-/

namespace ScriptFuzz

set_option autoImplicit false

open Python Python.Render Python.Lifting

/-- The header of the block that an instruction starts. -/
def Instruction.header (s : Subject) (i : Instruction) (es : List Expr) : Header :=
  let names := i.outputs.map s.nameOf
  let inner := i.innerOutputs.map s.nameOf
  match i.op with
  | .beginPlainFunction _ => .function (names.headD (s.nameOf default)) inner
  | .beginClassMethod name _ =>
    .method (if isIdentifier name then name else "m" ++ toString i.index) inner
  | .beginClassDefinition _ => .classBody (names.headD (s.nameOf default)) es.head?
  | .beginIf inverted => if inverted then .ifFalse (es.headD .none) else .ifTrue (es.headD .none)
  | .beginElse => .otherwise
  | .beginWhileLoop op => .whileLoop op (es.headD .none) ((es[1]?).getD .none)
  | .beginForLoop => .forLoop (inner.headD (s.nameOf default)) es
  | .beginTry => .tryBlock
  | .beginCatch => .exceptBlock (inner.headD (s.nameOf default))
  | .beginFinally => .finallyBlock
  | .beginSwitch => .matching (es.headD .none)
  | .beginSwitchCase => .caseEqual (.capture i.index) (es.headD .none)
  | _ => .caseAny

namespace Python

/-- The position that a line tells. -/
def Content.position? : Content → Option Nat
  | .statement _ n | .header _ n => some n
  | .comment _ | .filler => none

/-- The contents of the lines that tell a position. -/
def Lifting.coded (l : Lifting) : List Content :=
  (l.lines.map Line.content).filter fun c => c.position?.isSome

/-- The line that binds what stands for a variable. -/
def Lifting.late (s : Subject) (n : Nat) (l : Lifting) (v : Variable) : Content :=
  .statement (.bind (s.nameOf v) (l.standsFor s v)) n

/-- A part of rendering writes `cs`, and changes at most what stands for the variables `vs`. -/
structure Lifting.Tells (s : Subject) (l l' : Lifting) (vs : List Variable) (cs : List Content) :
    Prop where
  coded : l'.coded = l.coded ++ cs
  others : ∀ v, v ∉ vs → l'.standsFor s v = l.standsFor s v

/-- The line binds a temporary name, for an input in whose place a name is needed. -/
def Content.Prepares (n : Nat) (inputs : List (Variable × Slot)) (c : Content) : Prop :=
  ∃ v line e, (v, .name) ∈ inputs ∧ c = .statement (.bind (.temporary line) e) n

theorem Content.Prepares.mono {n : Nat} {inputs inputs' : List (Variable × Slot)} {c : Content}
    (h : c.Prepares n inputs) (hsub : inputs ⊆ inputs') : c.Prepares n inputs' := by
  obtain ⟨v, line, e, hv, hc⟩ := h
  exact ⟨v, line, e, hsub hv, hc⟩

namespace Lifting

variable {s : Subject} {l l' l'' : Lifting} {vs ws : List Variable} {cs ds : List Content}

theorem coded_append {ms : List Line} (h : l'.lines = l.lines ++ ms) :
    l'.coded = l.coded ++ (ms.map Line.content).filter fun c => c.position?.isSome := by
  rw [coded, h, List.map_append, List.filter_append]
  rfl

theorem coded_of_inert {ms : List Line} (h : l'.lines = l.lines ++ ms)
    (hms : ∀ x ∈ ms, x.content.position? = none) : l'.coded = l.coded := by
  rw [coded_append h, List.filter_eq_nil_iff.mpr, List.append_nil]
  rw [List.forall_mem_map]
  intro x hx
  rw [hms x hx]
  exact Bool.false_ne_true

theorem Tells.refl (l : Lifting) : Tells s l l [] [] := ⟨(List.append_nil _).symm, fun _ _ => rfl⟩

theorem Tells.trans (h : Tells s l l' vs cs) (h' : Tells s l' l'' ws ds) :
    Tells s l l'' (vs ++ ws) (cs ++ ds) := by
  refine ⟨?_, fun v hv => ?_⟩
  · rw [h'.coded, h.coded, List.append_assoc]
  · rw [List.mem_append, not_or] at hv
    rw [h'.others v hv.2, h.others v hv.1]

end Lifting

namespace Render

variable {α : Type} {s : Subject} {l l' : Lifting} {n k : Nat} {v : Variable} {vs : List Variable}
  {c is : Code} {i : Instruction} {e : Expr} {inputs : List (Variable × Slot)}

/-! ## Parts of rendering -/

theorem Names.tells {q : Render α} {a : α} (hq : Names s vs q a) (l : Lifting) :
    Tells s l (q.run l).2 vs [] := by
  refine ⟨?_, hq.others l⟩
  rw [coded, Lifting.lines, hq.layout, List.append_nil]
  rfl

theorem tells_write (st : Statement) (l : Lifting) :
    Tells s l ((write n st).run l).2 [] [.statement st n] :=
  ⟨coded_append (lines_write st l), fun _ _ => rfl⟩

theorem tells_setBinding (e : Expr) (l : Lifting) : Tells s l ((setBinding v e).run l).2 [v] [] :=
  ⟨(List.append_nil _).symm, fun _ hw =>
    standsFor_setBinding_of_ne e fun h => hw (List.mem_singleton.mpr h)⟩

theorem tells_materialize (h : l.Waits s v) :
    Tells s l ((materialize s n v).run l).2 [v] [l.late s n v] := by
  rw [run_materialize h]
  exact (tells_write _ l).trans (tells_setBinding _ _)

theorem tells_materializeAll (hn : vs.Nodup) (hw : ∀ v ∈ vs, l.Waits s v) :
    Tells s l ((vs.forM (materialize s n)).run l).2 vs (vs.map (l.late s n)) := by
  induction vs generalizing l with
  | nil => exact .refl l
  | cons v vs ih =>
    obtain ⟨hv, hn⟩ := List.nodup_cons.mp hn
    obtain ⟨hwait, hw⟩ := List.forall_mem_cons.mp hw
    have hfirst := tells_materialize (n := n) hwait
    -- What stands for the others is as before.
    have hothers (w : Variable) (hw : w ∈ vs) :
        ((materialize s n v).run l).2.standsFor s w = l.standsFor s w := by
      refine hfirst.others w fun h => hv ?_
      rwa [← List.mem_singleton.mp h]
    have hrest := ih hn fun w hmem => by
      rw [Waits, hothers w hmem]
      exact hw w hmem
    have hlate : vs.map (Lifting.late s n ((materialize s n v).run l).2) = vs.map (l.late s n) := by
      refine List.map_congr_left fun w hmem => ?_
      rw [late, hothers w hmem]
      rfl
    rw [hlate] at hrest
    exact hfirst.trans hrest

theorem tells_settle (h : l.Valid s c k) (inputs : List (Variable × Slot)) :
    Tells s l ((settle s n inputs).run l).2 (boundFirst inputs l.pending)
      ((boundFirst inputs l.pending).map (l.late s n)) := by
  have hsub : (boundFirst inputs l.pending).Sublist l.pending := List.take_sublist _ _
  obtain ⟨hcoded, hothers⟩ := tells_materializeAll (n := n) (h.nodup.sublist hsub)
    fun v hv => h.waits v (hsub.subset hv)
  exact ⟨hcoded, hothers⟩

/-- Where a name is needed, a line may bind a temporary one. -/
theorem tells_operand (x : Variable × Slot) (l : Lifting) :
    ∃ cs, Tells s l ((operand s n x).run l).2 [] cs ∧ ∀ c ∈ cs, c.Prepares n [x] := by
  rw [run_operand]
  split
  · rename_i hname
    refine ⟨_, tells_write _ l, List.forall_mem_singleton.mpr ⟨x.1, _, _, ?_, rfl⟩⟩
    rw [← hname.1]
    exact List.mem_cons_self
  · exact ⟨[], .refl l, List.forall_mem_nil _⟩

theorem tells_mapM_operand (inputs : List (Variable × Slot)) (l : Lifting) :
    ∃ cs, Tells s l ((inputs.mapM (operand s n)).run l).2 [] cs ∧ ∀ c ∈ cs, c.Prepares n inputs := by
  induction inputs generalizing l with
  | nil => exact ⟨[], .refl l, List.forall_mem_nil _⟩
  | cons x xs ih =>
    obtain ⟨first, hfirst, hx⟩ := tells_operand (s := s) (n := n) x l
    obtain ⟨rest, hrest, hxs⟩ := ih ((operand s n x).run l).2
    rw [List.mapM_cons]
    refine ⟨first ++ rest, hfirst.trans hrest, List.forall_mem_append.mpr ⟨?_, ?_⟩⟩
    · exact fun c hc => (hx c hc).mono (by simp)
    · exact fun c hc => (hxs c hc).mono (List.subset_cons_self x xs)

theorem tells_operands (h : l.Valid s c k) (inputs : List (Variable × Slot)) :
    ∃ cs, Tells s l ((operands s n inputs).run l).2 (boundFirst inputs l.pending)
      ((boundFirst inputs l.pending).map (l.late s n) ++ cs) ∧ ∀ c ∈ cs, c.Prepares n inputs := by
  obtain ⟨cs, htells, hcs⟩ :=
    tells_mapM_operand (s := s) (n := n) inputs ((settle s n inputs).run l).2
  have hboth := (tells_settle h inputs).trans htells
  rw [List.append_nil] at hboth
  exact ⟨cs, hboth, hcs⟩

/-- A comment tells no position. -/
theorem tells_note (wanted : Bool) (text : Option String) (l : Lifting) :
    Tells s l ((note wanted text).run l).2 [] [] := by
  unfold note
  split
  · rename_i text
    obtain ⟨ms, hms, hcomment⟩ := lines_comments l.layout (Text.lines text.toList)
    have hinert : ∀ x ∈ ms, x.content.position? = none := by
      intro x hx
      obtain ⟨line, hline⟩ := hcomment x hx
      rw [hline]
      rfl
    exact ⟨(coded_of_inert hms hinert).trans (List.append_nil _).symm, fun _ _ => rfl⟩
  · exact .refl l

theorem tells_writeIf (b : Bool) (st : Statement) (l : Lifting) :
    let l' := ((if b then write n st else pure () : Render Unit).run l).2
    ∃ cs, Tells s l l' [] cs ∧ l'.pending = l.pending ∧ ∀ c ∈ cs, c = .statement st n := by
  cases b with
  | true => exact ⟨_, tells_write st l, rfl, by simp⟩
  | false => exact ⟨[], .refl l, rfl, List.forall_mem_nil _⟩

/-- The first lines of a body declare outer variables. -/
theorem tells_declareOuter (l : Lifting) :
    let l' := ((declareOuter s i).run l).2
    ∃ cs, Tells s l l' [] cs ∧ l'.pending = l.pending ∧ ∀ c ∈ cs, ∃ names,
      c = .statement (.globals names) i.index ∨ c = .statement (.nonlocals names) i.index := by
  unfold declareOuter
  rw [run_get_bind]
  cases l.declarations.lookup i.index with
  | none => exact ⟨[], .refl l, rfl, List.forall_mem_nil _⟩
  | some outer =>
    let l₁ : Lifting := { l with
      declarations := l.declarations.filter fun x => x.1 ≠ i.index }
    let names (numbers : List Nat) : List Name := numbers.map fun n => s.nameOf ⟨n⟩
    have hl₁ : Tells s l l₁ [] [] := ⟨(List.append_nil _).symm, fun _ _ => rfl⟩
    obtain ⟨first, hfirst, hp, hglobals⟩ := tells_writeIf (s := s) (n := i.index)
      (!outer.globals.isEmpty) (.globals (names outer.globals)) l₁
    obtain ⟨second, hsecond, hp', hnonlocals⟩ := tells_writeIf (s := s) (n := i.index)
      (!outer.nonlocals.isEmpty) (.nonlocals (names outer.nonlocals)) _
    have hboth := hl₁.trans (hfirst.trans hsecond)
    have hpending := hp'.trans hp
    refine ⟨first ++ second, ?_, ?_, List.forall_mem_append.mpr ⟨?_, ?_⟩⟩
    · cases hb : !outer.globals.isEmpty <;> simp only [hb] at hboth ⊢ <;> exact hboth
    · cases hb : !outer.globals.isEmpty <;> simp only [hb] at hpending ⊢ <;> exact hpending
    · exact fun c hc => ⟨_, .inl (hglobals c hc)⟩
    · exact fun c hc => ⟨_, .inr (hnonlocals c hc)⟩

/-! ## Emptying the queue -/

/-- A part of rendering binds all that waits, and then writes `own`. -/
structure Empties (s : Subject) (n : Nat) (l l' : Lifting) (own : List Content) : Prop where
  pending : l'.pending = []
  coded : l'.coded = l.coded ++ (l.pending.map (l.late s n) ++ own)

theorem Empties.trans {l'' : Lifting} {own own' : List Content} (h : Empties s n l l' own)
    (h' : Empties s n l' l'' own') : Empties s n l l'' (own ++ own') := by
  refine ⟨h'.pending, ?_⟩
  rw [h'.coded, h.coded, h.pending, List.map_nil, List.nil_append, List.append_assoc,
    List.append_assoc]

theorem Empties.tells {own own' : List Content} {l'' : Lifting} (h : Empties s n l l' own)
    (h' : Tells s l' l'' vs own') (hp : l''.pending = []) : Empties s n l l'' (own ++ own') := by
  refine ⟨hp, ?_⟩
  rw [h'.coded, h.coded, List.append_assoc, List.append_assoc]

/-- Names that are new change nothing for what waits. -/
theorem Empties.names {q : Render α} {a : α} {own : List Content} (hq : Names s vs q a)
    (hvs : ∀ v ∈ l.pending, v ∉ vs) (h : Empties s n (q.run l).2 l' own) :
    Empties s n l l' own := by
  have hlate : l.pending.map (Lifting.late s n (q.run l).2) = l.pending.map (l.late s n) := by
    refine List.map_congr_left fun v hv => ?_
    rw [late, hq.others l v (hvs v hv)]
    rfl
  refine ⟨h.pending, ?_⟩
  rw [h.coded, hq.pending, hlate, (hq.tells l).coded, List.append_nil]

variable (hn : l.pending.Nodup) (hw : ∀ v ∈ l.pending, l.Waits s v)

include hn hw

theorem empties_drain : Empties s n l ((drain s n).run l).2 [] := by
  refine ⟨pending_drain, ?_⟩
  rw [List.append_nil]
  exact (tells_materializeAll (l := { l with pending := [] }) hn hw).coded

theorem empties_emit (st : Statement) :
    Empties s n l ((emit s n st).run l).2 [.statement st n] :=
  (empties_drain hn hw).tells (tells_write st _) pending_drain

theorem empties_assign (e : Expr) :
    Empties s n l ((assign s n v e).run l).2 [.statement (.bind (s.nameOf v) e) n] :=
  (empties_emit hn hw _).tells (tells_setBinding _ _) pending_drain

theorem empties_enter (hd : Header) : Empties s n l ((enter s n hd).run l).2 [.header hd n] := by
  have hlines : ((enter s n hd).run l).2.lines = ((drain s n).run l).2.lines ++
      [⟨((drain s n).run l).2.layout.depth, .header hd n⟩] := (Layout.enter_eq _ hd n).1
  have hheader : Tells s ((drain s n).run l).2 ((enter s n hd).run l).2 [] [.header hd n] :=
    ⟨coded_append hlines, fun _ _ => rfl⟩
  exact (empties_drain hn hw).tells hheader pending_drain

theorem empties_exit : Empties s n l ((exit s n).run l).2 [] := by
  obtain ⟨ms, hms, hfiller⟩ := lines_exit ((drain s n).run l).2.layout
  have hinert : ∀ x ∈ ms, x.content.position? = none := by
    intro x hx
    rw [hfiller x hx]
    rfl
  have hcoded : ((exit s n).run l).2.coded = ((drain s n).run l).2.coded :=
    coded_of_inert hms hinert
  have hexit : Tells s ((drain s n).run l).2 ((exit s n).run l).2 [] [] :=
    ⟨hcoded.trans (List.append_nil _).symm, fun _ _ => rfl⟩
  exact (empties_drain hn hw).tells hexit pending_drain

omit hn hw

theorem tells_drain_of_empty (hp : l.pending = []) : Tells s l ((drain s n).run l).2 [] [] := by
  unfold drain
  rw [run_get_bind, hp]
  exact ⟨(List.append_nil _).symm, fun _ _ => rfl⟩

/-! ## Instructions -/

theorem names_header (vs : List Variable) (f : List Name → Header) :
    Names s vs (bindNames s vs >>= fun names => pure (f names)) (f (vs.map s.nameOf)) := by
  have h := (names_bindNames (s := s) vs).bind (r := fun names => pure (f names)) (names_pure _)
  rwa [List.append_nil] at h

theorem Names.header {q : Render Unit} (hq : Names s [] q ()) (hd : Header) :
    Names s [] (q >>= fun _ => pure hd) hd :=
  hq.bind (r := fun _ => pure hd) (names_pure hd)

/-- What starts a block and ends none writes a header, and then declarations if the block is the body of
a function or method. -/
theorem exists_start (hs : i.isBlockStart = true) (he : i.isBlockEnd = false) :
    ∃ vs ⊆ i.allOutputs, ∃ q : List Expr → Render Header,
      (∀ es, Names s vs (q es) (i.header s es)) ∧
      instruction s i = operands s i.index i.slots >>= fun es => q es >>= fun hd =>
        enter s i.index hd >>= fun _ => if i.op.opensFrame then declareOuter s i else pure () := by
  rw [Instruction.isBlockStart_eq] at hs
  rw [Instruction.isBlockEnd_eq] at he
  unfold instruction Instruction.slots Instruction.header
  cases hop : i.op with
  | beginPlainFunction n =>
    refine ⟨i.innerOutputs ++ i.outputs ++ [], ?_, _, fun _ => names_functionNames.bind
      (r := fun x => pure (.function (x.2.headD (s.nameOf default)) x.1)) (names_pure _), ?_⟩
    · simp [outputs_subset, innerOutputs_subset]
    · rw [operands_nil]
      rfl
  | beginClassMethod name n =>
    refine ⟨_, innerOutputs_subset, _, fun _ => names_header _ (.method _), ?_⟩
    rw [operands_nil]
    rfl
  | beginClassDefinition superclass =>
    exact ⟨_, outputs_subset, _, fun es => names_header _ fun names =>
      .classBody (names.headD (s.nameOf default)) es.head?, rfl⟩
  | beginForLoop =>
    exact ⟨_, innerOutputs_subset, _, fun es => names_header _ fun names =>
      .forLoop (names.headD (s.nameOf default)) es, rfl⟩
  | beginIf inverted =>
    exact ⟨[], List.nil_subset _, _, fun _ => names_pure _, (bind_operandAs _ _).trans rfl⟩
  | beginWhileLoop op =>
    exact ⟨[], List.nil_subset _, _, fun _ => names_pure _, (bind_pair _ _ _).trans rfl⟩
  | beginTry =>
    refine ⟨[], List.nil_subset _, _, fun _ => names_pure _, ?_⟩
    rw [operands_nil]
    rfl
  | beginSwitch =>
    have hopen := names_switches (s := s) fun l => false :: l.switches
    exact ⟨[], List.nil_subset _, _, fun _ => hopen.header _, (bind_operandAs _ _).trans rfl⟩
  | beginSwitchCase =>
    have hmark : Names s [] markCase () := names_switches _
    exact ⟨[], List.nil_subset _, _, fun _ => hmark.header _, (bind_operandAs _ _).trans rfl⟩
  | beginSwitchDefaultCase =>
    have hmark : Names s [] markCase () := names_switches _
    refine ⟨[], List.nil_subset _, _, fun _ => hmark.header _, ?_⟩
    rw [operands_nil]
    rfl
  | _ => simp [hop] at hs he

theorem exists_section (hs : i.isBlockStart = true) (he : i.isBlockEnd = true) :
    i.slots = [] ∧ ∃ vs, ∃ q : Render Header, Names s vs q (i.header s []) ∧
      instruction s i = exit s i.index >>= fun _ => q >>= fun hd => enter s i.index hd := by
  rw [Instruction.isBlockStart_eq] at hs
  rw [Instruction.isBlockEnd_eq] at he
  unfold instruction Instruction.slots Instruction.header
  cases hop : i.op with
  | beginElse | beginFinally => exact ⟨rfl, [], _, names_pure _, rfl⟩
  | beginCatch =>
    exact ⟨rfl, _, _, names_header _ fun names =>
      .exceptBlock (names.headD (s.nameOf default)), rfl⟩
  | _ => simp [hop] at hs he

end Render
end Python
end ScriptFuzz
