import ScriptFuzz.Proofs.Python.ReadOrder
import ScriptFuzz.Proofs.Python.Writing

/-!
# The positions that lines tell

A line tells the position that is being rendered when it is written. `Instruction.Renders` says which lines
come of an instruction. `Program.positions_layout` says that a line comes of the instruction at the position
that it tells, unless it binds a value that waited in the queue: then it tells the later position at which
the value left the queue.
-/

namespace ScriptFuzz

set_option autoImplicit false

open Python Python.Render Python.Lifting

/-- The line gives the variable a value. -/
def Python.Content.Binds (s : Subject) (v : Variable) (c : Content) : Prop :=
  ∃ e n, c = .statement (.bind (s.nameOf v) e) n

namespace Instruction

/-- What the output of an instruction stands for. -/
def definition (i : Instruction) (es : List Expr) : Expr :=
  if i.event? = some (.computes i.index) then .computed i.index (i.value es) else i.value es

/-- What the instruction computes waits in the queue for its only use. -/
structure Defers (c : Code) (i : Instruction) (v : Variable) : Prop where
  output : i.output? = some v
  computes : i.event? = some (.computes i.index)
  op : ∀ n, i.op ≠ .construct n
  single : (c.usage v).isSingleAssignment = true
  once : (c.usage v).uses = 1

/-- The lines that come of an instruction, whatever position they tell. -/
inductive Renders (s : Subject) (i : Instruction) : Content → Prop where
  | statement {es : List Expr} {n : Nat} (event : i.event? = some (.performs i.index))
      (operands : es.length = i.inputs.length) : Renders s i (.statement (i.statement es) n)
  /-- A value that is not used. -/
  | expression {v : Variable} {es : List Expr} {n : Nat}
      (event : i.event? = some (.computes i.index)) (output : i.output? = some v)
      (unused : (s.code.usage v).uses = 0) (operands : es.length = i.inputs.length) :
      Renders s i (.statement (.expression (i.definition es)) n)
  | binding {v : Variable} {es : List Expr} {n : Nat} (block : i.isBlock = false)
      (output : i.output? = some v) (operands : es.length = i.inputs.length) :
      Renders s i (.statement (.bind (s.nameOf v) (i.definition es)) n)
  | temporary {v : Variable} {line n : Nat} {e : Expr} (slot : (v, .name) ∈ i.slots) :
      Renders s i (.statement (.bind (.temporary line) e) n)
  | globals {names : List Name} {n : Nat} (frame : i.op.opensFrame = true) :
      Renders s i (.statement (.globals names) n)
  | nonlocals {names : List Name} {n : Nat} (frame : i.op.opensFrame = true) :
      Renders s i (.statement (.nonlocals names) n)
  | header {es : List Expr} {n : Nat} (start : i.isBlockStart = true)
      (operands : es.length = i.inputs.length) : Renders s i (.header (i.header s es) n)
  /-- The case of a match without cases. -/
  | emptyMatch {n : Nat} (op : i.op = .endSwitch) : Renders s i (.header .caseAny n)

end Instruction

/-- The variables that leave the queue for their names while the instruction is rendered. -/
def Code.released (c : Code) (i : Instruction) : List Variable :=
  (c.waiting i.index).filter fun v =>
    v ∉ inPlace i.slots (c.waiting i.index) ∧ v ∉ c.waiting (i.index + 1)

namespace Python

theorem Content.Binds.eq {s : Subject} {v w : Variable} {e : Expr} {n : Nat}
    (h : (Content.statement (.bind (s.nameOf v) e) n).Binds s w) : v = w := by
  obtain ⟨e', m, hc⟩ := h
  injection hc with hst
  exact Subject.nameOf_inj (Statement.bind.inj hst).1

theorem Content.Binds.output? {s : Subject} {i : Instruction} {v : Variable} {c : Content}
    (h : c.Binds s v) (hi : i.Renders s c) : i.output? = some v := by
  cases hi with
  | statement event operands =>
    obtain ⟨e, n, hc⟩ := h
    injection hc with hst
    exact absurd hst (statement_ne_bind _ _ _)
  | binding block output operands => rw [← h.eq]; exact output
  | _ =>
    obtain ⟨e, n, hc⟩ := h
    cases hc

/-- A line of the instruction that tells its position, and that binds nothing which waits. -/
structure Content.InTime (s : Subject) (i : Instruction) (c : Content) : Prop where
  position : c.position? = some i.index
  renders : i.Renders s c
  binds : ∀ v, c.Binds s v → ¬i.Defers s.code v

namespace Render

variable {s : Subject} {l l' : Lifting} {n k : Nat} {v : Variable} {vs : List Variable}
  {c is : Code} {i : Instruction}

/-- How an instruction ends whose inputs are taken in the state `l`. -/
inductive Concludes (s : Subject) (i : Instruction) (l l' : Lifting) : Prop where
  /-- It binds all that waits, and writes lines of its own. -/
  | empties {own : List Content} (empties : Empties s i.index l l' own)
      (own : ∀ c ∈ own, c.InTime s i)
  /-- Its output is a constant. -/
  | stands {vs : List Variable} (tells : Tells s l l' vs []) (pending : l'.pending = l.pending)
      (others : ∀ v ∈ l.pending, v ∉ vs)
  /-- Its output waits. -/
  | waits {v : Variable} {es : List Expr} (tells : Tells s l l' [v] [])
      (pending : l'.pending = l.pending ++ [v]) (others : v ∉ l.pending)
      (defers : i.Defers s.code v) (operands : es.length = i.inputs.length)
      (stands : l'.standsFor s v = i.definition es)

section

variable {es : List Expr}

theorem inTime_header (hs : i.isBlockStart = true) (hes : es.length = i.inputs.length) :
    (Content.header (i.header s es) i.index).InTime s i :=
  ⟨rfl, .header hs hes, fun _ ⟨_, _, h⟩ => nomatch h⟩

/-- A declaration of outer variables is a line of the function or method whose body it starts. -/
theorem inTime_declarations {own : List Content} (hframe : i.op.opensFrame = true)
    (hown : ∀ c ∈ own, ∃ names,
      c = .statement (.globals names) i.index ∨ c = .statement (.nonlocals names) i.index) :
    ∀ c ∈ own, c.InTime s i := by
  intro c hc
  obtain ⟨names, rfl | rfl⟩ := hown c hc
  · exact ⟨rfl, .globals hframe, fun _ ⟨_, _, h⟩ => nomatch h⟩
  · exact ⟨rfl, .nonlocals hframe, fun _ ⟨_, _, h⟩ => nomatch h⟩

variable (hn : l.pending.Nodup) (hw : ∀ v ∈ l.pending, l.Waits s v)

include hn hw

theorem concludes_assign (hv : i.output? = some v) (hb : i.isBlock = false)
    (hes : es.length = i.inputs.length) (hnot : ¬i.Defers s.code v) :
    Concludes s i l ((assign s i.index v (i.definition es)).run l).2 := by
  refine .empties (empties_assign hn hw _) (List.forall_mem_singleton.mpr
    ⟨rfl, .binding hb hv hes, fun w hw => ?_⟩)
  rwa [← hw.eq]

theorem concludes_computed (hevent : i.event? = some (.computes i.index))
    (hop : ∀ n, i.op ≠ .construct n) (hv : i.output? = some v) (hnew : v ∉ l.pending)
    (hes : es.length = i.inputs.length) :
    Concludes s i l ((declare s i.index v (i.definition es)).run l).2 := by
  have hassign := concludes_assign hn hw hv (of_computes hevent).1 hes
  have heffect : (i.definition es).isEffectful = true := by
    rw [Instruction.definition, if_pos hevent]
    rfl
  unfold declare
  dsimp only
  rw [if_pos heffect]
  split
  · rename_i hsingle
    split
    · rename_i honce
      have hstands := standsFor_setBinding_self (s := s) (l := l) (v := v) (i.definition es)
      refine .waits ⟨(List.append_nil _).symm, fun w hne => ?_⟩ rfl hnew
        ⟨hv, hevent, hop, hsingle, honce⟩ hes hstands
      exact standsFor_setBinding_of_ne _ fun h => hne (List.mem_singleton.mpr h)
    · rename_i honce
      split
      · rename_i hunused
        exact .empties (empties_emit hn hw _) (List.forall_mem_singleton.mpr
          ⟨rfl, .expression hevent hv hunused hes, fun _ ⟨_, _, h⟩ => nomatch h⟩)
      · exact hassign fun h => honce h.once
  · rename_i hsingle
    exact hassign fun h => hsingle h.single

theorem concludes_constant (hevent : i.event? = none) (hb : i.isBlock = false)
    (hv : i.output? = some v) (hnew : v ∉ l.pending) (hinputs : i.inputs = []) :
    Concludes s i l ((declare s i.index v (i.value [])).run l).2 := by
  have hnone : i.event? ≠ some (.computes i.index) := by
    rw [hevent]
    exact (Option.some_ne_none _).symm
  have hes : ([] : List Expr).length = i.inputs.length := (congrArg List.length hinputs).symm
  have hassign := concludes_assign hn hw hv hb hes fun h => hnone h.computes
  rw [Instruction.definition, if_neg hnone] at hassign
  unfold declare
  dsimp only
  rw [(value_of_load hevent).1]
  split
  · rw [if_neg Bool.false_ne_true]
    split
    · refine .stands (tells_setBinding _ l) rfl fun w hw h => hnew ?_
      rwa [← List.mem_singleton.mp h]
    · exact hassign
  · exact hassign

/-- The start of a block: names, a header, and what may follow it. -/
theorem concludes_enter {q : Render Header} (hq : Names s vs q (i.header s es))
    (hvs : ∀ v ∈ l.pending, v ∉ vs) (hs : i.isBlockStart = true)
    (hes : es.length = i.inputs.length) :
    Concludes s i l ((q >>= fun hd => enter s i.index hd >>= fun _ =>
      if i.op.opensFrame then declareOuter s i else pure ()).run l).2 := by
  rw [run_bind, hq.result, run_bind]
  have hn' : (q.run l).2.pending.Nodup := by rwa [hq.pending]
  have hw' : ∀ v ∈ (q.run l).2.pending, (q.run l).2.Waits s v := by
    intro v hv
    rw [hq.pending] at hv
    rw [Waits, hq.others l v (hvs v hv)]
    exact hw v hv
  have henter := (empties_enter (n := i.index) hn' hw' (i.header s es)).names hq hvs
  have hheader := List.forall_mem_singleton.mpr (inTime_header (s := s) hs hes)
  cases hframe : i.op.opensFrame with
  | false => exact .empties henter hheader
  | true =>
    obtain ⟨own, hown, hp, hdeclares⟩ := tells_declareOuter (s := s) (i := i)
      ((enter s i.index (i.header s es)).run (q.run l).2).2
    exact .empties (henter.tells hown (hp.trans henter.pending))
      (List.forall_mem_append.mpr ⟨hheader, inTime_declarations hframe hdeclares⟩)

theorem concludes_section {q : Render Header} (hq : Names s vs q (i.header s []))
    (hs : i.isBlockStart = true) (hinputs : i.inputs = []) :
    Concludes s i l ((exit s i.index >>= fun _ => q >>= fun hd => enter s i.index hd).run l).2 := by
  have hexit := empties_exit (n := i.index) hn hw
  rw [run_bind, run_bind, hq.result]
  generalize ((exit s i.index).run l).2 = l₁ at hexit
  have hnone : (q.run l₁).2.pending = [] := (hq.pending l₁).trans hexit.pending
  have henter := (empties_enter (n := i.index) (by rw [hnone]; exact List.nodup_nil)
    (by rw [hnone]; exact List.forall_mem_nil _) (i.header s [])).names hq
    (by rw [hexit.pending]; exact List.forall_mem_nil _)
  exact .empties (hexit.trans henter) (List.forall_mem_singleton.mpr
    (inTime_header hs (congrArg List.length hinputs).symm))

theorem concludes_endSwitch (hop : i.op = .endSwitch) :
    Concludes s i l ((instruction s i).run l).2 := by
  let l₀ : Lifting := { l with switches := l.switches.tail }
  have hclose (l : Lifting) (hp : l.pending = []) :
      Empties s i.index l ((exit s i.index).run l).2 [] :=
    empties_exit (by rw [hp]; exact List.nodup_nil) (by rw [hp]; exact List.forall_mem_nil _)
  have hsame {l' : Lifting} {own : List Content} (h : Empties s i.index l₀ l' own) :
      Empties s i.index l l' own := ⟨h.pending, h.coded⟩
  rw [run_instruction_endSwitch hop]
  split
  · -- The match has no case, and gets one.
    have henter := empties_enter (s := s) (n := i.index) (l := l₀) hn hw .caseAny
    have hexit := henter.trans (hclose _ henter.pending)
    exact .empties (hsame (hexit.trans (hclose _ hexit.pending)))
      (List.forall_mem_singleton.mpr ⟨rfl, .emptyMatch hop, fun _ ⟨_, _, h⟩ => nomatch h⟩)
  · exact .empties (hsame (empties_exit (s := s) (n := i.index) (l := l₀) hn hw))
      (List.forall_mem_nil _)

end

/-- Every instruction concludes so, once its inputs are taken from the queue. -/
theorem concludes_instruction (h : l.Valid s (i :: is) k) (hnum : Code.Numbered k (i :: is)) :
    Concludes s i ((operands s i.index i.slots).run l).2 ((instruction s i).run l).2 := by
  have htaken := taken_operands (n := i.index) h i.map_fst_slots
  have hes : ((operands s i.index i.slots).run l).1.length = i.inputs.length := by
    rw [← htaken.supplies.length_eq, ← i.map_fst_slots, List.length_map]
  have hn := htaken.valid.nodup
  have hw := htaken.valid.waits
  have hnew : ∀ v ∈ i.allOutputs, v ∉ ((operands s i.index i.slots).run l).2.pending :=
    fun v hv => not_mem_pending htaken.valid hnum hv
  have hnil (hslots : i.slots = []) : operands s i.index i.slots = pure [] := by
    rw [hslots, operands_nil]
  have hinputs (hslots : i.slots = []) : i.inputs = [] := by
    rw [← i.map_fst_slots, hslots, List.map_nil]
  rcases event?_cases i with hevent | hevent | hevent | hevent
  · obtain ⟨hs, hslots⟩ := of_silent hevent
    cases hend : i.isBlockEnd with
    | false =>
      obtain ⟨v, hv, hmem⟩ := exists_output (of_load hevent hend)
      have hb : i.isBlock = false := by rw [Instruction.isBlock, hs, hend]; rfl
      have hconstant := concludes_constant hn hw hevent hb hv (hnew v hmem) (hinputs hslots)
      rw [instruction_eq_load hevent hend, load, hv]
      rw [hnil hslots] at hconstant ⊢
      exact hconstant
    | true =>
      rw [hnil hslots] at hn hw ⊢
      by_cases hop : i.op = .endSwitch
      · exact concludes_endSwitch hn hw hop
      · rw [show instruction s i = exit s i.index from ends_of_isBlockEnd hs hend hop]
        exact .empties (empties_exit hn hw) (List.forall_mem_nil _)
  · obtain ⟨hb, hout⟩ := of_computes hevent
    obtain ⟨v, hv, hmem⟩ := exists_output hout
    have hdefinition (es : List Expr) : i.definition es = .computed i.index (i.value es) :=
      if_pos hevent
    by_cases hop : ∃ n, i.op = .construct n
    · obtain ⟨n, hop⟩ := hop
      rw [instruction_eq_assign hop hv, run_bind, ← hdefinition]
      exact concludes_assign hn hw hv hb hes fun h => h.op n hop
    · have hop' (n : Nat) : i.op ≠ .construct n := fun h => hop ⟨n, h⟩
      rw [instruction_eq_compute hevent hop', run_bind, compute, hv, ← hdefinition]
      exact concludes_computed hn hw hevent hop' hv (hnew v hmem) hes
  · rw [instruction_eq_emit hevent, run_bind]
    refine .empties (empties_emit hn hw _) (List.forall_mem_singleton.mpr
      ⟨rfl, .statement hevent hes, fun w hw _ => ?_⟩)
    -- Such a statement binds nothing.
    obtain ⟨e, n, h⟩ := hw
    injection h with hst
    exact statement_ne_bind _ _ _ hst
  · have hs := of_opens hevent
    cases hend : i.isBlockEnd with
    | false =>
      obtain ⟨vs, hvs, q, hq, hrun⟩ := exists_start (s := s) hs hend
      rw [hrun, run_bind]
      exact concludes_enter hn hw (hq _) (fun v hp hv => hnew v (hvs hv) hp) hs hes
    | true =>
      obtain ⟨hslots, vs, q, hq, hrun⟩ := exists_section (s := s) hs hend
      rw [hnil hslots] at hn hw ⊢
      rw [hrun]
      exact concludes_section hn hw hq hs (hinputs hslots)

theorem mem_allOutputs_of_defers (h : i.Defers c v) : v ∈ i.allOutputs := by
  obtain ⟨w, hw, hmem⟩ := exists_output (of_computes h.computes).2
  rwa [Option.some.inj (h.output.symm.trans hw)]

/-! ## What leaves the queue -/

/-- The state `l'` in which the instruction has taken its inputs from the queue of `l`. -/
structure Takes (s : Subject) (i : Instruction) (l l' : Lifting) (cs : List Content) : Prop where
  nodup : l.pending.Nodup
  pending : l'.pending = kept i.slots l.pending
  tells : Tells s l l' (boundFirst i.slots l.pending)
    ((boundFirst i.slots l.pending).map (l.late s i.index) ++ cs)
  inTime : ∀ c ∈ cs, c.InTime s i

theorem exists_takes (h : l.Valid s (i :: is) k) :
    ∃ cs, Takes s i l ((operands s i.index i.slots).run l).2 cs := by
  obtain ⟨cs, htells, hcs⟩ := tells_operands (n := i.index) h i.slots
  refine ⟨cs, h.nodup, (taken_operands h i.map_fst_slots).pending, htells, fun c hc => ?_⟩
  obtain ⟨v, line, e, hv, rfl⟩ := hcs c hc
  exact ⟨rfl, .temporary hv, fun _ ⟨_, _, h⟩ => nomatch h⟩

/-- Whether a variable leaves the queue for its name while the instruction is rendered. -/
def Leaves (i : Instruction) (l l' : Lifting) (v : Variable) : Prop :=
  v ∈ l.pending ∧ v ∉ inPlace i.slots l.pending ∧ v ∉ l'.pending

/-- What an instruction writes: a line for each variable that leaves the queue for its name, and
lines of its own. -/
structure Writes (s : Subject) (i : Instruction) (l l' : Lifting) (cs : List Content) : Prop where
  coded : l'.coded = l.coded ++ cs
  lines : ∀ c ∈ cs, c.InTime s i ∨ ∃ v, Leaves i l l' v ∧ c = l.late s i.index v
  late : ∀ v, Leaves i l l' v → l.late s i.index v ∈ cs

section

variable {l₁ : Lifting} {cs own : List Content}

theorem Takes.standsFor (h : Takes s i l l₁ cs) (hv : v ∈ l₁.pending) :
    v ∈ l.pending ∧ v ∉ inPlace i.slots l.pending ∧ l₁.standsFor s v = l.standsFor s v := by
  rw [h.pending] at hv
  refine ⟨mem_pending_iff.mpr (.inr (.inr hv)), not_mem_inPlace h.nodup hv, ?_⟩
  exact h.tells.others v (not_mem_boundFirst h.nodup (.inr hv))

theorem Takes.leaves_cases (h : Takes s i l l₁ cs) (hv : Leaves i l l' v) :
    v ∈ boundFirst i.slots l.pending ∨ v ∈ l₁.pending := by
  rw [h.pending]
  rcases mem_pending_iff.mp hv.1 with hfirst | hin | hkept
  · exact .inl hfirst
  · exact absurd hin hv.2.1
  · exact .inr hkept

/-- What is bound before the inputs are written leaves the queue. -/
theorem Takes.leaves (h : Takes s i l l₁ cs) (hp : ∀ v ∈ l'.pending, v ∈ l.pending → v ∈ l₁.pending)
    (hv : v ∈ boundFirst i.slots l.pending) : Leaves i l l' v := by
  have hmem : v ∈ l.pending := List.mem_of_mem_take hv
  refine ⟨hmem, fun hin => not_mem_boundFirst h.nodup (.inl hin) hv, fun hp' => ?_⟩
  have hkept := hp v hp' hmem
  rw [h.pending] at hkept
  exact not_mem_boundFirst h.nodup (.inr hkept) hv

/-- What waits goes on waiting. -/
theorem Takes.writes_of_quiet (h : Takes s i l l₁ cs) (ht : Tells s l₁ l' vs [])
    (hsub : l₁.pending ⊆ l'.pending) (hp : ∀ v ∈ l'.pending, v ∈ l.pending → v ∈ l₁.pending) :
    Writes s i l l' ((boundFirst i.slots l.pending).map (l.late s i.index) ++ cs) := by
  refine ⟨?_, List.forall_mem_append.mpr ⟨List.forall_mem_map.mpr fun v hv => .inr ?_, ?_⟩, ?_⟩
  · rw [ht.coded, h.tells.coded, List.append_nil]
  · exact ⟨v, h.leaves hp hv, rfl⟩
  · exact fun c hc => .inl (h.inTime c hc)
  · intro v hv
    have hfirst := (h.leaves_cases hv).resolve_right fun hmem => hv.2.2 (hsub hmem)
    exact List.mem_append_left _ (List.mem_map_of_mem hfirst)

/-- Nothing goes on waiting. -/
theorem Takes.writes_of_empties (h : Takes s i l l₁ cs) (he : Empties s i.index l₁ l' own)
    (hown : ∀ c ∈ own, c.InTime s i) :
    Writes s i l l' ((boundFirst i.slots l.pending).map (l.late s i.index) ++ cs ++
      (l₁.pending.map (l.late s i.index) ++ own)) := by
  have hnone (v : Variable) : v ∉ l'.pending := by
    rw [he.pending]
    exact List.not_mem_nil
  have hlate : l₁.pending.map (l₁.late s i.index) = l₁.pending.map (l.late s i.index) := by
    refine List.map_congr_left fun v hv => ?_
    rw [Lifting.late, (h.standsFor hv).2.2]
    rfl
  refine ⟨?_, List.forall_mem_append.mpr ⟨List.forall_mem_append.mpr
    ⟨List.forall_mem_map.mpr fun v hv => .inr ?_, ?_⟩, List.forall_mem_append.mpr
    ⟨List.forall_mem_map.mpr fun v hv => .inr ?_, ?_⟩⟩, ?_⟩
  · rw [he.coded, h.tells.coded, hlate, List.append_assoc]
  · exact ⟨v, h.leaves (fun v hv => absurd hv (hnone v)) hv, rfl⟩
  · exact fun c hc => .inl (h.inTime c hc)
  · obtain ⟨hmem, hin, -⟩ := h.standsFor hv
    exact ⟨v, ⟨hmem, hin, hnone v⟩, rfl⟩
  · exact fun c hc => .inl (hown c hc)
  · intro v hv
    rcases h.leaves_cases hv with hmem | hmem
    · exact List.mem_append_left _ (List.mem_append_left _ (List.mem_map_of_mem hmem))
    · exact List.mem_append_right _ (List.mem_append_left _ (List.mem_map_of_mem hmem))

end

theorem exists_writes (h : l.Valid s (i :: is) k) (hnum : Code.Numbered k (i :: is)) :
    ∃ cs, Writes s i l ((instruction s i).run l).2 cs := by
  obtain ⟨cs, htakes⟩ := exists_takes h
  cases concludes_instruction h hnum with
  | empties hempties hown => exact ⟨_, htakes.writes_of_empties hempties hown⟩
  | stands htells hp _ =>
    refine ⟨_, htakes.writes_of_quiet htells ?_ ?_⟩
    · rw [hp]
      exact List.Subset.refl _
    · rw [hp]
      exact fun v hv _ => hv
  | waits htells hp _ hdefers _ _ =>
    refine ⟨_, htakes.writes_of_quiet htells ?_ ?_⟩
    · rw [hp]
      exact List.subset_append_left _ _
    · -- The new variable did not wait before.
      rw [hp]
      intro v hv hmem
      refine (List.mem_append.mp hv).resolve_right fun hnew => ?_
      rw [List.mem_singleton.mp hnew] at hmem
      exact not_mem_pending h hnum (mem_allOutputs_of_defers hdefers) hmem

/-- What stands for each waiting variable is what an instruction before position `n` computes. -/
def Records (s : Subject) (n : Nat) (l : Lifting) : Prop :=
  ∀ v ∈ l.pending, ∃ j ∈ s.code, j.index < n ∧ j.Defers s.code v ∧
    ∃ es, es.length = j.inputs.length ∧ l.standsFor s v = j.definition es

theorem Records.takes {l₁ : Lifting} {cs : List Content} (h : Records s n l)
    (ht : Takes s i l l₁ cs) : Records s n l₁ := by
  intro v hv
  obtain ⟨hmem, -, hstands⟩ := ht.standsFor hv
  rw [hstands]
  exact h v hmem

theorem Records.quiet {m : Nat} (h : Records s n l) (hm : n ≤ m) (ht : Tells s l l' vs [])
    (hvs : ∀ v ∈ l.pending, v ∉ vs) (hp : l'.pending = l.pending) : Records s m l' := by
  intro v hv
  rw [hp] at hv
  obtain ⟨j, hj, hlt, hdefers⟩ := h v hv
  rw [ht.others v (hvs v hv)]
  exact ⟨j, hj, Nat.lt_of_lt_of_le hlt hm, hdefers⟩

theorem Records.step (hr : Records s i.index l) (h : l.Valid s (i :: is) k)
    (hnum : Code.Numbered k (i :: is)) (hi : i ∈ s.code) :
    Records s (i.index + 1) ((instruction s i).run l).2 := by
  obtain ⟨cs, htakes⟩ := exists_takes h
  have hrecords := hr.takes htakes
  have hle := Nat.le_add_right i.index 1
  cases concludes_instruction h hnum with
  | empties hempties _ =>
    rw [Records, hempties.pending]
    exact List.forall_mem_nil _
  | stands htells hp hvs => exact hrecords.quiet hle htells hvs hp
  | @waits v es htells hp hnew hdefers hes hstands =>
    have hne (w : Variable) (hw : w ∈ ((operands s i.index i.slots).run l).2.pending) : w ∉ [v] := by
      rw [List.mem_singleton]
      rintro rfl
      exact hnew hw
    rw [Records, hp]
    refine List.forall_mem_append.mpr ⟨fun w hw => ?_, List.forall_mem_singleton.mpr
      ⟨i, hi, Nat.lt_succ_self _, hdefers, es, hes, hstands⟩⟩
    obtain ⟨j, hj, hlt, hearlier⟩ := hrecords w hw
    rw [htells.others w (hne w hw)]
    exact ⟨j, hj, Nat.lt_of_lt_of_le hlt hle, hearlier⟩

/-! ## Runs -/

/-- A line that tells the position of `i` and binds a value of an earlier instruction, which leaves the
queue while `i` is rendered. It is used there or later. -/
inductive Late (s : Subject) (i : Instruction) (v : Variable) : Content → Prop where
  | intro {j : Instruction} {es : List Expr} (declares : j ∈ s.code) (earlier : j.index < i.index)
      (defers : j.Defers s.code v) (operands : es.length = j.inputs.length)
      (used : ∃ u ∈ s.code.drop i.index, v ∈ u.inputs) :
      Late s i v (.statement (.bind (s.nameOf v) (j.definition es)) i.index)

/-- What holds of the lines after the instructions `pre`. -/
structure Told (s : Subject) (pre : Code) (l : Lifting) : Prop where
  records : Records s pre.length l
  pending : l.pending = s.code.queueAfter [] pre
  lines : ∀ c ∈ l.coded, ∃ i ∈ s.code, c.InTime s i ∨ ∃ v ∈ s.code.released i, Late s i v c
  released : ∀ i ∈ pre, ∀ v ∈ s.code.released i, ∃ c ∈ l.coded, Late s i v c

variable {pre rest : Code} {p q : Code.Progress}

theorem told_start (declarations : List (Nat × OuterAssignments)) :
    Told s [] { declarations := declarations } :=
  ⟨List.forall_mem_nil _, rfl, List.forall_mem_nil _, List.forall_mem_nil _⟩

theorem Told.quiet (h : Told s pre l) (ht : Tells s l l' [] []) (hp : l'.pending = l.pending) :
    Told s pre l' := by
  have hcoded : l'.coded = l.coded := ht.coded.trans (List.append_nil _)
  refine ⟨?_, hp.trans h.pending, hcoded ▸ h.lines, hcoded ▸ h.released⟩
  intro v hv
  rw [ht.others v List.not_mem_nil]
  exact h.records v (hp ▸ hv)

/-- What leaves the queue at the next instruction. -/
theorem Told.leaves_iff (h : Told s pre l) (hcode : s.code = pre ++ i :: rest)
    (hindex : i.index = pre.length)
    (hp : l'.pending = i.queued s.code (kept i.slots l.pending)) :
    v ∈ s.code.released i ↔ Leaves i l l' v := by
  have hwaiting : s.code.waiting i.index = l.pending := by
    rw [Code.waiting, hindex, hcode, List.take_left, ← hcode, h.pending]
  have hnext : s.code.waiting (i.index + 1) = l'.pending := by
    have htake : s.code.take (i.index + 1) = pre ++ [i] := by
      rw [hcode, hindex, List.append_cons, List.take_left' (by simp)]
    rw [Code.waiting, htake, hp, h.pending, Code.queueAfter, List.foldl_append]
    rfl
  simp [Code.released, hwaiting, hnext, Leaves]

theorem Told.step (h : Told s pre l) (ha : Agrees s p (i :: rest) l) (hadmits : p.Admits pre.length i)
    (hcode : s.code = pre ++ i :: rest) : Told s (pre ++ [i]) ((instruction s i).run l).2 := by
  have hindex : i.index = pre.length := hadmits.index
  have hi : i ∈ s.code := by
    rw [hcode]
    exact List.mem_append_right _ List.mem_cons_self
  have hdrop : s.code.drop i.index = i :: rest := by
    rw [hcode, hindex, List.drop_left]
  obtain ⟨-, -, hpending, -⟩ := ha.step (P := fun _ => false) hadmits hcode (fun _ _ => rfl)
    fun _ _ => rfl
  have hleaves (v : Variable) := h.leaves_iff (v := v) hcode hindex hpending
  obtain ⟨cs, hcoded, hlines, hwrites⟩ := exists_writes ha.valid ha.numbered
  have hrecords := h.records
  rw [← hindex] at hrecords
  have hlate {v : Variable} (hv : v ∈ l.pending) : Late s i v (l.late s i.index v) := by
    obtain ⟨j, hj, hlt, hdefers, es, hes, hstands⟩ := hrecords v hv
    have hused : ∃ u ∈ s.code.drop i.index, v ∈ u.inputs := by
      have honce := (ha.valid.once v hv).1
      rw [hdrop, ← List.mem_flatMap, ← List.count_pos_iff]
      change 0 < Code.uses (i :: rest) v
      omega
    rw [late, hstands]
    exact .intro hj hlt hdefers hes hused
  refine ⟨?_, ?_, ?_, ?_⟩
  · rw [List.length_append, List.length_singleton, ← hindex]
    exact hrecords.step ha.valid ha.numbered hi
  · rw [hpending, h.pending, Code.queueAfter, Code.queueAfter, List.foldl_append]
    rfl
  · rw [hcoded]
    refine List.forall_mem_append.mpr ⟨h.lines, fun c hc => ⟨i, hi, ?_⟩⟩
    rcases hlines c hc with hown | ⟨v, hv, rfl⟩
    · exact .inl hown
    · exact .inr ⟨v, (hleaves v).mpr hv, hlate hv.1⟩
  · rw [hcoded]
    refine List.forall_mem_append.mpr ⟨?_, List.forall_mem_singleton.mpr fun v hv => ?_⟩
    · intro j hj v hv
      obtain ⟨c, hc, hline⟩ := h.released j hj v hv
      exact ⟨c, List.mem_append_left _ hc, hline⟩
    · have hv' := (hleaves v).mp hv
      exact ⟨_, List.mem_append_right _ (hwrites v hv'), hlate hv'.1⟩

theorem Told.run (wanted : Bool) (texts : Nat → Option String) (h : Told s pre l)
    (ha : Agrees s p rest l) (hcode : s.code = pre ++ rest)
    (hrun : p.run pre.length rest = .ok q) :
    let l' := ((instructions s wanted texts rest).run l).2
    Told s s.code l' ∧ Agrees s q [] l' := by
  induction rest generalizing pre p l with
  | nil =>
    rw [List.append_nil] at hcode
    cases hrun
    exact ⟨hcode ▸ h, ha⟩
  | cons i rest ih =>
    obtain ⟨hadmits, hrun'⟩ := (Code.Progress.run_cons_eq_ok_iff ha.balanced).mp hrun
    obtain ⟨hnoted, -, hpending, -⟩ := ha.noted wanted (texts i.index)
    have htold := h.quiet (tells_note wanted (texts i.index) l) hpending
    obtain ⟨hstep, -⟩ := hnoted.step (P := fun _ => false) hadmits hcode (fun _ _ => rfl)
      fun _ _ => rfl
    refine ih (htold.step hnoted hadmits hcode) hstep ?_ ?_
    · rw [hcode, List.append_assoc]
      rfl
    · rwa [List.length_append]

/-- What waits is used later, so nothing waits in the end. -/
theorem Told.finish (h : Told s s.code l) (ha : Agrees s q [] l) (wanted : Bool)
    (text : Option String) :
    Told s s.code ((do drain s n; note wanted text : Render Unit).run l).2 := by
  have hempty : l.pending = [] := by
    refine List.eq_nil_iff_forall_not_mem.mpr fun v hv => ?_
    have honce := (ha.valid.once v hv).1
    simp [Code.uses] at honce
  have hdrained := h.quiet (tells_drain_of_empty (n := n) hempty) (pending_drain.trans hempty.symm)
  refine hdrained.quiet (tells_note wanted text _) ?_
  cases wanted <;> cases text <;> rfl

/-- All lines of a checked program. -/
theorem told_program (hcheck : s.code.check = .ok ()) (annotations : Annotations)
    (comments : Comments) (declarations : List (Nat × OuterAssignments)) :
    Told s s.code ((program s annotations comments).run { declarations := declarations }).2 := by
  obtain ⟨q, hrun, -⟩ := Code.check_eq_ok_iff_run.mp hcheck
  obtain ⟨hnoted, -, hpending, -⟩ :=
    (agrees_start hrun declarations).noted annotations.comments comments.header
  have hstart := (told_start (s := s) declarations).quiet
    (tells_note annotations.comments comments.header _) hpending
  obtain ⟨hend, hagrees⟩ := hstart.run annotations.comments comments.get? hnoted
    (List.nil_append _).symm hrun
  exact hend.finish hagrees annotations.comments comments.footer

end Render

theorem Lifting.mem_coded {l : Lifting} {c : Content} :
    c ∈ l.coded ↔ ∃ x ∈ l.lines, x.content = c ∧ c.position?.isSome = true := by
  rw [coded, List.mem_filter, List.mem_map]
  constructor
  · rintro ⟨⟨x, hx, rfl⟩, hc⟩
    exact ⟨x, hx, rfl, hc⟩
  · rintro ⟨x, hx, rfl, hc⟩
    exact ⟨⟨x, hx, rfl⟩, hc⟩

/-- An annotated line is the line without its position, and then the position. -/
theorem Line.exists_code {annotations : Annotations} {x : Line} {n : Nat}
    (hpositions : annotations.positions = true) (hn : x.content.position? = some n) :
    ∃ code, x.text {} = code ++ "\n" ∧
      x.text annotations = code ++ "  # " ++ toString n ++ "\n" := by
  have hsuffix : suffix annotations n = "  # " ++ toString n := if_pos hpositions
  obtain ⟨d, content⟩ := x
  have hcode (code : String) (hbody : ∀ annotations, body annotations content =
      code ++ suffix annotations n) : ∃ code, (⟨d, content⟩ : Line).text {} = code ++ "\n" ∧
        (⟨d, content⟩ : Line).text annotations = code ++ "  # " ++ toString n ++ "\n" := by
    refine ⟨"".pushn ' ' (4 * d) ++ code, ?_, ?_⟩
    · rw [text, hbody, show suffix {} n = "" from rfl, String.append_empty]
    · rw [text, hbody, hsuffix]
      simp only [String.append_assoc]
  cases content with
  | statement st m => cases hn; exact hcode st.text fun _ => rfl
  | header hd m => cases hn; exact hcode hd.text fun _ => rfl
  | comment text => cases hn
  | filler => cases hn

/-- The line comes of the instruction `i`, and tells the position `n`. -/
structure Content.Originates (s : Subject) (i : Instruction) (n : Nat) (c : Content) : Prop where
  renders : i.Renders s c
  plain : (∀ v, ¬c.Binds s v) → n = i.index
  declares : ∀ v, c.Binds s v → i.output? = some v
  /-- Only a value that waited does not tell where it is computed. -/
  binds : ∀ v, c.Binds s v → (n = i.index ↔ ¬i.Defers s.code v)
  deferred : ∀ v, c.Binds s v → i.Defers s.code v → i.index < n ∧
    (∃ j ∈ s.code, j.index = n ∧ v ∈ s.code.released j) ∧ ∃ u ∈ s.code.drop n, v ∈ u.inputs

theorem Content.InTime.originates {s : Subject} {i : Instruction} {n : Nat} {c : Content}
    (h : c.InTime s i) (hn : c.position? = some n) : c.Originates s i n := by
  have hindex : n = i.index := Option.some.inj (hn.symm.trans h.position)
  exact ⟨h.renders, fun _ => hindex, fun v hv => hv.output? h.renders,
    fun v hv => iff_of_true hindex (h.binds v hv),
    fun v hv hdefers => absurd hdefers (h.binds v hv)⟩

theorem Render.Late.tells {s : Subject} {i : Instruction} {v : Variable} {c : Content}
    (h : Late s i v c) : c.position? = some i.index ∧ c.Binds s v := by
  cases h
  exact ⟨rfl, _, _, rfl⟩

theorem Render.Late.originates {s : Subject} {i : Instruction} {v : Variable} {c : Content}
    (h : Late s i v c) (hi : i ∈ s.code) (hv : v ∈ s.code.released i) :
    ∃ j ∈ s.code, c.Originates s j i.index := by
  obtain @⟨j, es, hj, hlt, hdefers, hes, hused⟩ := h
  refine ⟨j, hj, .binding (of_computes hdefers.computes).1 hdefers.output hes, ?_, ?_, ?_, ?_⟩
  · exact fun hnone => absurd ⟨_, _, rfl⟩ (hnone v)
  · intro w hw
    rw [← hw.eq]
    exact hdefers.output
  · intro w hw
    rw [← hw.eq]
    exact iff_of_false (Nat.ne_of_gt hlt) (not_not_intro hdefers)
  · intro w hw _
    rw [← hw.eq]
    exact ⟨hlt, ⟨i, hi, rfl, hv⟩, hused⟩

end Python

/-- Every line of code tells a position. If it binds no variable, it comes of the instruction at this
position. If it binds a variable, it comes of the instruction that declares the variable, and tells the
position of this instruction exactly if the value did not wait: otherwise it tells a later one, at which
the variable leaves the queue, and which is not behind the only use. All variables that leave the queue
for their names have such a line. -/
theorem Program.positions_layout (p : Program) (r : Rendering) (hcheck : p.code.check = .ok ())
    (hpositions : r.annotations.positions = true) :
    let s : Subject := .ofCode p.code
    let lines := (p.layout r.annotations).lines.toList
    r.source p = Rendering.terminated r.opening ++
        String.join (lines.map (Line.text r.annotations)) ++ Rendering.terminated r.closing ∧
      (∀ x ∈ lines, ∀ n, x.content.position? = some n →
        (∃ code, x.text {} = code ++ "\n" ∧
          x.text r.annotations = code ++ "  # " ++ toString n ++ "\n") ∧
        ∃ i ∈ p.code, x.content.Originates s i n) ∧
      ∀ j ∈ p.code, ∀ v ∈ p.code.released j, ∃ x ∈ lines,
        x.content.position? = some j.index ∧ x.content.Binds s v := by
  have htold := told_program (s := .ofCode p.code) hcheck r.annotations p.comments
    p.code.outerAssignments
  refine ⟨rfl, fun x hx n hn => ⟨Line.exists_code hpositions hn, ?_⟩, fun j hj v hv => ?_⟩
  · have hmem := Lifting.mem_coded.mpr ⟨x, hx, rfl, by rw [hn]; rfl⟩
    obtain ⟨i, hi, hown | ⟨v, hv, hlate⟩⟩ := htold.lines x.content hmem
    · exact ⟨i, hi, hown.originates hn⟩
    · rw [Option.some.inj (hn.symm.trans hlate.tells.1)]
      exact hlate.originates hi hv
  · obtain ⟨c, hc, hlate⟩ := htold.released j hj v hv
    obtain ⟨x, hx, rfl, -⟩ := Lifting.mem_coded.mp hc
    exact ⟨x, hx, hlate.tells⟩

/-- The value of a call waits when something else is done. -/
def Program.delayedCall : Program where
  id := default
  code := .ofRows [
    (.loadBuiltin "f", [0]),
    (.callFunction 0, [0, 1]),
    (.nop, []),
    (.print, [1])]

theorem Program.positions_layout_delayedCall :
    let r : Rendering := { annotations := { positions := true } }
    delayedCall.code.check = .ok () ∧ r.annotations.positions = true ∧
      ∀ x ∈ (delayedCall.layout r.annotations).lines.toList, ∀ n, x.content.position? = some n →
        ∃ i ∈ delayedCall.code, x.content.Originates (.ofCode delayedCall.code) i n :=
  ⟨rfl, rfl, fun x hx n hn => ((positions_layout delayedCall _ rfl rfl).2.1 x hx n hn).2⟩

/-- The line that binds the value tells the position of what made it leave the queue. -/
theorem Program.source_delayedCall :
    delayedCall.code.check = .ok () ∧
      ({ annotations := { positions := true } } : Rendering).source delayedCall =
        "v1 = f()  # 2\npass  # 2\nMirror.print(v1)  # 3\n" ∧
      ¬∀ x ∈ (delayedCall.layout { positions := true }).lines.toList, ∀ n v,
        x.content.position? = some n → x.content.Binds (.ofCode delayedCall.code) v →
          ∀ i ∈ delayedCall.code, i.output? = some v → n = i.index := by
  refine ⟨rfl, by decide +kernel, fun h => ?_⟩
  have hcall : _ ∈ delayedCall.code := List.mem_cons_of_mem _ List.mem_cons_self
  have hindex := h _ List.mem_cons_self 2 ⟨1⟩ rfl ⟨_, _, rfl⟩ _ hcall rfl
  cases hindex

end ScriptFuzz
