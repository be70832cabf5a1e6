import ScriptFuzz.Proofs.Python.EffectOrder

/-!
# When reassigned variables are read

A variable that is assigned again is always written as its name, and its value is read where the name
stands. `Program.readsInTime_iff` says exactly when that is too early: when an input that the language
evaluates later is written in place, because then what it computes has not happened yet.
-/

namespace ScriptFuzz

set_option autoImplicit false

open Python Python.Render Python.Lifting

/-- What earlier instructions compute happens before the instruction at position `k` reads `v`. -/
def Python.ReadsInTime (trace : List (List Nat × Event)) (k : Nat) (v : Variable) : Prop :=
  trace.Pairwise fun x y => x.2 = .reads k v → ∀ m < k, y.2 ≠ .computes m

/-- The variables that wait before the instruction at position `k`. -/
def Code.waiting (c : Code) (k : Nat) : List Variable := c.queueAfter [] (c.take k)

/-- Whether an event matters for when the instruction at position `k` reads `v`. -/
def Python.Event.concerns (k : Nat) (v : Variable) : Event → Bool
  | .reads reader w => reader = k && w = v
  | .computes m => m < k
  | .performs _ | .opens _ => false

namespace Python.Render

variable {s : Subject} {l : Lifting} {k n : Nat} {v w : Variable} {pre is : Code} {i : Instruction}
  {p q : Code.Progress}

theorem readsInTime_filter {trace : List (List Nat × Event)} :
    ReadsInTime (trace.filter fun x => x.2.concerns k v) k v ↔ ReadsInTime trace k v := by
  unfold ReadsInTime
  rw [List.pairwise_filter]
  refine ⟨List.Pairwise.imp ?_, List.Pairwise.imp ?_⟩
  · rintro ⟨_, x⟩ ⟨_, y⟩ h rfl m hm rfl
    exact h (by simp [Event.concerns]) (by simpa [Event.concerns] using hm) rfl m hm rfl
  · intro x y h _ _
    exact h

theorem readsInTime_append {before after : List (List Nat × Event)}
    (h : ∀ x ∈ before, x.2 ≠ .reads k v) :
    ReadsInTime (before ++ after) k v ↔ ReadsInTime after k v := by
  unfold ReadsInTime
  rw [List.pairwise_append]
  constructor
  · rintro ⟨-, hafter, -⟩
    exact hafter
  · intro hafter
    refine ⟨List.pairwise_of_forall_mem_list ?_, hafter, ?_⟩
    · intro x hx _ _ hread
      exact absurd hread (h x hx)
    · intro x hx _ _ hread
      exact absurd hread (h x hx)

/-- Only variables that never change wait. -/
theorem isSingleAssignment_of_mem_queueAfter {c a : Code} {pending : List Variable}
    (h : v ∈ c.queueAfter pending a) (hp : v ∉ pending) :
    (c.usage v).isSingleAssignment = true := by
  induction a generalizing pending with
  | nil => exact absurd h hp
  | cons i is ih =>
    by_cases hv : v ∈ i.queued c (kept i.slots pending)
    · have hkept : v ∉ kept i.slots pending := by
        intro hk
        exact hp (List.mem_of_mem_drop (List.mem_of_mem_take hk))
      unfold Instruction.queued at hv
      split at hv
      · split at hv
        · exact absurd hv hkept
        · cases hv
      · split at hv
        · cases hv
        · split at hv
          · rename_i hsingle
            rcases List.mem_append.mp hv with hv | hv
            · exact absurd hv hkept
            · rw [List.mem_singleton.mp hv]
              exact hsingle.1
          · cases hv
      · cases hv
    · exact ih h hv

/-- Nothing done or waiting before the instruction at position `k` is read by it, and what is computed is
computed by earlier instructions. -/
structure Precedes (s : Subject) (k : Nat) (l : Lifting) : Prop where
  reads : ∀ x ∈ l.trace s, ∀ w, x.2 ≠ .reads k w
  computes : ∀ x ∈ l.trace s, ∀ m, x.2 = .computes m → m < k

theorem Precedes.of_trace_eq {l' : Lifting} (h : Precedes s k l) (ht : l'.trace s = l.trace s) :
    Precedes s k l' := by
  constructor <;> rw [ht]
  · exact h.reads
  · exact h.computes

/-- What is written in place computes something and reads nothing for the instruction itself. -/
theorem computes_of_inPlace {inputs : List (Variable × Slot)} {es : List Expr} {l₁ : Lifting}
    (hp : Precedes s n l) (ht : Taken s n k is l inputs es l₁) (hw : w ∈ inPlace inputs l.pending) :
    (∀ x ∈ (l₁.standsFor s w).trace n, ∀ u, x ≠ .reads n u) ∧
      ∃ m < n, Event.computes m ∈ (l₁.standsFor s w).trace n := by
  obtain ⟨m, e, he, -⟩ := ht.waits w hw
  have hmem (x : Event) (hx : x ∈ (l₁.standsFor s w).trace n) :
      (l.layout.path, x) ∈ l.trace s := by
    rw [ht.trace]
    refine List.mem_append_right _ (List.mem_map_of_mem ?_)
    refine List.mem_flatMap.mpr ⟨w, hw, ?_⟩
    rw [he] at hx ⊢
    exact hx
  have hcomputes : Event.computes m ∈ (l₁.standsFor s w).trace n := by
    rw [he, Expr.trace]
    exact List.mem_append_right _ (List.mem_singleton_self _)
  exact ⟨fun x hx u => hp.reads _ (hmem x hx) u, m, hp.computes _ (hmem _ hcomputes) m rfl,
    hcomputes⟩

/-- Every other input is read, unless it is a constant. -/
theorem reads_of_not_mem_inPlace {inputs : List (Variable × Slot)} {es : List Expr} {l₁ : Lifting}
    (ht : Taken s n k is l inputs es l₁) (hw : w ∈ inputs.map Prod.fst)
    (hn : w ∉ inPlace inputs l.pending) : (l₁.standsFor s w).trace n = [.reads n w] ∨
      (s.code.usage w).isSingleAssignment = true ∧ (l₁.standsFor s w).trace n = [] := by
  have hs := ht.settled w hw hn
  generalize l₁.standsFor s w = e at hs
  cases hs with
  | named => exact .inl rfl
  | constant single silent _ => exact .inr ⟨single, silent _⟩

theorem readsInTime_operands {es : List Expr} {l₁ : Lifting} {path : List Nat}
    (hp : Precedes s i.index l) (ht : Taken s i.index k is l i.slots es l₁)
    (hv : (s.code.usage v).isSingleAssignment = false)
    (hwait : ∀ w ∈ l.pending, (s.code.usage w).isSingleAssignment = true) :
    ReadsInTime (((i.reading i.slots).flatMap fun x => (l₁.standsFor s x.1).trace i.index).map
        (Prod.mk path)) i.index v ↔
      (i.reading i.inputs).Pairwise fun u w => u = v → w ∉ inPlace i.slots l.pending := by
  have hnot : v ∉ inPlace i.slots l.pending := by
    intro hin
    have := hwait v (List.mem_of_mem_drop hin)
    rw [hv] at this
    cases this
  have hinputs : i.reading i.inputs = (i.reading i.slots).map Prod.fst := by
    rw [i.map_reading, i.map_fst_slots]
  have hsettled (x : Variable × Slot) (hx : x ∈ i.reading i.slots) :=
    reads_of_not_mem_inPlace ht (List.mem_map_of_mem (i.mem_of_mem_reading hx))
  unfold ReadsInTime
  rw [List.pairwise_map, List.pairwise_flatMap, hinputs, List.pairwise_map]
  have heach : ∀ x ∈ i.reading i.slots, ((l₁.standsFor s x.1).trace i.index).Pairwise fun a b =>
      (Prod.mk path a).2 = .reads i.index v → ∀ m < i.index, (Prod.mk path b).2 ≠ .computes m := by
    intro x hx
    by_cases hin : x.1 ∈ inPlace i.slots l.pending
    · refine List.pairwise_of_forall_mem_list ?_
      intro a ha _ _ hread
      exact absurd hread ((computes_of_inPlace hp ht hin).1 a ha v)
    · rcases hsettled x hx hin with h | ⟨-, h⟩ <;> simp [h]
  refine Iff.trans (and_iff_right heach) (List.Pairwise.iff_of_mem ?_)
  intro x y hx hy
  constructor
  · rintro h rfl hin
    obtain ⟨m, hm, hcomputes⟩ := (computes_of_inPlace hp ht hin).2
    have hread : (l₁.standsFor s x.1).trace i.index = [.reads i.index x.1] := by
      rcases hsettled x hx hnot with h' | ⟨h', -⟩
      · exact h'
      · rw [hv] at h'
        cases h'
    exact h _ (hread ▸ List.mem_singleton_self _) _ hcomputes rfl m hm rfl
  · rintro h a ha b hb rfl m hm rfl
    have hxv : x.1 = v := by
      by_cases hin : x.1 ∈ inPlace i.slots l.pending
      · exact absurd rfl ((computes_of_inPlace hp ht hin).1 _ ha v)
      · rcases hsettled x hx hin with h' | ⟨-, h'⟩
        · rw [h', List.mem_singleton] at ha
          cases ha
          rfl
        · rw [h'] at ha
          cases ha
    rcases hsettled y hy (h hxv) with h' | ⟨-, h'⟩ <;> simp [h'] at hb

theorem run_instructions_append (wanted : Bool) (texts : Nat → Option String) (a b : Code)
    (l : Lifting) : (instructions s wanted texts (a ++ b)).run l =
      (instructions s wanted texts b).run ((instructions s wanted texts a).run l).2 := by
  induction a generalizing l with
  | nil => rfl
  | cons i is ih => exact ih _

/-- Events of the instructions `c` concern the read of no other instruction, unless something is computed
before that. -/
theorem filter_schedule_of_lt (h : ∀ j ∈ is, k ≤ j.index) (path : List Nat) :
    ((is.schedule path).filter fun x => x.2.concerns k v) = [] := by
  rw [List.filter_eq_nil_iff]
  intro x hx
  obtain ⟨j, hj, he⟩ := Code.mem_schedule hx
  have := h j hj
  rcases of_event? he with he | he | ⟨he, -⟩ <;> simp [he, Event.concerns, this]

variable {wanted : Bool} {texts : Nat → Option String}

/-- Rendering the instructions before position `k` leads to a state that precedes it. -/
theorem Agrees.precedes (h : Agrees s p (pre ++ is) l) (hcode : s.code = pre ++ is)
    (hrun : p.run n pre = .ok q) (hlt : ∀ j ∈ pre, j.index < k) (hl : l.trace s = []) :
    Precedes s k ((instructions s wanted texts pre).run l).2 := by
  constructor
  · intro x hx w hread
    obtain ⟨-, -, -, htrace⟩ := h.run (fun x => x.2.isReadBy k) wanted texts [] hcode hrun
      (fun j hj _ _ => by simpa [Event.isReadBy] using Nat.ne_of_lt (hlt j hj))
      (fun _ _ _ _ => rfl)
    have hmem : x ∈ (((instructions s wanted texts pre).run l).2.trace s).filter
        fun x => x.2.isReadBy k := List.mem_filter.mpr ⟨hx, by simp [hread, Event.isReadBy]⟩
    rw [htrace, hl, List.filter_nil, List.nil_append] at hmem
    obtain ⟨j, -, he⟩ := Code.mem_schedule (List.mem_filter.mp hmem).1
    rw [hread] at he
    rcases of_event? he with he | he | ⟨he, -⟩ <;> cases he
  · intro x hx m hcomputes
    obtain ⟨-, -, -, htrace⟩ := h.run (fun x => x.2.computation?.isSome) wanted texts [] hcode hrun
      (fun _ _ _ _ => rfl) (fun _ _ _ _ => rfl)
    have hmem : x ∈ (((instructions s wanted texts pre).run l).2.trace s).filter
        fun x => x.2.computation?.isSome :=
      List.mem_filter.mpr ⟨hx, by simp [hcomputes, Event.computation?]⟩
    rw [htrace, hl, List.filter_nil, List.nil_append] at hmem
    obtain ⟨j, hj, he⟩ := Code.mem_schedule (List.mem_filter.mp hmem).1
    rw [hcomputes] at he
    rcases of_event? he with he | he | ⟨he, -⟩ <;> cases he
    exact hlt j hj

/-- An instruction takes its inputs from the state `l`, in which only variables wait that never change.
What concerns its reads in a trace happens before, or where the inputs are evaluated. -/
structure ReadsFrom (s : Subject) (i : Instruction) (l l₁ : Lifting)
    (trace : List (List Nat × Event)) : Prop where
  precedes : Precedes s i.index l
  unchanged : ∀ w ∈ l.pending, (s.code.usage w).isSingleAssignment = true
  taken : ∃ k is es, Taken s i.index k is l i.slots es l₁
  trace : ∃ before, (∀ x ∈ before, ∀ w, x.2 ≠ .reads i.index w) ∧ ∀ v,
    (trace.filter fun x => x.2.concerns i.index v) =
      (before ++ ((i.reading i.slots).flatMap fun x => (l₁.standsFor s x.1).trace i.index).map
        (Prod.mk l.layout.path)).filter fun x => x.2.concerns i.index v

/-- Rendering an instruction in the middle of code. -/
theorem Agrees.readsFrom (h : Agrees s p (i :: is) l) (wanted : Bool)
    (texts : Nat → Option String) (ha : p.Admits n i) (hcode : s.code = pre ++ i :: is)
    (hrun : (p.after i).run (n + 1) is = .ok q)
    (hlater : ∀ j ∈ is, i.index < j.index) (hprecedes : Precedes s i.index l)
    (hwait : ∀ w ∈ l.pending, (s.code.usage w).isSingleAssignment = true) :
    ∃ l₁, ReadsFrom s i l l₁
      (((instructions s wanted texts is).run ((instruction s i).run l).2).2.trace s) := by
  obtain ⟨l₁, es, own, htaken, hown, hadds, -⟩ :=
    exists_step h.valid hcode h.numbered (h.not_waiting ha)
  obtain ⟨hstep, -⟩ := h.step (P := fun _ => false) ha hcode (fun _ _ => rfl) (fun _ _ => rfl)
  have hcode' : s.code = (pre ++ [i]) ++ (is ++ []) := by
    rw [hcode]
    simp
  rw [← List.append_nil is] at hstep
  have hown' (v : Variable) : (own.filter fun x => x.2.concerns i.index v) = [] := by
    rw [List.filter_eq_nil_iff]
    intro x hx
    cases hown with
    | event =>
      obtain ⟨e, he, rfl⟩ := List.mem_map.mp hx
      rcases of_event? (Option.mem_toList.mp he) with he | he | ⟨he, -⟩ <;>
        simp [he, Event.concerns]
    | emptySwitch _ =>
      rw [List.mem_singleton.mp hx]
      simp [Event.concerns]
  have hbefore : ∀ x ∈ l₁.trace s, ∀ w, x.2 ≠ .reads i.index w := by
    intro x hx
    refine hprecedes.reads x ?_
    rw [htaken.trace]
    exact List.mem_append_left _ hx
  refine ⟨l₁, hprecedes, hwait, ⟨_, _, _, htaken⟩, l₁.trace s, hbefore, ?_⟩
  intro v
  obtain ⟨-, -, -, htrace⟩ := hstep.run (fun x => x.2.concerns i.index v) wanted texts _ hcode' hrun
    (fun j hj _ _ => by simp [Event.concerns, Nat.ne_of_gt (hlater j hj)])
    (fun _ _ _ _ => rfl)
  rw [htrace, filter_schedule_of_lt fun j hj => Nat.le_of_lt (hlater j hj), List.append_nil,
    hadds.trace, List.filter_append, List.filter_append, hown', List.append_nil, List.filter_append]

/-- What stands for an input reads a variable that changes only if the input is this variable. -/
theorem count_reads_input {es : List Expr} {l₁ : Lifting} (hp : Precedes s i.index l)
    (ht : Taken s i.index k is l i.slots es l₁)
    (hv : (s.code.usage v).isSingleAssignment = false)
    (hwait : ∀ w ∈ l.pending, (s.code.usage w).isSingleAssignment = true)
    {x : Variable × Slot} (hx : x ∈ i.reading i.slots) :
    ((l₁.standsFor s x.1).trace i.index).count (.reads i.index v) = [x.1].count v := by
  by_cases hin : x.1 ∈ inPlace i.slots l.pending
  · have hne : x.1 ≠ v := by
      rintro rfl
      rw [hwait x.1 (List.mem_of_mem_drop hin)] at hv
      cases hv
    rw [List.count_eq_zero.mpr fun hmem => (computes_of_inPlace hp ht hin).1 _ hmem v rfl,
      List.count_singleton, beq_false_of_ne hne]
    rfl
  · rcases reads_of_not_mem_inPlace ht (List.mem_map_of_mem (i.mem_of_mem_reading hx)) hin with
      hread | ⟨hsingle, hsilent⟩
    · rw [hread, List.count_singleton, List.count_singleton]
      simp
    · have hne : x.1 ≠ v := by
        rintro rfl
        rw [hsingle] at hv
        cases hv
      rw [hsilent, List.count_singleton, beq_false_of_ne hne]
      rfl

/-- A variable that changes is read wherever it is an input, and as often. -/
theorem ReadsFrom.count {l₁ : Lifting} {trace : List (List Nat × Event)}
    (h : ReadsFrom s i l l₁ trace) (hv : (s.code.usage v).isSingleAssignment = false) :
    (trace.map Prod.snd).count (.reads i.index v) = (i.reading i.inputs).count v := by
  obtain ⟨k, is, es, ht⟩ := h.taken
  obtain ⟨before, hbefore, htrace⟩ := h.trace
  have hfilter (xs : List (List Nat × Event)) : (xs.map Prod.snd).count (.reads i.index v) =
      ((xs.filter fun x => x.2.concerns i.index v).map Prod.snd).count (.reads i.index v) := by
    rw [List.count_eq_countP, List.countP_map, List.count_eq_countP, List.countP_map,
      List.countP_filter]
    refine List.countP_congr fun x _ => ?_
    simp only [Function.comp_apply, beq_iff_eq, Bool.and_eq_true]
    exact ⟨fun hx => ⟨hx, by simp [hx, Event.concerns]⟩, And.left⟩
  have hnone : (before.map Prod.snd).count (.reads i.index v) = 0 := by
    refine List.count_eq_zero.mpr fun hmem => ?_
    obtain ⟨x, hx, hread⟩ := List.mem_map.mp hmem
    exact hbefore x hx v hread
  have hinputs : i.reading i.inputs = (i.reading i.slots).map Prod.fst := by
    rw [i.map_reading, i.map_fst_slots]
  have heach (xs : List (Variable × Slot)) (hxs : ∀ x ∈ xs, x ∈ i.reading i.slots) :
      (xs.flatMap fun x => (l₁.standsFor s x.1).trace i.index).count (.reads i.index v) =
        (xs.map Prod.fst).count v := by
    induction xs with
    | nil => rfl
    | cons x xs ih =>
      obtain ⟨hx, hxs⟩ := List.forall_mem_cons.mp hxs
      rw [List.flatMap_cons, List.count_append, ih hxs, count_reads_input h.precedes ht hv h.unchanged hx,
        ← List.count_append]
      rfl
  rw [hfilter, htrace v, ← hfilter, List.map_append, List.count_append, hnone, Nat.zero_add,
    List.map_map, show Prod.snd ∘ Prod.mk l.layout.path = (id : Event → Event) from rfl, List.map_id,
    heach _ fun _ hx => hx, hinputs]

end Python.Render

/-- Rendering code leads to a state from which an instruction takes its inputs. -/
theorem Program.exists_readsFrom (p : Program) (annotations : Annotations)
    (h : p.code.check = .ok ()) {i : Instruction} (hi : i ∈ p.code) :
    ∃ l l₁, ReadsFrom (.ofCode p.code) i l l₁ (p.layout annotations).trace ∧
      l.pending = p.code.waiting i.index := by
  obtain ⟨q, hrun, -⟩ := Code.check_eq_ok_iff_run.mp h
  -- The code before the instruction, and that after it.
  obtain ⟨hlt, hdrop⟩ := List.getElem?_eq_some_iff.mp (Code.getElem?_index h hi)
  have hcode : p.code = p.code.take i.index ++ i :: p.code.drop (i.index + 1) := by
    conv_lhs => rw [← List.take_append_drop i.index p.code, List.drop_eq_getElem_cons hlt, hdrop]
  generalize hpre : p.code.take i.index = pre at hcode
  generalize p.code.drop (i.index + 1) = is at hcode
  have hrun' := hrun
  rw [hcode, Code.Progress.run_append_eq_ok_iff] at hrun'
  obtain ⟨p₁, hrun₁, hrun₂⟩ := hrun'
  -- Rendering what comes before.
  let s : Subject := .ofCode p.code
  have hs : s.code = pre ++ i :: is := hcode
  obtain ⟨hstart, -, hpending, htrace⟩ :=
    (agrees_start (s := s) hrun p.code.outerAssignments).noted annotations.comments
      p.comments.header
  generalize hl₀ : ((note annotations.comments p.comments.header).run
    { declarations := p.code.outerAssignments }).2 = l₀ at hstart hpending htrace
  rw [hs] at hstart
  obtain ⟨hbefore, -, hpending₁, -⟩ := hstart.run (fun _ => false) annotations.comments
    p.comments.get? [] hs hrun₁ (fun _ _ _ _ => rfl) (fun _ _ _ _ => rfl)
  obtain ⟨hadmits, hrun₃⟩ := (Code.Progress.run_cons_eq_ok_iff hbefore.balanced).mp hrun₂
  have hindex := hadmits.index
  rw [Nat.zero_add] at hindex
  have hearlier : ∀ j' ∈ pre, j'.index < i.index := by
    intro j' hj'
    have := (Code.Progress.getElem?_index Code.Progress.balanced_start hrun₁ hj').2
    have := (List.getElem?_eq_some_iff.mp this).1
    omega
  have hprecedes : Precedes s i.index
      ((instructions s annotations.comments p.comments.get? pre).run l₀).2 :=
    hstart.precedes hs hrun₁ hearlier htrace
  have hwaiting : ((instructions s annotations.comments p.comments.get? pre).run l₀).2.pending =
      p.code.waiting i.index := by
    rw [hpending₁, hpending, Code.waiting, hpre]
    rfl
  -- Rendering the instruction, and what comes after.
  obtain ⟨hnoted, -, hpending₂, htrace₂⟩ :=
    hbefore.noted annotations.comments (p.comments.get? i.index)
  have hlater : ∀ j' ∈ is, i.index < j'.index := by
    intro j' hj'
    have := (Code.Progress.getElem?_index (hbefore.balanced.after hadmits) hrun₃ hj').1
    omega
  have hwait : ∀ w ∈ ((note annotations.comments (p.comments.get? i.index)).run
      ((instructions s annotations.comments p.comments.get? pre).run l₀).2).2.pending,
      (s.code.usage w).isSingleAssignment = true := by
    intro w hw
    rw [hpending₂, hwaiting] at hw
    exact isSingleAssignment_of_mem_queueAfter hw List.not_mem_nil
  obtain ⟨l₁, hreads⟩ := hnoted.readsFrom annotations.comments p.comments.get? hadmits hs hrun₃ hlater
    (hprecedes.of_trace_eq htrace₂) hwait
  refine ⟨_, l₁, ?_, hpending₂.trans hwaiting⟩
  -- Nothing more is done after the last instruction.
  have hcode' : s.code = [] ++ ((pre ++ i :: is) ++ []) := by
    rw [hs]
    simp
  rw [← List.append_nil (pre ++ i :: is)] at hstart
  obtain ⟨hend, -⟩ := hstart.run (fun _ => false) annotations.comments p.comments.get? [] hcode'
    (hcode ▸ hrun)
    (fun _ _ _ _ => rfl) (fun _ _ _ _ => rfl)
  obtain ⟨hfinal, -⟩ := hend.finish (n := (s.code.getLast?.map (·.index)).getD 0)
    annotations.comments p.comments.footer
  have hlayout : ((do
      drain s ((s.code.getLast?.map (·.index)).getD 0)
      note annotations.comments p.comments.footer : Render Unit).run
        ((instructions s annotations.comments p.comments.get? (pre ++ i :: is)).run l₀).2).2.layout =
      p.layout annotations := by
    rw [← hs, ← hl₀]
    rfl
  rw [hlayout, run_instructions_append] at hfinal
  rw [hfinal]
  exact hreads

/-- A variable that is assigned again is read in time exactly if no input that is evaluated after it is
written in place. -/
theorem Program.readsInTime_iff (p : Program) (annotations : Annotations)
    (h : p.code.check = .ok ()) {i j : Instruction} (hi : i ∈ p.code) (hj : j ∈ p.code)
    (ha : j.op.assigns = true) :
    ReadsInTime (p.layout annotations).trace i.index (j.input 0) ↔
      (i.reading i.inputs).Pairwise fun u w =>
        u = j.input 0 → w ∉ inPlace i.slots (p.code.waiting i.index) := by
  obtain ⟨q, hrun, -⟩ := Code.check_eq_ok_iff_run.mp h
  have hnumbered := Code.Progress.numbered_of_run Code.Progress.balanced_start
    Code.Progress.seesNumbered_start hrun
  have hsingle := Code.isSingleAssignment_of_assigns hnumbered hj ha
  obtain ⟨l, l₁, hreads, hpending⟩ := p.exists_readsFrom annotations h hi
  obtain ⟨k, is, es, htaken⟩ := hreads.taken
  obtain ⟨before, hbefore, htrace⟩ := hreads.trace
  rw [← readsInTime_filter, htrace, readsInTime_filter,
    readsInTime_append fun x hx => hbefore x hx _, ← hpending]
  exact readsInTime_operands hreads.precedes htaken hsingle hreads.unchanged

/-- A function that changes a variable is called for the operand after that variable. -/
def Program.changedByCall : Program where
  id := default
  code := .ofRows [
    (.loadInteger 1, [0]),
    (.beginPlainFunction 0, [1]),
    (.loadInteger 5, [2]),
    (.reassign, [0, 2]),
    (.ret, [2]),
    (.endPlainFunction, []),
    (.callFunction 0, [1, 3]),
    (.binaryOperation .add, [0, 3, 4]),
    (.print, [4])]

/-- The sum reads the variable before the call that precedes it. -/
theorem Program.not_readsInTime_changedByCall :
    changedByCall.code.check = .ok () ∧
      ¬ ReadsInTime (changedByCall.layout {}).trace 7 ⟨0⟩ := by
  refine ⟨rfl, ?_⟩
  have h := readsInTime_iff changedByCall {} rfl
    (i := ⟨.binaryOperation .add, [⟨0⟩, ⟨3⟩, ⟨4⟩], 7, rfl⟩)
    (j := ⟨.reassign, [⟨0⟩, ⟨2⟩], 3, rfl⟩) (by decide) (by decide) rfl
  exact fun hread => absurd (h.mp hread) (by decide)

end ScriptFuzz
