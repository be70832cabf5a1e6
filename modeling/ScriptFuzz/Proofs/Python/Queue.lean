import ScriptFuzz.Proofs.Code.Uses
import ScriptFuzz.Proofs.Python.Trace
import Mathlib.Data.List.Forall2

/-!
# The queue of waiting expressions

`Lifting.trace` is what the lines written so far do, followed by what the waiting expressions will do.
Binding the first waiting expressions to their names does not change it; the expressions that
`operands` takes are the last in it.
-/

namespace ScriptFuzz.Python

set_option autoImplicit false

/-- What stands for a variable that is not waiting: its own name, or a constant if it never changes. -/
inductive Settled (s : Subject) (v : Variable) : Expr → Prop where
  | named : Settled s v (.name (s.nameOf v))
  | constant {e : Expr} (single : (s.code.usage v).isSingleAssignment = true)
      (silent : ∀ n, e.trace n = []) (plain : e.deferred = []) : Settled s v e

theorem Settled.deferred {s : Subject} {v : Variable} {e : Expr} (h : Settled s v e) :
    e.deferred = [] := by
  cases h with
  | named => rfl
  | constant _ _ plain => exact plain

theorem Settled.computations {s : Subject} {v : Variable} {e : Expr} (h : Settled s v e) :
    e.computations = [] := by
  cases h with
  | named => rfl
  | constant _ silent _ => rw [Expr.computations, silent, List.filterMap_nil]

theorem Settled.ne_computed {s : Subject} {v : Variable} {e : Expr} (h : Settled s v e) (n : Nat)
    (e' : Expr) : e ≠ .computed n e' := by
  rintro rfl
  cases h with
  | constant _ silent _ => simpa [Expr.trace] using silent 0

namespace Lifting

/-- The expression that is written for a variable. -/
def standsFor (s : Subject) (l : Lifting) (v : Variable) : Expr :=
  (l.bindings.lookup v).getD (.name (s.nameOf v))

/-- What happens when variables' expressions are evaluated one after the other. -/
def traceOf (s : Subject) (l : Lifting) (vs : List Variable) : List Event :=
  vs.flatMap fun v => (l.standsFor s v).trace 0

theorem traceOf_append (s : Subject) (l : Lifting) (vs ws : List Variable) :
    l.traceOf s (vs ++ ws) = l.traceOf s vs ++ l.traceOf s ws := List.flatMap_append

/-- What happens in the lines written so far, and then in the waiting expressions. -/
def trace (s : Subject) (l : Lifting) : List (List Nat × Event) :=
  l.layout.trace ++ (l.traceOf s l.pending).map (Prod.mk l.layout.path)

/-- A variable's expression is what some instruction computes. -/
def Waits (s : Subject) (l : Lifting) (v : Variable) : Prop :=
  ∃ n e, l.standsFor s v = .computed n e ∧ e.deferred = []

/-- What holds of the state before the instructions `rest`, which declare the variables from number
`k` on: waiting variables are used once from here on, and all others that are used are settled. -/
structure Valid (s : Subject) (rest : Code) (k : Nat) (l : Lifting) : Prop where
  sound : l.layout.IsSound
  deferred : l.layout.deferred = []
  nodup : l.pending.Nodup
  waits : ∀ v ∈ l.pending, l.Waits s v
  once : ∀ v ∈ l.pending, rest.uses v = 1 ∧ v.number < k
  settled : ∀ v, v ∉ l.pending → 0 < rest.uses v → Settled s v (l.standsFor s v)

/-- What a part of rendering changes: it adds events to the lines, and makes the variables `vs` stand
for their names. -/
structure Moves (s : Subject) (l l' : Lifting) (vs : List Variable)
    (events : List (List Nat × Event)) (path : List Nat) : Prop where
  layout : l.layout.Extends l'.layout events path []
  named : ∀ v ∈ vs, l'.standsFor s v = .name (s.nameOf v)
  others : ∀ v, v ∉ vs → l'.standsFor s v = l.standsFor s v

variable {s : Subject} {l l' l'' : Lifting} {vs ws : List Variable} {v : Variable}
  {events events' : List (List Nat × Event)} {path path' : List Nat} {c c' : Code} {k : Nat}

theorem Moves.refl (hl : l.layout.IsSound) : Moves s l l [] [] l.layout.path :=
  ⟨Layout.extends_refl hl, by simp, fun _ _ => rfl⟩

theorem Moves.trans (h : Moves s l l' vs events path) (h' : Moves s l' l'' ws events' path') :
    Moves s l l'' (vs ++ ws) (events ++ events') path' := by
  refine ⟨h.layout.trans h'.layout, ?_, ?_⟩
  · intro v hv
    by_cases hw : v ∈ ws
    · exact h'.named v hw
    · rw [h'.others v hw]
      exact h.named v ((List.mem_append.mp hv).resolve_right hw)
  · intro v hv
    rw [List.mem_append, not_or] at hv
    rw [h'.others v hv.2, h.others v hv.1]

/-- What the lines do after a part of rendering, and the expressions that still wait. -/
theorem Moves.trace_eq {es : List Event} (h : Moves s l l' vs events l.layout.path)
    (he : events = es.map (Prod.mk l.layout.path)) (hp : ∀ v ∈ l'.pending, v ∉ vs) :
    l'.trace s = l.layout.trace ++
      (es ++ l.traceOf s l'.pending).map (Prod.mk l.layout.path) := by
  have htrace : l'.traceOf s l'.pending = l.traceOf s l'.pending := by
    refine List.flatMap_congr ?_
    intro v hv
    rw [h.others v (hp v hv)]
  rw [Lifting.trace, h.layout.trace, h.layout.path, htrace, he, List.map_append,
    List.append_assoc]

/-- The state stays valid if variables leave the queue only for their names, or are not used any
more. -/
theorem Valid.moves (h : l.Valid s c k) (hm : Moves s l l' vs events path)
    (hsub : l'.pending.Sublist l.pending) (hdisj : ∀ v ∈ l'.pending, v ∉ vs)
    (honce : ∀ v ∈ l'.pending, c'.uses v = 1)
    (hleft : ∀ v, 0 < c'.uses v → 0 < c.uses v ∧ (v ∈ l.pending → v ∈ vs ∨ v ∈ l'.pending)) :
    l'.Valid s c' k := by
  refine ⟨hm.layout.sound, ?_, h.nodup.sublist hsub, ?_, ?_, ?_⟩
  · rw [hm.layout.deferred, h.deferred, List.append_nil]
  · intro v hv
    rw [Waits, hm.others v (hdisj v hv)]
    exact h.waits v (hsub.subset hv)
  · intro v hv
    exact ⟨honce v hv, (h.once v (hsub.subset hv)).2⟩
  · intro v hv huse
    by_cases hvs : v ∈ vs
    · rw [hm.named v hvs]
      exact .named
    · obtain ⟨huse', hp⟩ := hleft v huse
      rw [hm.others v hvs]
      refine h.settled v ?_ huse'
      intro hmem
      rcases hp hmem with h' | h'
      · exact hvs h'
      · exact hv h'

/-- The state stays valid if the queue is emptied. -/
theorem Valid.moves_nil (h : l.Valid s c k) (hm : Moves s l l' vs events path)
    (hp : l'.pending = []) (hvs : l.pending ⊆ vs) : l'.Valid s c k := by
  refine h.moves hm (hp ▸ List.nil_sublist _) (by simp [hp]) (by simp [hp]) ?_
  intro v huse
  exact ⟨huse, fun hv => .inl (hvs hv)⟩

/-- The state stays valid if the queue stays as it is. -/
theorem Valid.moves_same (h : l.Valid s c k) (hm : Moves s l l' vs events path)
    (hp : l'.pending = l.pending) (hvs : ∀ v ∈ l.pending, v ∉ vs) : l'.Valid s c k := by
  refine h.moves hm (hp ▸ .refl _) (hp ▸ hvs) ?_ ?_
  · intro v hv
    rw [hp] at hv
    exact (h.once v hv).1
  · intro v huse
    exact ⟨huse, fun hv => .inr (hp ▸ hv)⟩

theorem Valid.mono {k' : Nat} (h : l.Valid s c k) (hk : k ≤ k') : l.Valid s c k' :=
  { h with once := fun v hv => ⟨(h.once v hv).1, Nat.lt_of_lt_of_le (h.once v hv).2 hk⟩ }

end Lifting

namespace Render

variable {s : Subject} {l : Lifting} {n k : Nat} {v : Variable} {vs : List Variable} {c : Code}

theorem run_bind {α β : Type} (m : Render α) (f : α → Render β) (l : Lifting) :
    (m >>= f).run l = (f (m.run l).1).run (m.run l).2 := rfl

theorem run_get_bind {α : Type} (f : Lifting → Render α) (l : Lifting) :
    (get >>= f).run l = (f l).run l := rfl

theorem run_forM_cons {α : Type} (f : α → Render Unit) (a : α) (as : List α) (l : Lifting) :
    ((a :: as).forM f).run l = (as.forM f).run ((f a).run l).2 := rfl

/-- A statement that is written right away. -/
theorem moves_write (hl : l.layout.IsSound) (st : Statement) (hd : st.deferred = []) :
    Lifting.Moves s l ((write n st).run l).2 [] ((st.trace n).map (Prod.mk l.layout.path))
      l.layout.path := by
  refine ⟨?_, by simp, fun _ _ => rfl⟩
  have h := Layout.extends_statement hl st n
  rw [hd] at h
  exact h

@[simp] theorem standsFor_setBinding_self (e : Expr) :
    ((setBinding v e).run l).2.standsFor s v = e := by
  change (((v, e) :: l.bindings).lookup v).getD _ = _
  rw [List.lookup_cons_self, Option.getD_some]

theorem standsFor_setBinding_of_ne {w : Variable} (e : Expr) (h : w ≠ v) :
    ((setBinding v e).run l).2.standsFor s w = l.standsFor s w := by
  have hne : (w == v) = false := by simpa using h
  change (((v, e) :: l.bindings).lookup w).getD _ = _
  rw [List.lookup_cons, hne]
  rfl

theorem moves_bindName (hl : l.layout.IsSound) :
    Lifting.Moves s l ((bindName s v).run l).2 [v] [] l.layout.path := by
  refine ⟨Layout.extends_refl hl, ?_, ?_⟩
  · intro w hw
    rw [List.mem_singleton.mp hw]
    exact standsFor_setBinding_self _
  · intro w hw
    exact standsFor_setBinding_of_ne _ (by simpa using hw)

theorem moves_bindNames (hl : l.layout.IsSound) (vs : List Variable) :
    Lifting.Moves s l ((bindNames s vs).run l).2 vs [] l.layout.path ∧
      ((bindNames s vs).run l).1 = vs.map s.nameOf ∧
      ((bindNames s vs).run l).2.pending = l.pending := by
  unfold bindNames
  induction vs generalizing l with
  | nil => exact ⟨.refl hl, rfl, rfl⟩
  | cons v vs ih =>
    rw [List.mapM_cons]
    have h := moves_bindName (s := s) (v := v) hl
    obtain ⟨h', hr, hp⟩ := ih h.layout.sound
    rw [h.layout.path] at h'
    refine ⟨h.trans h', ?_, hp⟩
    exact congrArg (s.nameOf v :: ·) hr

theorem run_materialize (hw : l.Waits s v) : (materialize s n v).run l =
    (do write n (.bind (s.nameOf v) (l.standsFor s v)); setBinding v (.name (s.nameOf v))
      : Render Unit).run l := by
  obtain ⟨m, e, hs, -⟩ := hw
  have hlookup : l.bindings.lookup v = some (.computed m e) := by
    rw [Lifting.standsFor] at hs
    cases h : l.bindings.lookup v with
    | none =>
      rw [h] at hs
      cases hs
    | some e' =>
      rw [h] at hs
      exact congrArg some hs
  unfold materialize
  rw [run_get_bind, hlookup, hs]

/-- Binding a waiting variable writes what it waits with. -/
theorem moves_materialize (hl : l.layout.IsSound) (hw : l.Waits s v) :
    Lifting.Moves s l ((materialize s n v).run l).2 [v]
        ((l.traceOf s [v]).map (Prod.mk l.layout.path)) l.layout.path ∧
      ((materialize s n v).run l).2.pending = l.pending := by
  rw [run_materialize hw, run_bind]
  obtain ⟨m, e, hs, hd⟩ := hw
  have htrace : (Statement.bind (s.nameOf v) (.computed m e)).trace n = l.traceOf s [v] := by
    rw [Lifting.traceOf, List.flatMap_singleton, hs]
    rfl
  rw [hs]
  have h := moves_write (s := s) (n := n) hl (.bind (s.nameOf v) (.computed m e)) hd
  rw [htrace] at h
  have h' := moves_bindName (s := s) (v := v) h.layout.sound
  rw [h.layout.path] at h'
  have := h.trans h'
  rw [List.append_nil, List.nil_append] at this
  exact ⟨this, rfl⟩

/-- Binding waiting variables writes what they wait with, one after the other. -/
theorem moves_materializeAll (hl : l.layout.IsSound) (hn : vs.Nodup)
    (hw : ∀ v ∈ vs, l.Waits s v) :
    Lifting.Moves s l ((vs.forM (materialize s n)).run l).2 vs
        ((l.traceOf s vs).map (Prod.mk l.layout.path)) l.layout.path ∧
      ((vs.forM (materialize s n)).run l).2.pending = l.pending := by
  induction vs generalizing l with
  | nil => exact ⟨.refl hl, rfl⟩
  | cons v vs ih =>
    obtain ⟨hv, hn'⟩ := List.nodup_cons.mp hn
    obtain ⟨h, hp⟩ := moves_materialize (n := n) hl (hw v List.mem_cons_self)
    have hothers (w : Variable) (hw' : w ∈ vs) : w ∉ [v] := by
      rw [List.mem_singleton]
      rintro rfl
      exact hv hw'
    have hwaits (w : Variable) (hw' : w ∈ vs) :
        ((materialize s n v).run l).2.Waits s w := by
      rw [Lifting.Waits, h.others w (hothers w hw')]
      exact hw w (List.mem_cons_of_mem _ hw')
    obtain ⟨h', hp'⟩ := ih h.layout.sound hn' hwaits
    have htrace : ((materialize s n v).run l).2.traceOf s vs = l.traceOf s vs := by
      refine List.flatMap_congr ?_
      intro w hw'
      rw [h.others w (hothers w hw')]
    rw [h.layout.path, htrace] at h'
    rw [run_forM_cons]
    refine ⟨?_, hp'.trans hp⟩
    have := h.trans h'
    rw [← List.map_append, ← Lifting.traceOf_append] at this
    exact this

theorem moves_drain (hl : l.Valid s c k) :
    Lifting.Moves s l ((drain s n).run l).2 l.pending
        ((l.traceOf s l.pending).map (Prod.mk l.layout.path)) l.layout.path ∧
      ((drain s n).run l).2.pending = [] := by
  obtain ⟨h, hp⟩ := moves_materializeAll (l := { l with pending := [] }) (n := n) hl.sound hl.nodup
    hl.waits
  exact ⟨⟨h.layout, h.named, h.others⟩, hp⟩

/-! ## Cutting the queue -/

theorem commonLength_le_left (as bs : List Variable) : commonLength as bs ≤ as.length := by
  induction as generalizing bs with
  | nil => simp [commonLength]
  | cons a as ih =>
    cases bs with
    | nil => simp [commonLength]
    | cons b bs =>
      have := ih bs
      rw [commonLength]
      split
      · simp only [List.length_cons]
        omega
      · exact Nat.zero_le _

theorem take_commonLength (as bs : List Variable) :
    as.take (commonLength as bs) = bs.take (commonLength as bs) := by
  induction as generalizing bs with
  | nil => simp [commonLength]
  | cons a as ih =>
    cases bs with
    | nil => simp [commonLength]
    | cons b bs =>
      rw [commonLength]
      split
      · rename_i h
        rw [List.take_succ_cons, List.take_succ_cons, ih bs, h]
      · rfl

/-- The waiting variables that are written in the places of the inputs. -/
def inPlace (inputs : List (Variable × Slot)) (pending : List Variable) : List Variable :=
  pending.drop (pending.length - inlinable inputs pending)

/-- The waiting variables that are bound to their names before the inputs are written. -/
def boundFirst (inputs : List (Variable × Slot)) (pending : List Variable) : List Variable :=
  pending.take (settledCount inputs pending)

/-- The waiting variables that stay in the queue when the inputs are written. -/
def kept (inputs : List (Variable × Slot)) (pending : List Variable) : List Variable :=
  let rest := pending.drop (settledCount inputs pending)
  rest.take (rest.length - inlinable inputs pending)

/-- The inline inputs that wait. -/
def candidates (inputs : List (Variable × Slot)) (pending : List Variable) : List Variable :=
  (inputs.filter fun (v, slot) => slot = .inline && pending.contains v).map (·.1)

variable {inputs : List (Variable × Slot)} {pending : List Variable}

theorem inlinable_eq : inlinable inputs pending =
    commonLength (candidates inputs pending).reverse pending.reverse := rfl

theorem inlinable_le_length : inlinable inputs pending ≤ pending.length := by
  have h := congrArg List.length
    (take_commonLength (candidates inputs pending).reverse pending.reverse)
  have h' := commonLength_le_left (candidates inputs pending).reverse pending.reverse
  rw [List.length_take, List.length_take, List.length_reverse, List.length_reverse] at h
  rw [List.length_reverse] at h'
  rw [inlinable_eq]
  omega

/-- The variables written in place are the last candidates. -/
theorem inPlace_suffix_candidates : inPlace inputs pending <:+ candidates inputs pending := by
  have h := take_commonLength (candidates inputs pending).reverse pending.reverse
  rw [List.take_reverse, List.take_reverse, List.reverse_inj] at h
  rw [inPlace, inlinable_eq, ← h]
  exact List.drop_suffix _ _

theorem le_foldl_max {x a : Nat} {xs : List Nat} (h : x ≤ a ∨ x ∈ xs) : x ≤ xs.foldl max a := by
  induction xs generalizing a with
  | nil => simpa using h
  | cons y ys ih =>
    apply ih
    rcases h with h | h
    · exact .inl (by omega)
    · rcases List.mem_cons.mp h with rfl | h
      · exact .inl (by omega)
      · exact .inr h

theorem settledCount_of_pos (h : inlinable inputs pending ≠ 0) :
    settledCount inputs pending = pending.length - inlinable inputs pending := by
  unfold settledCount
  split
  · rename_i h'
    exact absurd h' h
  · rfl

theorem settledCount_of_zero (h : inlinable inputs pending = 0) : settledCount inputs pending =
    (inputs.map fun (v, _) => if v ∈ pending then pending.idxOf v + 1 else 0).foldl max 0 := by
  rw [settledCount, h]
  rfl

/-- The queue falls into three parts, and one of the last two is empty. -/
theorem split_pending (inputs : List (Variable × Slot)) (pending : List Variable) :
    pending = boundFirst inputs pending ++ inPlace inputs pending ++ kept inputs pending ∧
      (inPlace inputs pending = [] ∨ kept inputs pending = []) := by
  unfold boundFirst inPlace kept
  by_cases h : inlinable inputs pending = 0
  · simp only [h, Nat.sub_zero, List.drop_length, List.append_nil, List.take_length, true_or,
      and_true]
    exact (List.take_append_drop _ _).symm
  · have hle : inlinable inputs pending ≤ pending.length := inlinable_le_length
    have hlen : (pending.drop (settledCount inputs pending)).length =
        inlinable inputs pending := by
      rw [settledCount_of_pos h, List.length_drop]
      omega
    simp only [hlen, Nat.sub_self, List.take_zero, List.append_nil, or_true, and_true]
    rw [settledCount_of_pos h, List.take_append_drop]

theorem mem_pending_iff {v : Variable} : v ∈ pending ↔
    v ∈ boundFirst inputs pending ∨ v ∈ inPlace inputs pending ∨ v ∈ kept inputs pending := by
  conv_lhs => rw [(split_pending inputs pending).1]
  rw [List.mem_append, List.mem_append, or_assoc]

theorem not_mem_boundFirst {v : Variable} (h : pending.Nodup)
    (hv : v ∈ inPlace inputs pending ∨ v ∈ kept inputs pending) : v ∉ boundFirst inputs pending := by
  rw [(split_pending inputs pending).1, List.append_assoc, List.nodup_append] at h
  exact fun hb => h.2.2 v hb v (List.mem_append.mpr hv) rfl

theorem not_mem_inPlace {v : Variable} (h : pending.Nodup) (hv : v ∈ kept inputs pending) :
    v ∉ inPlace inputs pending := by
  rw [(split_pending inputs pending).1, List.nodup_append] at h
  exact fun ht => h.2.2 v (List.mem_append_right _ ht) v hv rfl

theorem mem_inputs_of_inPlace {v : Variable} (hv : v ∈ inPlace inputs pending) :
    v ∈ inputs.map Prod.fst := by
  have hm := inPlace_suffix_candidates.subset hv
  rw [candidates, List.mem_map] at hm
  obtain ⟨x, hx, rfl⟩ := hm
  exact List.mem_map_of_mem (List.mem_filter.mp hx).1

/-- What waits and is an input does not wait any longer. -/
theorem mem_of_input {v : Variable} (hv : v ∈ inputs.map Prod.fst) (hp : v ∈ pending) :
    v ∈ boundFirst inputs pending ∨ v ∈ inPlace inputs pending := by
  by_cases h : inlinable inputs pending = 0
  · left
    have hle : pending.idxOf v + 1 ≤ settledCount inputs pending := by
      rw [settledCount_of_zero h]
      obtain ⟨x, hx, rfl⟩ := List.mem_map.mp hv
      refine le_foldl_max (.inr ?_)
      refine List.mem_map.mpr ⟨x, hx, ?_⟩
      exact if_pos hp
    have hlt := List.idxOf_lt_length_of_mem hp
    rw [boundFirst, List.mem_take_iff_getElem]
    exact ⟨pending.idxOf v, by omega, List.getElem_idxOf hlt⟩
  · rw [boundFirst, inPlace, settledCount_of_pos h, ← List.mem_append, List.take_append_drop]
    exact hp

theorem slot_unique {v : Variable} {a b : Slot} (h : (inputs.map Prod.fst).count v ≤ 1)
    (ha : (v, a) ∈ inputs) (hb : (v, b) ∈ inputs) : a = b := by
  induction inputs with
  | nil => cases ha
  | cons x xs ih =>
    rw [List.map_cons, List.count_cons] at h
    have hrest {slot : Slot} (hm : (v, slot) ∈ xs) : x.1 ≠ v ∧ (xs.map Prod.fst).count v ≤ 1 := by
      have hpos : 0 < (xs.map Prod.fst).count v :=
        List.count_pos_iff.mpr (List.mem_map.mpr ⟨_, hm, rfl⟩)
      constructor
      · rintro hx
        simp only [hx, beq_self_eq_true, if_true] at h
        omega
      · omega
    rcases List.mem_cons.mp ha with rfl | ha' <;> rcases List.mem_cons.mp hb with hb' | hb'
    · exact (congrArg Prod.snd hb').symm
    · exact absurd rfl (hrest hb').1
    · exact absurd (congrArg Prod.fst hb').symm (hrest ha').1
    · exact ih (hrest ha').2 ha' hb'

/-- What is written in place is written for an inline input. -/
theorem slot_of_inPlace {v : Variable} {slot : Slot} (h : (inputs.map Prod.fst).count v ≤ 1)
    (hv : (v, slot) ∈ inputs) (hp : v ∈ inPlace inputs pending) : slot = .inline := by
  have hm := inPlace_suffix_candidates.subset hp
  rw [candidates, List.mem_map] at hm
  obtain ⟨⟨w, slot'⟩, hm, rfl⟩ := hm
  rw [List.mem_filter] at hm
  have hslot : slot' = .inline := by
    have := hm.2
    simp only [Bool.and_eq_true, decide_eq_true_eq] at this
    exact this.1
  rw [slot_unique h hv hm.1, hslot]

/-- What is written in place is written in the order of the inputs. -/
theorem filter_inPlace (h : ∀ v ∈ pending, (inputs.map Prod.fst).count v ≤ 1) :
    (inputs.filter fun (v, slot) => slot = .inline && (inPlace inputs pending).contains v).map
      (·.1) = inPlace inputs pending := by
  obtain ⟨before, hsplit⟩ : inPlace inputs pending <:+ candidates inputs pending :=
    inPlace_suffix_candidates
  have hsub : inPlace inputs pending ⊆ pending := (List.drop_sublist _ _).subset
  have hnodup : (candidates inputs pending).Nodup := by
    rw [List.nodup_iff_count]
    intro v
    by_cases hv : v ∈ candidates inputs pending
    · have hp : v ∈ pending := by
        rw [candidates, List.mem_map] at hv
        obtain ⟨x, hx, rfl⟩ := hv
        simp only [List.mem_filter, Bool.and_eq_true, List.contains_iff_mem] at hx
        exact hx.2.2
      have hc := (List.filter_sublist (l := inputs)
        (p := fun x => decide (x.2 = .inline) && pending.contains x.1)).map Prod.fst
      exact Nat.le_trans (hc.count_le v) (h v hp)
    · rw [List.count_eq_zero_of_not_mem hv]
      exact Nat.zero_le 1
  have hfilter : (candidates inputs pending).filter (inPlace inputs pending).contains =
      inPlace inputs pending := by
    rw [← hsplit, List.nodup_append] at hnodup
    obtain ⟨-, -, hdisj⟩ := hnodup
    rw [← hsplit, List.filter_append, List.filter_eq_nil_iff.mpr, List.nil_append,
      List.filter_eq_self.mpr]
    · intro v hv
      exact List.contains_iff_mem.mpr hv
    · intro v hv hv'
      exact hdisj v hv v (List.contains_iff_mem.mp hv') rfl
  rw [candidates, List.filter_map, List.filter_filter] at hfilter
  rw [← hfilter]
  congr 1
  rw [hfilter]
  refine List.filter_congr ?_
  rintro ⟨v, slot⟩ -
  by_cases hv : v ∈ inPlace inputs pending
  · simp [hv, hsub hv]
  · simp [hv]

theorem moves_settle (h : l.Valid s c k) (inputs : List (Variable × Slot)) :
    Lifting.Moves s l ((settle s n inputs).run l).2 (boundFirst inputs l.pending)
        ((l.traceOf s (boundFirst inputs l.pending)).map (Prod.mk l.layout.path)) l.layout.path ∧
      ((settle s n inputs).run l).2.pending = kept inputs l.pending := by
  have hsub : (boundFirst inputs l.pending).Sublist l.pending := List.take_sublist _ _
  obtain ⟨hm, -⟩ := moves_materializeAll (n := n) h.sound (h.nodup.sublist hsub)
    fun v hv => h.waits v (hsub.subset hv)
  exact ⟨⟨hm.layout, hm.named, hm.others⟩, rfl⟩

section Settle

variable {i : Instruction} {is : Code}

theorem uses_of_inputs (hin : inputs.map Prod.fst = i.inputs) (v : Variable) :
    Code.uses (i :: is) v = (inputs.map Prod.fst).count v + is.uses v := by
  rw [hin, Code.uses_cons]

theorem count_inputs_le_one (h : l.Valid s (i :: is) k) (hin : inputs.map Prod.fst = i.inputs)
    {v : Variable} (hv : v ∈ l.pending) : (inputs.map Prod.fst).count v ≤ 1 := by
  have := (h.once v hv).1
  rw [uses_of_inputs hin] at this
  omega

theorem valid_settle (h : l.Valid s (i :: is) k) (hin : inputs.map Prod.fst = i.inputs) :
    ((settle s n inputs).run l).2.Valid s is k := by
  obtain ⟨hm, hp⟩ := moves_settle (n := n) h inputs
  have huses (v : Variable) :
      Code.uses (i :: is) v = (inputs.map Prod.fst).count v + is.uses v := uses_of_inputs hin v
  refine h.moves hm ?_ ?_ ?_ ?_
  · rw [hp]
    conv_rhs => rw [(split_pending inputs l.pending).1]
    exact List.sublist_append_right _ _
  · intro v hv
    exact not_mem_boundFirst h.nodup (.inr (hp ▸ hv))
  · intro v hv
    rw [hp] at hv
    have hv' := mem_pending_iff.mpr (.inr (.inr hv))
    have honce := (h.once v hv').1
    rw [huses, List.count_eq_zero_of_not_mem] at honce
    · omega
    · intro hinput
      rcases mem_of_input hinput hv' with hb | ht
      · exact not_mem_boundFirst h.nodup (.inr hv) hb
      · exact not_mem_inPlace h.nodup hv ht
  · intro v huse
    refine ⟨by rw [huses]; omega, fun hv => ?_⟩
    rw [hp]
    rcases mem_pending_iff.mp hv with hb | ht | hr
    · exact .inl hb
    · -- What is written in place has its only use there.
      have := List.count_pos_iff.mpr (mem_inputs_of_inPlace ht)
      have := (h.once v hv).1
      rw [huses] at this
      omega
    · exact .inr hr

theorem waits_settle (h : l.Valid s (i :: is) k) {v : Variable}
    (hv : v ∈ inPlace inputs l.pending) : ((settle s n inputs).run l).2.Waits s v := by
  obtain ⟨hm, -⟩ := moves_settle (n := n) h inputs
  rw [Lifting.Waits, hm.others v (not_mem_boundFirst h.nodup (.inl hv))]
  exact h.waits v (mem_pending_iff.mpr (.inr (.inl hv)))

theorem settled_settle (h : l.Valid s (i :: is) k) (hin : inputs.map Prod.fst = i.inputs)
    {v : Variable} (hv : v ∈ inputs.map Prod.fst) (ht : v ∉ inPlace inputs l.pending) :
    Settled s v (((settle s n inputs).run l).2.standsFor s v) := by
  obtain ⟨hm, -⟩ := moves_settle (n := n) h inputs
  by_cases hb : v ∈ boundFirst inputs l.pending
  · rw [hm.named v hb]
    exact .named
  · rw [hm.others v hb]
    refine h.settled v ?_ ?_
    · intro hpending
      rcases mem_of_input hv hpending with hb' | ht'
      · exact hb hb'
      · exact ht ht'
    · have := List.count_pos_iff.mpr hv
      rw [uses_of_inputs hin]
      omega

end Settle

/-- The expression written for an input does what stands for the variable. It computes something only if
the variable waited and any expression may stand in the place. -/
structure Supplies (s : Subject) (n : Nat) (l : Lifting) (input : Variable × Slot) (e : Expr) :
    Prop where
  trace : e.trace n = (l.standsFor s input.1).trace n
  deferred : e.deferred = []
  settled : input.2 ≠ .inline ∨ Settled s input.1 (l.standsFor s input.1) → e.computations = []

/-- An operand is written in its place, or bound to a temporary name if it is a constant and a name is
needed. -/
theorem moves_operand {input : Variable × Slot} (hl : l.layout.IsSound)
    (hw : Settled s input.1 (l.standsFor s input.1) ∨ l.Waits s input.1 ∧ input.2 = .inline) :
    Lifting.Moves s l ((operand s n input).run l).2 [] [] l.layout.path ∧
      ((operand s n input).run l).2.pending = l.pending ∧
      Supplies s n l input ((operand s n input).run l).1 := by
  obtain ⟨v, slot⟩ := input
  have hrun : (operand s n (v, slot)).run l =
      (if slot = .name && !(l.standsFor s v).isName then do
        write n (.bind (.temporary l.layout.lines.size) (l.standsFor s v))
        return .name (.temporary l.layout.lines.size)
      else return l.standsFor s v : Render Expr).run l := rfl
  rw [hrun]
  split
  · rename_i hname
    simp only [Bool.and_eq_true, decide_eq_true_eq, Bool.not_eq_true'] at hname
    obtain ⟨rfl, hname⟩ := hname
    -- A name is there already unless the variable is a constant.
    have hsettled : Settled s v (l.standsFor s v) := hw.resolve_right (by simp)
    generalize he : l.standsFor s v = e at hname hsettled
    cases hsettled with
    | named => cases hname
    | constant single silent plain =>
      have h := moves_write (s := s) (n := n) hl (.bind (.temporary l.layout.lines.size) e) plain
      rw [Statement.trace, silent] at h
      refine ⟨h, rfl, ?_, rfl, fun _ => rfl⟩
      rw [he, silent]
      rfl
  · refine ⟨.refl hl, rfl, rfl, ?_, ?_⟩
    · rcases hw with hw | ⟨⟨m, e, he, hd⟩, -⟩
      · exact hw.deferred
      · change (l.standsFor s v).deferred = []
        rw [he]
        exact hd
    · intro hslot
      rcases hw with hw | ⟨⟨m, e, he, -⟩, h⟩
      · exact hw.computations
      · exact absurd he ((hslot.resolve_left (not_not_intro h)).ne_computed m e)

theorem moves_mapM_operand (hl : l.layout.IsSound)
    (hw : ∀ input ∈ inputs, Settled s input.1 (l.standsFor s input.1) ∨
      l.Waits s input.1 ∧ input.2 = .inline) :
    Lifting.Moves s l ((inputs.mapM (operand s n)).run l).2 [] [] l.layout.path ∧
      ((inputs.mapM (operand s n)).run l).2.pending = l.pending ∧
      List.Forall₂ (Supplies s n l) inputs ((inputs.mapM (operand s n)).run l).1 := by
  induction inputs generalizing l with
  | nil => exact ⟨.refl hl, rfl, .nil⟩
  | cons x xs ih =>
    obtain ⟨h, hp, hx⟩ := moves_operand (n := n) hl (hw x List.mem_cons_self)
    have hsame (v : Variable) : ((operand s n x).run l).2.standsFor s v = l.standsFor s v :=
      h.others v List.not_mem_nil
    have hw' : ∀ y ∈ xs, Settled s y.1 (((operand s n x).run l).2.standsFor s y.1) ∨
        ((operand s n x).run l).2.Waits s y.1 ∧ y.2 = .inline := by
      intro y hy
      rw [Lifting.Waits, hsame]
      exact hw y (List.mem_cons_of_mem _ hy)
    obtain ⟨h', hp', hxs⟩ := ih h.layout.sound hw'
    rw [h.layout.path] at h'
    rw [List.mapM_cons]
    refine ⟨h.trans h', hp'.trans hp, .cons hx (hxs.imp ?_)⟩
    rintro y e ⟨htrace, hd, hs⟩
    rw [hsame] at htrace hs
    exact ⟨htrace, hd, hs⟩

/-- What holds when the inputs of an instruction have been taken from the queue. The instructions `is`
follow, and `es` stands for the inputs. -/
structure Taken (s : Subject) (n k : Nat) (is : Code) (l : Lifting)
    (inputs : List (Variable × Slot)) (es : List Expr) (l' : Lifting) : Prop where
  valid : l'.Valid s is k
  path : l'.layout.path = l.layout.path
  pending : l'.pending = kept inputs l.pending
  trace : l.trace s = l'.trace s ++
    (l'.traceOf s (inPlace inputs l.pending)).map (Prod.mk l.layout.path)
  supplies : List.Forall₂ (Supplies s n l') inputs es
  waits : ∀ v ∈ inPlace inputs l.pending, l'.Waits s v
  settled : ∀ v ∈ inputs.map Prod.fst, v ∉ inPlace inputs l.pending →
    Settled s v (l'.standsFor s v)

/-- Taking the inputs of an instruction from the queue. -/
theorem taken_operands {i : Instruction} {is : Code} (h : l.Valid s (i :: is) k)
    (hin : inputs.map Prod.fst = i.inputs) :
    Taken s n k is l inputs ((operands s n inputs).run l).1 ((operands s n inputs).run l).2 := by
  -- First the queue is cut, then the operands are written.
  obtain ⟨hm, hp⟩ := moves_settle (n := n) h inputs
  have hready (x : Variable × Slot) (hx : x ∈ inputs) :
      Settled s x.1 (((settle s n inputs).run l).2.standsFor s x.1) ∨
        ((settle s n inputs).run l).2.Waits s x.1 ∧ x.2 = .inline := by
    by_cases ht : x.1 ∈ inPlace inputs l.pending
    · have hcount := count_inputs_le_one h hin (mem_pending_iff.mpr (.inr (.inl ht)))
      exact .inr ⟨waits_settle h ht, slot_of_inPlace hcount hx ht⟩
    · exact .inl (settled_settle h hin (List.mem_map_of_mem hx) ht)
  obtain ⟨hm', hp', hsupplies⟩ := moves_mapM_operand (n := n) hm.layout.sound hready
  have hsame (v : Variable) : ((operands s n inputs).run l).2.standsFor s v =
      ((settle s n inputs).run l).2.standsFor s v := hm'.others v List.not_mem_nil
  have hm'' := hm.trans hm'
  rw [List.append_nil, List.append_nil, hm.layout.path] at hm''
  refine ⟨?_, hm''.layout.path, hp'.trans hp, ?_, ?_, ?_, ?_⟩
  · exact (valid_settle h hin).moves_same hm' hp' (by simp)
  · obtain ⟨hsplit, hempty⟩ := split_pending inputs l.pending
    have hp'' : ((operands s n inputs).run l).2.pending = kept inputs l.pending := hp'.trans hp
    have htrace : ((operands s n inputs).run l).2.traceOf s (inPlace inputs l.pending) =
        l.traceOf s (inPlace inputs l.pending) := by
      refine List.flatMap_congr ?_
      intro v hv
      rw [hsame, hm.others v (not_mem_boundFirst h.nodup (.inl hv))]
    have hl : Lifting.trace s ((operands s n inputs).run l).2 = l.layout.trace ++
        (l.traceOf s (boundFirst inputs l.pending) ++ l.traceOf s (kept inputs l.pending)).map
          (Prod.mk l.layout.path) := by
      rw [← hp'']
      exact hm''.trace_eq rfl fun v hv => not_mem_boundFirst h.nodup (.inr (hp'' ▸ hv))
    have hwhole : l.traceOf s l.pending = l.traceOf s (boundFirst inputs l.pending) ++
        l.traceOf s (inPlace inputs l.pending) ++ l.traceOf s (kept inputs l.pending) := by
      conv_lhs => rw [hsplit, Lifting.traceOf_append, Lifting.traceOf_append]
    rw [htrace, hl, Lifting.trace, hwhole]
    -- The taken expressions are the last in the queue.
    rcases hempty with hnil | hnil <;> simp [hnil, Lifting.traceOf]
  · refine hsupplies.imp ?_
    rintro x e ⟨htrace, hd, hs⟩
    rw [← hsame] at htrace hs
    exact ⟨htrace, hd, hs⟩
  · intro v hv
    rw [Lifting.Waits, hsame]
    exact waits_settle h hv
  · intro v hv ht
    rw [hsame]
    exact settled_settle h hin hv ht

end Render

end ScriptFuzz.Python
