import ScriptFuzz.Proofs.Python.Queue

/-!
# What writing does to the queue and the lines

Each part of rendering that writes something adds exactly that to what the lines and the waiting
expressions do, and keeps the state valid.
-/

namespace ScriptFuzz.Python

set_option autoImplicit false

namespace Lifting

/-- A part of rendering leads to a state that is valid before `c`, adds the events, and leaves the
headers `path` around the next line. -/
structure Adds (s : Subject) (c : Code) (k : Nat) (l l' : Lifting)
    (events : List (List Nat × Event)) (path : List Nat) : Prop where
  valid : l'.Valid s c k
  path : l'.layout.path = path
  trace : l'.trace s = l.trace s ++ events

/-- The part of rendering leaves nothing waiting. -/
structure Flushes (s : Subject) (c : Code) (k : Nat) (l l' : Lifting)
    (events : List (List Nat × Event)) (path : List Nat) : Prop
    extends Adds s c k l l' events path where
  empty : l'.pending = []

variable {s : Subject} {l l' l'' : Lifting} {vs : List Variable} {v : Variable}
  {events events' : List (List Nat × Event)} {path path' : List Nat} {c c' : Code} {k k' : Nat}

theorem Valid.adds_refl (h : l.Valid s c k) : Adds s c k l l [] l.layout.path :=
  ⟨h, rfl, (List.append_nil _).symm⟩

theorem Adds.trans (h : Adds s c k l l' events path) (h' : Adds s c' k' l' l'' events' path') :
    Adds s c' k' l l'' (events ++ events') path' := by
  refine ⟨h'.valid, h'.path, ?_⟩
  rw [h'.trace, h.trace, List.append_assoc]

theorem Adds.mono (h : Adds s c k l l' events path) (hk : k ≤ k') :
    Adds s c k' l l' events path :=
  ⟨h.valid.mono hk, h.path, h.trace⟩

theorem Adds.flushes (h : Adds s c k l l' events path)
    (h' : Flushes s c' k' l' l'' events' path') :
    Flushes s c' k' l l'' (events ++ events') path' :=
  ⟨h.trans h'.toAdds, h'.empty⟩

theorem Flushes.mono (h : Flushes s c k l l' events path) (hk : k ≤ k') :
    Flushes s c k' l l' events path :=
  ⟨h.toAdds.mono hk, h.empty⟩

/-- A part of rendering that empties the queue first. -/
theorem Valid.adds_of_emptied (h : l.Valid s c k)
    (hm : Moves s l l' vs ((l.traceOf s l.pending).map (Prod.mk l.layout.path) ++ events) path)
    (hp : l'.pending = []) (hvs : l.pending ⊆ vs) : Adds s c k l l' events path := by
  refine ⟨h.moves_nil hm hp hvs, hm.layout.path, ?_⟩
  simp [trace, hp, hm.layout.trace, traceOf]

/-- A part of rendering that neither writes nor touches the queue. -/
theorem Valid.adds_of_quiet (h : l.Valid s c k) (hm : Moves s l l' vs [] l.layout.path)
    (hp : l'.pending = l.pending) (hvs : ∀ v ∈ l.pending, v ∉ vs) :
    Adds s c k l l' [] l.layout.path := by
  refine ⟨h.moves_same hm hp hvs, hm.layout.path, ?_⟩
  rw [hm.trace_eq List.map_nil.symm (hp ▸ hvs), hp, List.append_nil]
  rfl

end Lifting

namespace Render

open Lifting

variable {s : Subject} {l : Lifting} {n m k : Nat} {v : Variable} {vs : List Variable}
  {c pre is : Code} {i : Instruction} {e : Expr}

/-- Writing a statement after the queue is emptied. -/
theorem moves_emit (h : l.Valid s c k) {st : Statement} (hd : st.deferred = []) :
    Moves s l ((emit s n st).run l).2 l.pending
        ((l.traceOf s l.pending).map (Prod.mk l.layout.path) ++
          (st.trace n).map (Prod.mk l.layout.path)) l.layout.path ∧
      ((emit s n st).run l).2.pending = [] := by
  obtain ⟨hm, hp⟩ := moves_drain (n := n) h
  have hm' := moves_write (s := s) (n := n) hm.layout.sound _ hd
  rw [hm.layout.path] at hm'
  have := hm.trans hm'
  rw [List.append_nil] at this
  exact ⟨this, hp⟩

theorem adds_emit (h : l.Valid s c k) (st : Statement) (hd : st.deferred = []) :
    Adds s c k l ((emit s n st).run l).2 ((st.trace n).map (Prod.mk l.layout.path))
      l.layout.path := by
  obtain ⟨hm, hp⟩ := moves_emit (n := n) h hd
  exact h.adds_of_emptied hm hp fun _ hv => hv

theorem pending_emit (h : l.Valid s c k) (st : Statement) (hd : st.deferred = []) :
    ((emit s n st).run l).2.pending = [] := (moves_emit h hd).2

theorem flushes_enter (h : l.Valid s c k) (header : Header) (hd : header.deferred = []) :
    Flushes s c k l ((enter s n header).run l).2
      ((header.trace n).map (Prod.mk l.layout.path)) (n :: l.layout.path) := by
  obtain ⟨hm, hp⟩ := moves_drain (n := n) h
  have hlayout := Layout.extends_enter hm.layout.sound header n
  rw [hm.layout.path, hd] at hlayout
  have hm' : Moves s l ((enter s n header).run l).2 l.pending
      ((l.traceOf s l.pending).map (Prod.mk l.layout.path) ++
        (header.trace n).map (Prod.mk l.layout.path)) (n :: l.layout.path) :=
    ⟨hm.layout.trans hlayout, hm.named, hm.others⟩
  exact ⟨h.adds_of_emptied hm' hp fun _ hv => hv, hp⟩

theorem flushes_exit (h : l.Valid s c k) :
    Flushes s c k l ((exit s n).run l).2 [] l.layout.path.tail := by
  obtain ⟨hm, hp⟩ := moves_drain (n := n) h
  have hlayout := Layout.extends_exit hm.layout.sound
  rw [hm.layout.path] at hlayout
  have hm' : Moves s l ((exit s n).run l).2 l.pending
      ((l.traceOf s l.pending).map (Prod.mk l.layout.path) ++ []) l.layout.path.tail :=
    ⟨hm.layout.trans hlayout, hm.named, hm.others⟩
  exact ⟨h.adds_of_emptied hm' hp fun _ hv => hv, hp⟩

theorem adds_bindNames (h : l.Valid s c k) (vs : List Variable) (hvs : ∀ v ∈ l.pending, v ∉ vs) :
    Adds s c k l ((bindNames s vs).run l).2 [] l.layout.path := by
  obtain ⟨hm, -, hp⟩ := moves_bindNames (s := s) h.sound vs
  exact h.adds_of_quiet hm hp hvs

theorem adds_comment (h : l.Valid s c k) (text : String) :
    Adds s c k l ((comment text).run l).2 [] l.layout.path := by
  have hm : Moves s l ((comment text).run l).2 [] [] l.layout.path :=
    ⟨Layout.extends_comment h.sound text, by simp, fun _ _ => rfl⟩
  exact h.adds_of_quiet hm rfl (by simp)

/-- A variable that is declared next does not wait. -/
theorem not_mem_pending (h : l.Valid s c k) (hnum : Code.Numbered k (i :: is))
    (hv : v ∈ i.allOutputs) : v ∉ l.pending := by
  intro hp
  have := (h.once v hp).2
  have := (hnum.number_of_mem hv).1
  omega

/-- A settled variable may stand for something else that is settled. -/
theorem adds_setBinding (h : l.Valid s c k) (hv : v ∉ l.pending) (he : Settled s v e) :
    Adds s c k l ((setBinding v e).run l).2 [] l.layout.path := by
  have hothers (w : Variable) (hw : w ≠ v) := standsFor_setBinding_of_ne (s := s) (l := l) e hw
  have hwaiting (w : Variable) (hw : w ∈ l.pending) : w ≠ v := by
    rintro rfl
    exact hv hw
  refine ⟨⟨h.sound, h.deferred, h.nodup, ?_, h.once, ?_⟩, rfl, ?_⟩
  · intro w hw
    rw [Waits, hothers w (hwaiting w hw)]
    exact h.waits w hw
  · intro w hw huse
    by_cases hwv : w = v
    · rw [hwv, standsFor_setBinding_self]
      exact he
    · rw [hothers w hwv]
      exact h.settled w hw huse
  · rw [List.append_nil]
    unfold trace
    congr 2
    refine List.flatMap_congr ?_
    intro w hw
    rw [hothers w (hwaiting w hw)]

theorem adds_assign (h : l.Valid s c k) (hd : e.deferred = []) :
    Adds s c k l ((assign s n v e).run l).2 ((e.trace n).map (Prod.mk l.layout.path))
      l.layout.path := by
  have hemit := adds_emit (n := n) h (.bind (s.nameOf v) e) hd
  have hp := pending_emit (n := n) h (.bind (s.nameOf v) e) hd
  have := hemit.trans (adds_setBinding (v := v) hemit.valid (by simp [hp]) .named)
  rw [List.append_nil, hemit.path] at this
  exact this

theorem pending_assign (h : l.Valid s c k) (hd : e.deferred = []) :
    ((assign s n v e).run l).2.pending = [] :=
  pending_emit h (.bind (s.nameOf v) e) hd

/-- A variable that is used once may wait behind all that waits already. -/
theorem adds_wait (h : l.Valid s c k) (hv : v ∉ l.pending) (huses : c.uses v = 1)
    (hk : v.number < k) (hd : e.deferred = []) :
    Adds s c k l ((do
        setBinding v (.computed m e)
        modify fun l => { l with pending := l.pending ++ [v] } : Render Unit).run l).2
      ((e.trace m ++ [Event.computes m]).map (Prod.mk l.layout.path)) l.layout.path := by
  rw [run_bind]
  generalize hl' : ((setBinding v (.computed m e)).run l).2 = l'
  have hself : l'.standsFor s v = .computed m e := hl' ▸ standsFor_setBinding_self _
  have hothers (w : Variable) (hw : w ∈ l.pending) : l'.standsFor s w = l.standsFor s w := by
    rw [← hl']
    refine standsFor_setBinding_of_ne _ ?_
    rintro rfl
    exact hv hw
  have hlayout : l'.layout = l.layout := by
    rw [← hl']
    rfl
  have hpending : l'.pending = l.pending := by
    rw [← hl']
    rfl
  change Adds s c k l { l' with pending := l'.pending ++ [v] } _ _
  rw [hpending]
  refine ⟨⟨?_, ?_, ?_, ?_, ?_, ?_⟩, congrArg Layout.path hlayout, ?_⟩
  · change l'.layout.IsSound
    rw [hlayout]
    exact h.sound
  · change l'.layout.deferred = []
    rw [hlayout]
    exact h.deferred
  · refine List.nodup_append.mpr ⟨h.nodup, by simp, ?_⟩
    rintro w hw _ hw' rfl
    exact hv (List.mem_singleton.mp hw' ▸ hw)
  · intro w hw
    rcases List.mem_append.mp hw with hw | hw
    · change l'.Waits s w
      rw [Waits, hothers w hw]
      exact h.waits w hw
    · rw [List.mem_singleton.mp hw]
      exact ⟨m, e, hself, hd⟩
  · intro w hw
    rcases List.mem_append.mp hw with hw | hw
    · exact h.once w hw
    · rw [List.mem_singleton.mp hw]
      exact ⟨huses, hk⟩
  · intro w hw huse
    rw [List.mem_append, not_or, List.mem_singleton] at hw
    change Settled s w (l'.standsFor s w)
    rw [← hl', standsFor_setBinding_of_ne _ hw.2]
    exact h.settled w hw.1 huse
  · change l'.layout.trace ++ (l'.traceOf s (l.pending ++ [v])).map (Prod.mk l'.layout.path) = _
    have htrace : l'.traceOf s l.pending = l.traceOf s l.pending := by
      refine List.flatMap_congr ?_
      intro w hw
      rw [hothers w hw]
    have hlast : l'.traceOf s [v] = e.trace m ++ [.computes m] := by
      rw [traceOf, List.flatMap_singleton, hself]
      rfl
    rw [traceOf_append, htrace, hlast, hlayout, List.map_append, ← List.append_assoc]
    rfl

/-- What an instruction computes is written, or waits behind all that waits already. -/
theorem adds_declare_computed (h : l.Valid s is k) (hcode : s.code = pre ++ i :: is)
    (hnum : Code.Numbered k (i :: is)) (hv : v ∈ i.allOutputs) (hd : e.deferred = []) :
    Adds s is (k + i.allOutputs.length) l ((declare s n v (.computed m e)).run l).2
      ((e.trace m ++ [Event.computes m]).map (Prod.mk l.layout.path)) l.layout.path := by
  have hp := not_mem_pending h hnum hv
  have hk : k ≤ k + i.allOutputs.length := Nat.le_add_right _ _
  unfold declare
  simp only [Expr.isEffectful, if_true]
  split
  · split
    · rename_i huses
      rw [hcode, Code.usage_of_declared hnum hv] at huses
      exact adds_wait (h.mono hk) hp huses (hnum.number_of_mem hv).2 hd
    · split
      · exact (adds_emit h (.expression (.computed m e)) hd).mono hk
      · exact (adds_assign (e := .computed m e) h hd).mono hk
  · exact (adds_assign (e := .computed m e) h hd).mono hk

theorem pending_declare_computed (h : l.Valid s c k) (hd : e.deferred = []) :
    ((declare s n v (.computed m e)).run l).2.pending =
      if (s.code.usage v).isSingleAssignment ∧ (s.code.usage v).uses = 1 then l.pending ++ [v]
      else [] := by
  unfold declare
  simp only [Expr.isEffectful, if_true]
  by_cases hsingle : (s.code.usage v).isSingleAssignment = true
  · by_cases huses : (s.code.usage v).uses = 1
    · simp only [hsingle, huses, and_self, if_true]
      rfl
    · simp only [hsingle, huses, and_false, if_true, if_false]
      split
      · exact pending_emit h (.expression (.computed m e)) hd
      · exact pending_assign (e := .computed m e) h hd
  · rw [if_neg hsingle, if_neg fun h => hsingle h.1]
    exact pending_assign (e := .computed m e) h hd

theorem pending_declare_constant (h : l.Valid s c k) (he : e.isEffectful = false)
    (hd : e.deferred = []) :
    ((declare s n v e).run l).2.pending =
      if (s.code.usage v).isSingleAssignment ∧ 0 < (s.code.usage v).uses then l.pending
      else [] := by
  unfold declare
  simp only [he, Bool.false_eq_true, if_false]
  by_cases hsingle : (s.code.usage v).isSingleAssignment = true
  · by_cases huses : 0 < (s.code.usage v).uses
    · simp only [hsingle, huses, and_self, if_true]
      rfl
    · simp only [hsingle, huses, and_false, if_true, if_false]
      exact pending_assign h hd
  · rw [if_neg hsingle, if_neg fun h => hsingle h.1]
    exact pending_assign h hd

/-- A constant stands for its variable, or is bound to the variable's name. -/
theorem adds_declare_constant (h : l.Valid s c k) (hnum : Code.Numbered k (i :: is))
    (hv : v ∈ i.allOutputs) (he : e.isEffectful = false) (hsilent : ∀ n, e.trace n = [])
    (hd : e.deferred = []) :
    Adds s c k l ((declare s n v e).run l).2 [] l.layout.path := by
  have hassign : Adds s c k l ((assign s n v e).run l).2 [] l.layout.path := by
    have := adds_assign (s := s) (n := n) (v := v) h hd
    rw [hsilent] at this
    exact this
  unfold declare
  simp only [he, Bool.false_eq_true, if_false]
  split
  · rename_i hsingle
    split
    · exact adds_setBinding h (not_mem_pending h hnum hv) (.constant hsingle hsilent hd)
    · exact hassign
  · exact hassign

end Render

end ScriptFuzz.Python
