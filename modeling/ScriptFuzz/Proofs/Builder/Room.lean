import Mathlib.Algebra.Ring.Nat
import ScriptFuzz.Proofs.Builder.Reachability

/-!
# Room for what is copied

An emission takes as many numbers as the operation declares variables (`Builder.Continues`), and runs
short only where no room is left for these (`Builder.fails_of_emit`). A copy declares as much as its
source, so code with fewer variables than there are numbers left is copied without a shortage
(`Builder.fails_of_adoptAll`).
-/

namespace ScriptFuzz

set_option autoImplicit false

namespace Builder

variable {b b' b'' : Builder} {op : Operation} {inputs : List Variable} {i : Instruction}
  {is : Code} {added added' : List Operation} {r : List Variable × Builder} {f : Fault} {n k : Nat}

theorem declares_eq (i : Instruction) : declares i.op = i.allOutputs.length := by
  rw [← i.outputs_append_innerOutputs, List.length_append, i.length_outputs, i.length_innerOutputs]
  rfl

/-- The code has grown by instructions with the operations; the annotations are what they were. -/
structure Continues (b : Builder) (added : List Operation) (b' : Builder) : Prop where
  ops : b'.code.map Instruction.op = b.code.map Instruction.op ++ added
  next : b'.nextVariable = b.nextVariable + (added.map declares).sum
  contributors : b'.contributors = b.contributors
  comments : b'.comments = b.comments
  parent : b'.parent = b.parent

namespace Continues

theorem refl (b : Builder) : b.Continues [] b where
  ops := (List.append_nil _).symm
  next := rfl
  contributors := rfl
  comments := rfl
  parent := rfl

theorem trans (h : b.Continues added b') (h' : b'.Continues added' b'') :
    b.Continues (added ++ added') b'' where
  ops := by rw [h'.ops, h.ops, List.append_assoc]
  next := by rw [h'.next, h.next, List.map_append, List.sum_append, Nat.add_assoc]
  contributors := h'.contributors.trans h.contributors
  comments := h'.comments.trans h.comments
  parent := h'.parent.trans h.parent

end Continues

theorem continues_emit (h : b.emit op inputs = .ok r) : b.Continues [op] r.2 := by
  obtain ⟨hfault, closed, hclose, hroom⟩ := stages_of_emit h
  obtain ⟨hcode, hnext, hcontributors, hcomments, hparent⟩ := close_frame hclose
  obtain ⟨ecode, enext, econtributors, ecomments, eparent⟩ :=
    enter_frame (closed.allocate op.shape.outputs) op
  unfold emit at h
  simp only [hfault, hclose, hroom, bind, Except.bind] at h
  split at h
  · cases h
    refine ⟨?_, ?_, econtributors.trans hcontributors, ecomments.trans hcomments,
      eparent.trans hparent⟩
    · change (Code.append ((closed.allocate op.shape.outputs).enter op).code _).map _ = _
      rw [ecode, code_allocate, hcode, Code.append, List.map_append]
      rfl
    · change ((closed.allocate op.shape.outputs).enter op).nextVariable + _ = _
      rw [enext]
      change closed.nextVariable + _ + _ = b.nextVariable + (declares op + 0)
      rw [hnext, declares]
      omega
  · cases h

theorem continues_adoptAs (h : b.adoptAs i op = .ok r) : b.Continues [op] r.2 := by
  obtain ⟨inputs, b', -, he, hr⟩ := exists_emit_of_adoptAs h
  have hemit := continues_emit he
  rw [hr]
  exact ⟨hemit.ops, hemit.next, hemit.contributors, hemit.comments, hemit.parent⟩

theorem adoptAll_cons (b : Builder) (i : Instruction) (is : Code) :
    b.adoptAll (i :: is) = b.adopt i >>= fun r => r.2.adoptAll is := rfl

theorem continues_adoptAll (h : b.adoptAll is = .ok b') :
    b.Continues (is.map Instruction.op) b' := by
  induction is generalizing b with
  | nil =>
    cases h
    exact .refl _
  | cons i is ih =>
    rw [adoptAll_cons] at h
    cases ha : b.adopt i with
    | error f =>
      rw [ha] at h
      cases h
    | ok r =>
      rw [ha] at h
      exact (continues_adoptAs ha).trans (ih h)

theorem HasRoom.of_lt (h : b.nextVariable + i.allOutputs.length < Variable.limit) :
    b.HasRoom i.op := by
  have hcapacity : Variable.limit ≤ capacity := by decide
  constructor <;> rw [declares_eq] <;> omega

/-! ## Shortages -/

/-- What ends an action that takes at most `n` numbers: a fault that is no shortage unless so many
numbers are not left, and no want of memory unless so many variables do not fit in it. -/
structure Fails (b : Builder) (n : Nat) (f : Fault) : Prop where
  numbers : f.isShortage = true → Variable.limit ≤ b.nextVariable + n
  memory : f = .oversized → capacity ≤ n

theorem fails_of_not_shortage (h : f.isShortage = false) (n : Nat) : b.Fails n f := by
  refine ⟨fun hshort => ?_, ?_⟩
  · rw [h] at hshort
    cases hshort
  · rintro rfl
    cases h

theorem Fails.mono (h : b.Fails n f) (hle : n ≤ k) : b.Fails k f :=
  ⟨fun hshort => Nat.le_trans (h.numbers hshort) (Nat.add_le_add_left hle _),
    fun hsize => Nat.le_trans (h.memory hsize) hle⟩

/-- What ends an action after one that takes at most `n` numbers. -/
theorem Fails.after (h : b'.Fails k f) (hnext : b'.nextVariable ≤ b.nextVariable + n) :
    b.Fails (n + k) f := by
  refine ⟨fun hshort => ?_, fun hsize => Nat.le_trans (h.memory hsize) (Nat.le_add_left _ _)⟩
  have := h.numbers hshort
  omega

theorem Fails.isShortage_eq_false (h : b.Fails n f)
    (hroom : b.nextVariable + n < Variable.limit) : f.isShortage = false := by
  cases hshort : f.isShortage with
  | false => rfl
  | true => exact absurd (h.numbers hshort) (Nat.not_le_of_lt hroom)

theorem Fails.eq_exhausted (h : b.Fails n f) (hn : n < capacity) (hshort : f.isShortage = true) :
    f = .exhausted := by
  cases f with
  | oversized => exact absurd (h.memory rfl) (Nat.not_le_of_lt hn)
  | exhausted => rfl
  | _ => cases hshort

/-- Of what can end an emission only the want of room is a shortage. -/
theorem checkRoom_of_emit (he : b.emit op inputs = .error f) (hshort : f.isShortage = true) :
    ∃ closed, b.close op = .ok closed ∧ closed.checkRoom op = .error f := by
  unfold emit at he
  cases hfault : b.fault? op inputs with
  | some g =>
    rw [hfault] at he
    cases he
    unfold fault? at hfault
    simp only at hfault
    split at hfault
    · cases hfault
      cases hshort
    split at hfault
    · cases hfault
      cases hshort
    split at hfault
    · cases hfault
      cases hshort
    split at hfault <;> cases hfault
    cases hshort
  | none =>
    rw [hfault] at he
    cases hclose : b.close op with
    | error g =>
      simp only [hclose, bind, Except.bind] at he
      cases he
      unfold close at hclose
      split at hclose
      · cases hclose
      split at hclose
      · cases hclose
        cases hshort
      split at hclose
      · cases hclose
        cases hshort
      split at hclose <;> cases hclose
      cases hshort
    | ok closed =>
      cases hroom : closed.checkRoom op with
      | error g =>
        simp only [hclose, hroom, bind, Except.bind] at he
        cases he
        exact ⟨closed, rfl, hroom⟩
      | ok _ =>
        simp only [hclose, hroom, bind, Except.bind] at he
        split at he
        · cases he
        · cases he
          cases hshort

theorem fails_of_emit (he : b.emit op inputs = .error f) : b.Fails (declares op) f := by
  cases hshort : f.isShortage with
  | false => exact fails_of_not_shortage hshort _
  | true =>
    obtain ⟨closed, hclose, hroom⟩ := checkRoom_of_emit he hshort
    have hnext : closed.nextVariable = b.nextVariable := (close_frame hclose).2.1
    unfold checkRoom at hroom
    simp only at hroom
    have hcapacity : Variable.limit ≤ capacity := by decide
    split at hroom
    · cases hroom
      cases hshort
    split at hroom
    · rename_i hsize
      exact ⟨fun _ => Nat.le_trans hcapacity (Nat.le_trans hsize (Nat.le_add_left _ _)),
        fun _ => hsize⟩
    split at hroom <;> cases hroom
    rename_i hnumbers
    rw [hnext, Nat.add_assoc] at hnumbers
    exact ⟨fun _ => hnumbers, nofun⟩

theorem isShortage_eq_false_of_adopted {v : Variable} (h : b.adopted v = .error f) :
    f.isShortage = false := by
  unfold adopted at h
  split at h <;> cases h
  rfl

theorem isShortage_eq_false_of_mapM_adopted {vs : List Variable}
    (h : vs.mapM b.adopted = .error f) : f.isShortage = false := by
  induction vs with
  | nil => cases h
  | cons v vs ih =>
    rw [List.mapM_cons] at h
    cases hv : b.adopted v with
    | error g =>
      rw [hv] at h
      cases h
      exact isShortage_eq_false_of_adopted hv
    | ok w =>
      rw [hv] at h
      cases hvs : vs.mapM b.adopted with
      | error g =>
        rw [hvs] at h
        cases h
        exact ih hvs
      | ok ws =>
        rw [hvs] at h
        cases h

theorem fails_of_adoptAs (h : b.adoptAs i op = .error f) : b.Fails (declares op) f := by
  unfold adoptAs at h
  simp only [bind, Except.bind] at h
  split at h
  · cases h
    exact fails_of_not_shortage rfl _
  split at h
  · cases h
    exact fails_of_not_shortage rfl _
  split at h
  · cases h
    exact fails_of_not_shortage (isShortage_eq_false_of_mapM_adopted ‹_›) _
  split at h
  · cases h
    exact fails_of_emit ‹_›
  · cases h

theorem isShortage_eq_false_of_finalize {id : Uuid} (h : b.finalize id = .error f) :
    f.isShortage = false := by
  unfold finalize at h
  cases hopen : b.openBlocks.isEmpty <;> rw [hopen] at h
  · cases h
    rfl
  · cases hcode : b.code.isWellFormed <;> rw [hcode] at h
    · cases h
      rfl
    · cases h

theorem sum_declares (is : Code) :
    ((is.map Instruction.op).map declares).sum = is.numVariables := by
  induction is with
  | nil => rfl
  | cons i is ih =>
    rw [List.map_cons, List.map_cons, List.sum_cons, ih, declares_eq]
    rfl

theorem fails_of_adoptAll (h : b.adoptAll is = .error f) : b.Fails is.numVariables f := by
  induction is generalizing b with
  | nil => cases h
  | cons i is ih =>
    have hcons : Code.numVariables (i :: is) = declares i.op + Code.numVariables is := by
      rw [declares_eq]
      rfl
    rw [hcons]
    rw [adoptAll_cons] at h
    cases ha : b.adopt i with
    | error g =>
      rw [ha] at h
      cases h
      exact (fails_of_adoptAs ha).mono (Nat.le_add_right _ _)
    | ok r =>
      rw [ha] at h
      refine (ih h).after ?_
      rw [(continues_adoptAs ha).next, List.map_singleton, List.sum_singleton]

end Builder

end ScriptFuzz
