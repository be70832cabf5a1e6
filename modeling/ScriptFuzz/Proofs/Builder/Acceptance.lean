import Mathlib.Data.List.Induction
import ScriptFuzz.Proofs.Builder.Reading
import ScriptFuzz.Proofs.Code.Stack

/-!
# What the builder accepts

The builder refuses all that the check refuses, but for one rule: it lets cases follow the default
case of their switch. `Builder.check_eq_ok_iff_of_emitAll` says that this is the only way in which
code that was accepted step by step is not well formed.
-/

namespace ScriptFuzz

set_option autoImplicit false

namespace Code

/-- The positions of the blocks that are open after the code, innermost first. -/
def openAfter (code : Code) : List Nat :=
  code.foldl
    (fun opened i =>
      let outer := if i.isBlockEnd then opened.tail else opened
      if i.isBlockStart then i.index :: outer else outer)
    []

/-- At `n` starts a case of the switch whose default case starts at `m`, further up. -/
structure FollowsDefault (code : Code) (m n : Nat) : Prop where
  lt : m < n
  default : ∃ i, code[m]? = some i ∧ i.op = .beginSwitchDefaultCase
  case : ∃ i, code[n]? = some i ∧ (i.op = .beginSwitchCase ∨ i.op = .beginSwitchDefaultCase)
  switch : openAfter (code.take m) = openAfter (code.take n)

/-- A default case starts where exactly the blocks at the positions `ks` are open. -/
def SeenIn (code : Code) (ks : List Nat) : Prop :=
  ∃ m i, code[m]? = some i ∧ i.op = .beginSwitchDefaultCase ∧ openAfter (code.take m) = ks

variable {code : Code} {i : Instruction} {ks : List Nat} {m n : Nat}

theorem openAfter_append_singleton (code : Code) (i : Instruction) :
    openAfter (code ++ [i]) =
      if i.isBlockStart then
        i.index :: if i.isBlockEnd then (openAfter code).tail else openAfter code
      else if i.isBlockEnd then (openAfter code).tail else openAfter code := by
  simp [openAfter, List.foldl_append]

theorem FollowsDefault.append (h : FollowsDefault code m n) (d : Code) :
    FollowsDefault (code ++ d) m n := by
  obtain ⟨i, hn, hcase⟩ := h.case
  obtain ⟨j, hm, hdefault⟩ := h.default
  have hlt : n < code.length := (List.getElem?_eq_some_iff.mp hn).1
  have hlt' : m < code.length := (List.getElem?_eq_some_iff.mp hm).1
  refine ⟨h.lt, ⟨j, by rwa [List.getElem?_append_left hlt'], hdefault⟩,
    ⟨i, by rwa [List.getElem?_append_left hlt], hcase⟩, ?_⟩
  rw [List.take_append_of_le_length (Nat.le_of_lt hlt'),
    List.take_append_of_le_length (Nat.le_of_lt hlt)]
  exact h.switch

theorem seenIn_append_singleton : SeenIn (code ++ [i]) ks ↔
    SeenIn code ks ∨ i.op = .beginSwitchDefaultCase ∧ ks = openAfter code := by
  constructor
  · rintro ⟨m, j, hj, hop, hopen⟩
    rcases Nat.lt_trichotomy m code.length with hlt | rfl | hlt
    · rw [List.getElem?_append_left hlt] at hj
      rw [List.take_append_of_le_length (Nat.le_of_lt hlt)] at hopen
      exact .inl ⟨m, j, hj, hop, hopen⟩
    · rw [List.getElem?_append_right (Nat.le_refl _), Nat.sub_self] at hj
      cases hj
      rw [List.take_left] at hopen
      exact .inr ⟨hop, hopen.symm⟩
    · rw [List.getElem?_eq_none (by rw [List.length_append]; exact hlt)] at hj
      cases hj
  · rintro (⟨m, j, hj, hop, hopen⟩ | ⟨hop, hopen⟩)
    · have hlt : m < code.length := (List.getElem?_eq_some_iff.mp hj).1
      refine ⟨m, j, by rwa [List.getElem?_append_left hlt], hop, ?_⟩
      rwa [List.take_append_of_le_length (Nat.le_of_lt hlt)]
    · exact ⟨code.length, i, by simp, hop, by rw [List.take_left, hopen]⟩

end Code

namespace Code.Progress

variable {p q : Progress} {code : Code} {i : Instruction}

theorem run_append_singleton (h : ({} : Progress).run 0 (code ++ [i]) = .ok q) :
    ∃ p, ({} : Progress).run 0 code = .ok p ∧
      p.Balanced ∧ p.Admits code.length i ∧ q = p.after i := by
  obtain ⟨p, hrun, hlast⟩ := run_append_eq_ok_iff.mp h
  have hp := balanced_of_run hrun
  obtain ⟨ha, hq⟩ := (run_cons_eq_ok_iff hp).mp hlast
  rw [Nat.zero_add] at ha
  cases hq
  exact ⟨p, hrun, hp, ha, rfl⟩

theorem run_take (h : ({} : Progress).run 0 code = .ok q) (m : Nat) :
    ∃ p, ({} : Progress).run 0 (code.take m) = .ok p := by
  rw [← List.take_append_drop m code] at h
  obtain ⟨p, hp, -⟩ := run_append_eq_ok_iff.mp h
  exact ⟨p, hp⟩

theorem map_index_blocks (h : ({} : Progress).run 0 code = .ok q) :
    q.blocks.map Instruction.index = openAfter code := by
  induction code using List.reverseRec generalizing q with
  | nil =>
    cases h
    rfl
  | append_singleton code i ih =>
    obtain ⟨p, hp, -, -, rfl⟩ := run_append_singleton h
    have houter : (p.outerBlocks i).map Instruction.index =
        if i.isBlockEnd then (openAfter code).tail else openAfter code := by
      rw [← ih hp, outerBlocks]
      split <;> simp
    rw [openAfter_append_singleton, ← houter]
    simp only [Progress.after]
    split <;> simp

theorem lt_of_mem_openAfter (h : ({} : Progress).run 0 code = .ok q) {k : Nat}
    (hk : k ∈ openAfter code) : k < code.length := by
  rw [← map_index_blocks h] at hk
  obtain ⟨i, hi, rfl⟩ := List.mem_map.mp hk
  rcases mem_of_mem_blocks balanced_start h hi with hi | hi
  · cases hi
  · exact (List.getElem?_eq_some_iff.mp (getElem?_index balanced_start h hi).2).1

theorem stacked_of_run (h : ({} : Progress).run 0 code = .ok q) : q.Stacked :=
  (run_induction (fun _ _ _ _ ha hs => hs.after ha.context ha.closes) balanced_start h
    stacked_start).2

theorem flagged_of_run (h : ({} : Progress).run 0 code = .ok q) :
    Flagged (SeenIn code) q.blocks q.defaults := by
  induction code using List.reverseRec generalizing q with
  | nil =>
    cases h
    rfl
  | append_singleton code i ih =>
    obtain ⟨p, hp, -, ha, rfl⟩ := run_append_singleton h
    have hblocks := map_index_blocks hp
    refine (stacked_of_run hp).flagged_after ha.context ha.closes (ih hp) (fun ks => ?_) ?_
    · rw [seenIn_append_singleton, hblocks]
    · -- The switch itself stands behind everything that was open so far.
      rintro hop (⟨m, j, hj, -, hopen⟩)
      rw [List.map_cons, ha.index] at hopen
      have hlength : (code ++ [i]).length = code.length + 1 := by simp
      have hm := (List.getElem?_eq_some_iff.mp hj).1
      rw [List.take_append_of_le_length (by omega)] at hopen
      obtain ⟨p', hp'⟩ := run_take hp m
      have := lt_of_mem_openAfter hp' (hopen ▸ List.mem_cons_self)
      rw [List.length_take] at this
      omega

/-- In code that can be read no case follows the default case of its switch. -/
theorem not_followsDefault (h : ({} : Progress).run 0 code = .ok q) {m n : Nat} :
    ¬FollowsDefault code m n := by
  intro hf
  obtain ⟨i, hn, hcase⟩ := hf.case
  obtain ⟨j, hm, hdefault⟩ := hf.default
  have htake : code.take (n + 1) = code.take n ++ [i] := by rw [List.take_add_one, hn]; rfl
  obtain ⟨p', hp'⟩ := run_take h (n + 1)
  rw [htake] at hp'
  obtain ⟨p, hp, -, ha, -⟩ := run_append_singleton hp'
  have hflagged := flagged_of_run hp
  obtain ⟨s, rest, hb, hs⟩ := (stacked_of_run hp).exists_switch ha.context hcase
  rw [hb, Flagged, if_pos hs, ← hb] at hflagged
  obtain ⟨flag, flags, hd, hseen, -⟩ := hflagged
  have hflag := ha.undefaulted hcase
  rw [hd, List.head?_cons, Option.some.injEq] at hflag
  refine absurd (hseen.mpr ⟨m, j, ?_, hdefault, ?_⟩) (by rw [hflag]; exact Bool.false_ne_true)
  · rw [List.getElem?_take, if_pos hf.lt]
    exact hm
  · rw [map_index_blocks hp, List.take_take, Nat.min_eq_left (Nat.le_of_lt hf.lt)]
    exact hf.switch

theorem run_append {n : Nat} {d : Code} :
    q.run n (code ++ d) = (q.run n code).bind fun p => p.run (n + code.length) d := by
  induction code generalizing q n with
  | nil => rfl
  | cons i is ih =>
    rw [List.cons_append, run, run]
    cases q.step n i with
    | error e => rfl
    | ok p =>
      change p.run (n + 1) (is ++ d) = _
      rw [ih, List.length_cons, Nat.add_assoc, Nat.add_comm 1]
      rfl

/-- The check rejects a case for nothing but a default case before it, if all else is in order. -/
theorem step_eq_afterDefault {n : Nat} (hflaw : q.flaw? n i = none) (hend : i.isBlockEnd = false)
    (hop : i.op = .beginSwitchCase ∨ i.op = .beginSwitchDefaultCase)
    (hflag : q.defaults.head? = some true) : q.step n i = .error (.flawed n i .afterDefault) := by
  obtain ⟨flags, hd⟩ := List.head?_eq_some_iff.mp hflag
  have hclose : q.close i = .ok q := by rw [close, hend]; rfl
  have hcase : q.countCase i = .error .afterDefault := by
    rw [countCase, hd]
    rcases hop with hop | hop <;> rw [hop]
  unfold step
  simp only [hflaw, hclose, mapError_ok, hcase, mapError_error, bind, Except.bind]

end Code.Progress

namespace Builder

open Code Code.Progress

variable {b b' : Builder} {p : Progress} {op : Operation} {inputs produced : List Variable}

/-- Adds instructions one after the other. -/
def emitAll (b : Builder) : List (Operation × List Variable) → Except Fault Builder
  | [] => .ok b
  | (op, inputs) :: steps => do
    let (_, b) ← b.emit op inputs
    b.emitAll steps

theorem emitAll_cons_eq_ok_iff {steps : List (Operation × List Variable)} :
    b.emitAll ((op, inputs) :: steps) = .ok b' ↔
      ∃ r, b.emit op inputs = .ok r ∧ r.2.emitAll steps = .ok b' := by
  rw [emitAll]
  cases he : b.emit op inputs with
  | error f => simp [bind, Except.bind]
  | ok r => simp [bind, Except.bind]

theorem code_of_emitAll {steps : List (Operation × List Variable)}
    (he : b.emitAll steps = .ok b') : ∃ d, b'.code = b.code ++ d := by
  induction steps generalizing b with
  | nil =>
    cases he
    exact ⟨[], (List.append_nil _).symm⟩
  | cons step steps ih =>
    obtain ⟨op, inputs⟩ := step
    obtain ⟨⟨produced, b₁⟩, he₁, hrest⟩ := emitAll_cons_eq_ok_iff.mp he
    obtain ⟨i, -, hi⟩ := code_emit he₁
    obtain ⟨d, hd⟩ := ih hrest
    exact ⟨i :: d, by rw [hd, hi, List.append_assoc, List.singleton_append]⟩

/-- What an emission adds is read like the rest of the code, or is a case after a default case. -/
theorem reads_or_followsDefault_of_emit (h : b.Reads p)
    (he : b.emit op inputs = .ok (produced, b')) :
    ∃ i, b'.code = b.code ++ [i] ∧ (b'.Reads (p.after i) ∨
      (∃ m, FollowsDefault b'.code m b.code.length) ∧
        ({} : Progress).run 0 b'.code = .error (.flawed b.code.length i .afterDefault)) := by
  obtain ⟨-, hroom, hfits, -, rfl⟩ := (emit_eq_ok_iff h.stands).mp he
  refine ⟨b.drafted op inputs hfits.length, rfl, ?_⟩
  by_cases hcase : op = .beginSwitchCase ∨ op = .beginSwitchDefaultCase →
      p.defaults.head? = some false
  · exact .inl (h.extended (admits_drafted h hroom hfits hcase))
  · rw [Classical.not_imp] at hcase
    obtain ⟨hop, hnot⟩ := hcase
    -- The innermost block is a switch; its flag is there and tells of a default case.
    obtain ⟨s, rest, hb, hs⟩ := (stacked_of_run h.run).exists_switch
      (i := b.drafted op inputs hfits.length) hfits.context hop
    have hflagged := flagged_of_run h.run
    rw [hb, Flagged, if_pos hs] at hflagged
    obtain ⟨flag, flags, hd, hseen, -⟩ := hflagged
    have hflag : flag = true := by
      rw [hd] at hnot
      cases flag with
      | true => rfl
      | false => exact absurd rfl hnot
    obtain ⟨m, j, hj, hjop, hopen⟩ := hseen.mp hflag
    rw [← hb, map_index_blocks h.run] at hopen
    have hlt := (List.getElem?_eq_some_iff.mp hj).1
    refine .inr ⟨⟨m, hlt, ⟨j, ?_, hjop⟩, ⟨b.drafted op inputs hfits.length, ?_, hop⟩, ?_⟩, ?_⟩
    · exact (List.getElem?_append_left hlt).trans hj
    · exact List.getElem?_concat_length
    · change openAfter ((b.code ++ [b.drafted op inputs hfits.length]).take m) =
        openAfter ((b.code ++ [b.drafted op inputs hfits.length]).take b.code.length)
      rw [List.take_append_of_le_length (Nat.le_of_lt hlt), List.take_left, hopen]
    · have hend : (b.drafted op inputs hfits.length).isBlockEnd = false := by
        rw [Instruction.isBlockEnd_eq]
        rcases hop with rfl | rfl <;> rfl
      have hflaw : p.flaw? b.code.length (b.drafted op inputs hfits.length) = none :=
        flaw?_eq_none_iff.mpr ⟨rfl, by rw [inputs_drafted]; exact hfits.visible, hfits.context⟩
      have hstep := step_eq_afterDefault hflaw hend hop (by rw [hd, hflag]; rfl)
      change ({} : Progress).run 0 (b.code ++ [_]) = _
      rw [run_append, h.run, Nat.zero_add]
      change p.run b.code.length [_] = _
      rw [run, hstep]
      rfl

/-- Code that was accepted step by step up to its last block is well formed, or its check ends at a
case that follows the default case of its switch. -/
theorem reads_or_followsDefault_of_emitAll {steps : List (Operation × List Variable)}
    (h : b.Reads p) (he : b.emitAll steps = .ok b') :
    (∃ q, b'.Reads q) ∨ ∃ m n i, FollowsDefault b'.code m n ∧
      ({} : Progress).run 0 b'.code = .error (.flawed n i .afterDefault) := by
  induction steps generalizing b p with
  | nil =>
    cases he
    exact .inl ⟨p, h⟩
  | cons step steps ih =>
    obtain ⟨op, inputs⟩ := step
    obtain ⟨⟨produced, b₁⟩, he₁, hrest⟩ := emitAll_cons_eq_ok_iff.mp he
    obtain ⟨i, hcode, hreads | ⟨⟨m, hm⟩, herror⟩⟩ := reads_or_followsDefault_of_emit h he₁
    · exact ih hreads hrest
    · obtain ⟨d, hd⟩ := code_of_emitAll hrest
      refine .inr ⟨m, b.code.length, i, ?_, ?_⟩
      · rw [hd]
        exact hm.append d
      · rw [hd, run_append, herror]
        rfl

/-- Code that was accepted step by step and leaves no block open is well formed exactly if no case
follows the default case of its switch; the check finds nothing else, and only then the program
cannot be finished. -/
theorem check_eq_ok_iff_of_emitAll {steps : List (Operation × List Variable)}
    (he : ({} : Builder).emitAll steps = .ok b) (hclosed : b.openBlocks = []) :
    (b.code.check = .ok () ↔ ∀ m n, ¬FollowsDefault b.code m n) ∧
      (∀ e, b.code.check = .error e → ∃ n i, e = .flawed n i .afterDefault) ∧
      ∀ id, (∃ program, b.finalize id = .ok program) ↔ ∀ m n, ¬FollowsDefault b.code m n := by
  have hcheck : (b.code.check = .ok () ∧ ∀ m n, ¬FollowsDefault b.code m n) ∨
      (∃ n i, b.code.check = .error (.flawed n i .afterDefault)) ∧
        ∃ m n, FollowsDefault b.code m n := by
    obtain ⟨q, hq⟩ | ⟨m, n, i, hfollows, herror⟩ :=
      reads_or_followsDefault_of_emitAll reads_start he
    · have hblocks : q.blocks = [] := by simpa [hclosed] using hq.blocks
      exact .inl ⟨check_eq_ok_iff_run.mpr ⟨q, hq.run, hblocks⟩,
        fun m n => not_followsDefault hq.run⟩
    · refine .inr ⟨⟨n, i, ?_⟩, m, n, hfollows⟩
      rw [check, herror]
      rfl
  obtain ⟨hok, hnone⟩ | ⟨⟨n, i, herror⟩, m, k, hfollows⟩ := hcheck
  · refine ⟨iff_of_true hok hnone, fun e h => ?_, fun id => iff_of_true ?_ hnone⟩
    · rw [hok] at h
      cases h
    · rw [finalize, hclosed, isWellFormed, hok]
      exact ⟨_, rfl⟩
  · refine ⟨iff_of_false ?_ fun h => h m k hfollows, fun e h => ⟨n, i, ?_⟩,
      fun id => iff_of_false ?_ fun h => h m k hfollows⟩
    · rw [herror]
      intro h
      cases h
    · rw [herror] at h
      exact (Except.error.inj h).symm
    · rw [finalize, hclosed, isWellFormed, herror]
      rintro ⟨_, h⟩
      cases h

/-- A switch with a case after its default case. -/
def lateCase : List (Operation × List Variable) :=
  [(.loadInteger 1, []), (.beginSwitch, [⟨0⟩]), (.beginSwitchDefaultCase, []),
    (.endSwitchCase, []), (.beginSwitchCase, [⟨0⟩]), (.endSwitchCase, []), (.endSwitch, [])]

theorem followsDefault_lateCase {b : Builder} (h : ({} : Builder).emitAll lateCase = .ok b) :
    FollowsDefault b.code 2 4 := by
  cases h
  exact ⟨by decide, ⟨_, rfl, rfl⟩, ⟨_, rfl, .inl rfl⟩, rfl⟩

theorem check_eq_ok_iff_of_emitAll_lateCase : ∃ b, ({} : Builder).emitAll lateCase = .ok b ∧
    b.openBlocks = [] ∧ FollowsDefault b.code 2 4 ∧ b.code.check ≠ .ok () := by
  refine ⟨_, rfl, rfl, followsDefault_lateCase rfl, fun h => ?_⟩
  have hemit : ({} : Builder).emitAll lateCase = .ok _ := rfl
  exact (check_eq_ok_iff_of_emitAll hemit rfl).1.mp h 2 4 (followsDefault_lateCase rfl)

theorem check_ne_ok_lateCase : ∃ b, ({} : Builder).emitAll lateCase = .ok b ∧
    b.openBlocks = [] ∧ b.code.check ≠ .ok () ∧ b.finalize (.fresh 0) = .error .illFormed := by
  refine ⟨_, rfl, rfl, ?_, rfl⟩
  decide

end Builder

end ScriptFuzz
