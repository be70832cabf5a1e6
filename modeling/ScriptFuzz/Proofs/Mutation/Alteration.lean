import ScriptFuzz.Generator
import ScriptFuzz.Mutation.Alteration
import ScriptFuzz.Proofs.Builder.Numbers
import ScriptFuzz.Proofs.Code.Nesting
import ScriptFuzz.Proofs.Fuzzing.Steps

/-!
# Altered programs and programs behind a preamble

An altered operation is of the kind of the given one (`Alteration.kind_operation`), so an altered
copy of a sound program is sound, and so is a copy behind a preamble.
-/

namespace ScriptFuzz

set_option autoImplicit false

open Code Builder Building

namespace Alteration

/-- What is altered decides nothing about where an operation may stand. -/
theorem kind_operation (e : Environment) (op : Operation) (r : Random) :
    ((operation e op).run r).1.kind = op.kind := by
  cases op <;> rfl

theorem declares_operation (e : Environment) (op : Operation) (r : Random) :
    declares ((operation e op).run r).1 = declares op := by
  cases op <;> rfl

variable {b : Builder} {p final q : Progress} {done : Code}

theorem yields_alterAt (e : Environment) (chosen : List Nat) (is : Code)
    (h : Copies {} done p b q) (hrun : p.run done.length is = .ok final)
    (hcount : Code.IsCountable is) :
    Yields (alterAt e chosen is) b fun _ b' => ∃ q', Copies {} (done ++ is) final b' q' := by
  refine yields_walk (P := fun _ => True) rfl ?_ is h hrun hcount fun _ _ => trivial
  intro i is done p q b Q _ hcount ha h hrest
  unfold alterAt
  split
  · refine Building.bind (ends_draw fun r => ?_)
    have hadopt := h.adoptAs rfl ha (kind_operation e i.op r) hcount fun _ _ h => h
    refine Building.bind (yields_adoptAs (hadopt.mono ?_))
    rintro ⟨produced, b'⟩ ⟨j, -, -, h'⟩
    exact hrest h'
  · exact Building.bind (yields_adopt rfl ha h hcount fun _ _ _ h' => hrest h')

/-- An altered copy takes the numbers of its source. -/
theorem needs_alterAt (e : Environment) (chosen : List Nat) (is : Code) :
    Needs (Code.numVariables is) (alterAt e chosen is) := by
  induction is with
  | nil => exact spends_pure trivial
  | cons i is ih =>
    rw [Code.numVariables_cons]
    unfold alterAt
    split
    · have hdrawn : Spends (fun _ => True) 0 (liftM (operation e i.op) : Assembly Operation)
          fun op => declares op = i.allOutputs.length :=
        spends_draw fun r => (declares_operation e i.op r).trans (declares_eq i)
      refine hdrawn.bind_free fun op hop => ?_
      exact ((needs_adoptAs i op).mono (Nat.le_of_eq hop)).bind fun _ _ => ih
    · exact (needs_adopt i).bind fun _ _ => ih

/-- An altered copy of a sound program is sound. Only memory can run short, for the positions that are
to be altered. -/
theorem finishes_mutate {p : Program} (hsound : p.code.IsSound) (s : MutationSettings)
    (e : Environment) (id : Uuid) :
    Finishes (mutate s e id p) (fun r => ∀ q, r = some q → q.code.IsSound) fun f =>
      f.isShortage = true ∧ capacity ≤ s.maxAlterations := by
  unfold mutate
  simp only
  split
  · exact finishes_pure nofun
  have hbelow : 0 < max s.maxAlterations 1 := by omega
  refine Finishes.bind (P := (· < max s.maxAlterations 1))
    (finishes_draw fun r => Draw.below_lt hbelow r) fun count hcount => ?_
  split
  · rename_i hcapacity
    refine finishes_throw ⟨rfl, ?_⟩
    have hsmall : 1 < capacity := by decide
    omega
  refine Finishes.bind (P := fun _ => True) (finishes_draw fun _ => trivial) fun chosen _ => ?_
  obtain ⟨final, hrun, hblocks⟩ := check_eq_ok_iff_run.mp hsound.check
  have hstart : Copies {} [] {} _ {} := Carries.start (holds_derivedFrom p p.contributors name)
  have hcopy := (yields_alterAt e chosen p.code hstart hrun hsound.countable).within
    (needs_alterAt e chosen p.code) rfl
  refine Finishes.bind ((finishes_assembly hcopy).mono (fun _ h => h) ?_) ?_
  · -- The source has been numbered, so there are numbers for its copy.
    rintro f ⟨-, hlimit⟩
    exact absurd hlimit (Nat.not_le_of_lt (numVariables_lt_of_check hsound.check))
  · rintro ⟨_, b⟩ ⟨q, h⟩
    refine (finishes_finalize h.target (h.blocks_eq hblocks) id).bind fun r hr => finishes_pure ?_
    rintro q ⟨⟩
    exact hr

end Alteration

/-! ## Preambles -/

namespace Generator

variable {b : Builder} {q : Progress}

theorem adds_emit (h : b.InBody q) (e : Environment) (g : Generator) :
    Adds (g.emit e) b q fun _ _ => True := by
  have hload {op : Operation} (hplain : IsPlain op) (hshape : op.shape.inputs = 0 ∧
      op.shape.outputs = 1 ∧ op.shape.innerOutputs = 0) :
      Adds (Build.emitOne op [] : Assembly Variable) b q fun _ _ => True :=
    (adds_load h hplain hshape).mono fun _ _ _ => trivial
  cases g with
  | builtin =>
    refine Building.bind (ends_draw fun r => ?_)
    split
    · exact hload ⟨rfl, rfl, rfl⟩ ⟨rfl, rfl, rfl⟩
    · exact Building.bind (ends_draw fun r => hload ⟨rfl, rfl, rfl⟩ ⟨rfl, rfl, rfl⟩)
  | _ => exact Building.bind (ends_draw fun r => hload ⟨rfl, rfl, rfl⟩ ⟨rfl, rfl, rfl⟩)

theorem adds_emitBuiltins (h : b.InBody q) (e : Environment) (n : Nat) :
    Adds (emitBuiltins e n) b q fun _ _ => True := by
  induction n generalizing b q with
  | zero => exact adds_pure h trivial
  | succ n ih => exact adds_bind h (adds_emit h e builtin) fun _ _ _ h' _ _ => ih h'

end Generator

namespace Generator

theorem needs_emit (e : Environment) (g : Generator) : Needs 1 (g.emit e) := by
  have hload {op : Operation} (hone : declares op = 1) :
      Needs 1 (Build.emitOne op [] : Assembly Variable) :=
    (spends_emitOne [] (keptBy_true op)).mono (Nat.le_of_eq hone)
  have hdrawn {α : Type} {d : Draw α} {f : α → Assembly Variable} (hf : ∀ a, Needs 1 (f a)) :
      Needs 1 ((liftM d : Assembly α) >>= f) :=
    (spends_draw (Q := fun _ => True) fun _ => trivial).bind_free fun a _ => hf a
  cases g with
  | builtin =>
    apply hdrawn
    intro name
    cases name with
    | some name => exact hload rfl
    | none => exact hdrawn fun n => hload rfl
  | _ => exact hdrawn fun _ => hload rfl

theorem needs_emitBuiltins (e : Environment) (n : Nat) : Needs n (emitBuiltins e n) := by
  induction n with
  | zero => exact spends_pure trivial
  | succ n ih =>
    refine ((needs_emit e builtin).bind fun _ _ => ih).mono ?_
    omega

end Generator

namespace Program

variable {p : Program}

/-- The steps of a preamble and of the copy behind it. -/
abbrev warming (e : Environment) (p : Program) : Assembly Unit := do
  if let some g ← Draw.choose Generator.all then
    let _ ← g.emit e
  Generator.emitBuiltins e (1 + (← Draw.below .single 2))
  Build.appendProgram p

theorem needs_warming (e : Environment) (p : Program) :
    Needs (p.code.numVariables + 3) (p.warming e) := by
  have hrest : Needs (p.code.numVariables + 2) (do
      Generator.emitBuiltins e (1 + (← Draw.below .single 2))
      Build.appendProgram p : Assembly Unit) := by
    have hfew : Spends (fun _ => True) 0 (liftM (Draw.below .single 2) : Assembly Nat) (· < 2) :=
      spends_draw fun r => Draw.below_lt (by decide) r
    refine hfew.bind_free fun n hn => ?_
    refine (((Generator.needs_emitBuiltins e (1 + n)).mono (k := 2) (by omega)).bind fun _ _ =>
      needs_appendProgram p).mono ?_
    omega
  refine Spends.bind_free (Q := fun _ => True) (spends_draw fun _ => trivial) fun g _ => ?_
  split
  · refine ((Generator.needs_emit e _).bind fun _ _ => hrest).mono ?_
    omega
  · exact hrest.mono (by omega)

theorem yields_warming (hsound : p.code.IsSound) (e : Environment) {b : Builder} (h : b.InBody {}) :
    Yields (p.warming e) b fun _ b' => ∃ q, b'.Holds q ∧ q.blocks = [] := by
  have hrest {b : Builder} {q : Progress} (h : b.InBody q) (hq : q.blocks = []) :
      Yields (do
        Generator.emitBuiltins e (1 + (← Draw.below .single 2))
        Build.appendProgram p : Assembly Unit) b fun _ b' =>
          ∃ q', b'.Holds q' ∧ q'.blocks = [] := by
    refine Building.bind (ends_draw fun r => Building.bind ?_)
    refine Building.mono (Generator.adds_emitBuiltins h e _) ?_
    rintro _ b₁ ⟨q₁, hgrown, -⟩
    refine Building.mono (yields_appendProgram (hgrown.inBody h) hsound) ?_
    rintro _ b₂ ⟨q₂, hholds, hblocks⟩
    exact ⟨q₂, hholds, hblocks.trans (hgrown.widens.blocks.trans hq)⟩
  refine Building.bind (ends_draw fun r => ?_)
  split
  · refine Building.bind (Building.mono (Generator.adds_emit h e _) ?_)
    rintro _ b₁ ⟨q₁, hgrown, -⟩
    exact hrest (hgrown.inBody h) hgrown.widens.blocks
  · exact hrest h rfl

/-- A program behind a preamble is sound. Only numbers can run short, for the program and at most three
values of the preamble. -/
theorem finishes_warmUp (hsound : p.code.IsSound) (e : Environment) (id : Uuid) :
    Finishes (p.warmUp e id) (fun r => r.code.IsSound) fun f =>
      f.isShortage = true ∧ Variable.limit ≤ p.code.numVariables + 3 := by
  have hstart : ({ derivedFrom p with contributors := p.contributors } : Builder).InBody {} :=
    ⟨holds_start.congr rfl rfl rfl rfl rfl, rfl⟩
  have hwarming := (yields_warming hsound e hstart).within (needs_warming e p) rfl
  refine Finishes.bind (finishes_assembly hwarming) ?_
  rintro ⟨_, b⟩ ⟨q, hholds, hblocks⟩
  exact finishes_finalize hholds hblocks id

end Program

end ScriptFuzz
