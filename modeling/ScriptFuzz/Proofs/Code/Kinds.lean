import Mathlib.Data.List.Forall2
import ScriptFuzz.Proofs.Code.Reading

/-!
# Kinds of operations

The check reads of an operation only its kind. Code whose instructions have the same variables and
operations of the same kinds as those of well-formed code is therefore well formed
(`Code.check_of_sameKind`).
-/

namespace ScriptFuzz

set_option autoImplicit false

open Code

/-- The operation with the parameters forgotten that decide nothing about where it may stand. -/
def Operation.kind : Operation → Operation
  | loadInteger _ => loadInteger 0
  | loadBigInt _ => loadBigInt 0
  | loadFloat _ => loadFloat ⟨0⟩
  | loadString _ => loadString ""
  | loadBoolean _ => loadBoolean false
  | loadRegExp _ => loadRegExp ""
  | loadBuiltin _ => loadBuiltin ""
  | getProperty _ => getProperty ""
  | setProperty _ => setProperty ""
  | getElement _ => getElement 0
  | setElement _ => setElement 0
  | callMethod _ n => callMethod "" n
  | unaryOperation _ => unaryOperation .plus
  | binaryOperation _ => binaryOperation .add
  | compare _ => compare .equal
  | update _ => update .add
  | beginIf _ => beginIf false
  | beginWhileLoop _ => beginWhileLoop .equal
  | beginClassMethod _ n => beginClassMethod "" n
  | op => op

namespace Operation

theorem shape_kind (op : Operation) : op.kind.shape = op.shape := by
  cases op <;> rfl

theorem kind_closes (op opener : Operation) : op.kind.closes opener = op.closes opener := by
  cases op <;> rfl

theorem closes_kind (op opener : Operation) : op.closes opener.kind = op.closes opener := by
  cases opener <;> first | rfl | cases op <;> rfl

variable {op op' : Operation}

theorem shape_eq_of_kind (h : op.kind = op'.kind) : op.shape = op'.shape := by
  rw [← shape_kind op, h, shape_kind]

theorem closes_eq_of_kind {opener opener' : Operation} (h : op.kind = op'.kind)
    (ho : opener.kind = opener'.kind) : op.closes opener = op'.closes opener' := by
  rw [← kind_closes op, ← closes_kind _ opener, h, ho, kind_closes, closes_kind]

theorem eq_of_kind (h : op.kind = op'.kind)
    (hop : op' ∈ [beginSwitch, beginSwitchCase, beginSwitchDefaultCase, endSwitch]) : op = op' := by
  simp only [List.mem_cons, List.not_mem_nil, or_false] at hop
  rcases hop with rfl | rfl | rfl | rfl <;> cases op <;> first | rfl | cases h

theorem eq_iff_of_kind (h : op.kind = op'.kind) {switch : Operation}
    (hswitch : switch ∈ [beginSwitch, beginSwitchCase, beginSwitchDefaultCase, endSwitch]) :
    op = switch ↔ op' = switch := by
  constructor
  · rintro rfl
    exact eq_of_kind h.symm hswitch
  · rintro rfl
    exact eq_of_kind h hswitch

end Operation

/-- The instructions differ at most in their positions and in parameters that the kind forgets. -/
structure Instruction.SameKind (i j : Instruction) : Prop where
  inouts : i.inouts = j.inouts
  kind : i.op.kind = j.op.kind

namespace Instruction.SameKind

variable {i j : Instruction}

theorem placed (i : Instruction) (k : Nat) : i.SameKind (i.placed k) := ⟨rfl, rfl⟩

theorem shape (h : i.SameKind j) : i.shape = j.shape := Operation.shape_eq_of_kind h.kind

theorem inputs (h : i.SameKind j) : i.inputs = j.inputs := by
  rw [Instruction.inputs, Instruction.inputs, h.inouts, h.shape]

theorem allOutputs (h : i.SameKind j) : i.allOutputs = j.allOutputs := by
  rw [Instruction.allOutputs, Instruction.allOutputs, h.inouts, h.shape]

end Instruction.SameKind

namespace Code

/-- Block for block, the operations are of the same kind. -/
def SameBlocks (is js : List Instruction) : Prop :=
  List.Forall₂ (fun i j => i.op.kind = j.op.kind) is js

namespace Progress

/-- The same is known, but for the positions and parameters of what opened the blocks. -/
structure Resembles (p q : Progress) : Prop where
  next : p.next = q.next
  scopes : p.scopes = q.scopes
  contexts : p.contexts = q.contexts
  blocks : SameBlocks p.blocks q.blocks
  defaults : p.defaults = q.defaults

theorem resembles_refl (p : Progress) : p.Resembles p :=
  ⟨rfl, rfl, rfl, List.forall₂_same.mpr fun _ _ => rfl, rfl⟩

theorem defaultsAfter_kind (p : Progress) (i : Instruction) : p.defaultsAfter i =
    match i.op.kind with
    | .beginSwitch => false :: p.defaults
    | .beginSwitchDefaultCase => true :: p.defaults.tail
    | .endSwitch => p.defaults.tail
    | _ => p.defaults := by
  unfold defaultsAfter
  cases i.op <;> rfl

namespace Resembles

variable {p q : Progress} {i j : Instruction} {n : Nat}

/-- What one reading admits, the other admits at the position that it claims to have. -/
theorem admits (h : p.Resembles q) (hij : i.SameKind j) (ha : p.Admits n i) :
    q.Admits j.index j := by
  have hshape : i.shape = j.shape := hij.shape
  refine ⟨rfl, fun v hv => ?_, ?_, fun hend => ?_, fun hcase => ?_, ?_, ?_⟩
  · rw [isVisible, ← h.scopes]
    exact ha.visible v (hij.inputs ▸ hv)
  · rw [context, ← h.contexts, ← hshape]
    exact ha.context
  · rw [Instruction.isBlockEnd, Instruction.has, ← hshape] at hend
    obtain ⟨opener, rest, hblocks, hcloses⟩ := ha.closes hend
    obtain ⟨opener', rest', hopener, -, hblocks'⟩ :=
      List.forall₂_cons_left_iff.mp (hblocks ▸ h.blocks : SameBlocks (opener :: rest) q.blocks)
    exact ⟨opener', rest', hblocks', Operation.closes_eq_of_kind hij.kind hopener ▸ hcloses⟩
  · rw [← h.defaults]
    rw [← Operation.eq_iff_of_kind hij.kind (by simp),
      ← Operation.eq_iff_of_kind hij.kind (by simp)] at hcase
    exact ha.undefaulted hcase
  · rw [← hij.allOutputs, ← h.next]
    exact ha.numbered
  · rw [← hij.allOutputs, ← h.next]
    exact ha.bounded

theorem after (h : p.Resembles q) (hij : i.SameKind j) : (p.after i).Resembles (q.after j) := by
  have hshape : i.shape = j.shape := hij.shape
  have houtputs : i.outputs = j.outputs := by
    rw [Instruction.outputs, Instruction.outputs, hij.allOutputs, hshape]
  have hinner : i.innerOutputs = j.innerOutputs := by
    rw [Instruction.innerOutputs, Instruction.innerOutputs, hij.allOutputs, hshape]
  have hstart : i.isBlockStart = j.isBlockStart := congrArg (·.has .blockStart) hshape
  have hend : i.isBlockEnd = j.isBlockEnd := congrArg (·.has .blockEnd) hshape
  have hblocks : SameBlocks (p.outerBlocks i) (q.outerBlocks j) := by
    unfold outerBlocks
    rw [hend]
    split
    · have htail := List.forall₂_drop 1 h.blocks
      rwa [List.drop_one, List.drop_one] at htail
    · exact h.blocks
  constructor
  · rw [Progress.after, Progress.after, h.next, hij.allOutputs]
  · simp only [Progress.after, outerScopes, h.scopes, hend, hstart, houtputs, hinner]
  · simp only [Progress.after, outerContexts, h.contexts, hend, hstart, hshape]
  · simp only [Progress.after, hstart]
    split
    · exact .cons hij.kind hblocks
    · exact hblocks
  · change p.defaultsAfter i = q.defaultsAfter j
    rw [defaultsAfter_kind, defaultsAfter_kind, hij.kind, h.defaults]

end Resembles

theorem run_of_resembles {p p' q : Progress} {n : Nat} {c d : Code} (hp : p.Balanced)
    (hq : q.Balanced) (h : p.Resembles q)
    (hcd : List.Forall₂ (fun i j => i.SameKind j ∧ j.index = i.index) c d)
    (hrun : p.run n c = .ok p') : ∃ q', q.run n d = .ok q' ∧ p'.Resembles q' := by
  induction hcd generalizing p q n with
  | nil =>
    cases hrun
    exact ⟨q, rfl, h⟩
  | cons hij _ ih =>
    obtain ⟨ha, hrun⟩ := (run_cons_eq_ok_iff hp).mp hrun
    have ha' := h.admits hij.1 ha
    rw [hij.2, ha.index] at ha'
    obtain ⟨q', hrun', h'⟩ := ih (hp.after ha) (hq.after ha') (h.after hij.1) hrun
    exact ⟨q', (run_cons_eq_ok_iff hq).mpr ⟨ha', hrun'⟩, h'⟩

end Progress

/-- Parameters that the kind forgets do not decide whether code is well formed. -/
theorem check_of_sameKind {c d : Code}
    (hcd : List.Forall₂ (fun i j => i.SameKind j ∧ j.index = i.index) c d) (h : c.check = .ok ()) : d.check = .ok () := by
  obtain ⟨p, hrun, hp⟩ := check_eq_ok_iff_run.mp h
  obtain ⟨q, hrun', hq⟩ := Progress.run_of_resembles Progress.balanced_start
    Progress.balanced_start (Progress.resembles_refl {}) hcd hrun
  have hblocks := hq.blocks
  rw [hp] at hblocks
  exact check_eq_ok_iff_run.mpr ⟨q, hrun', (List.forall₂_nil_left_iff.mp hblocks)⟩

end Code

end ScriptFuzz
