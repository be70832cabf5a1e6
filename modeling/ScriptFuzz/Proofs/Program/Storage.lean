import ScriptFuzz.Proofs.Builder.Reading
import ScriptFuzz.Proofs.Code.Nesting
import ScriptFuzz.Proofs.Code.Uses
import ScriptFuzz.Proofs.Ordered
import ScriptFuzz.Proofs.Wire.Reading
import ScriptFuzz.Program.Load

/-!
# Programs in memory

`Program.IsStorable` says of a program what holds of every program in memory: its lists and texts
have lengths below a bound, and its sets and maps are in order. What else is written of a checked
program is then in range too.
-/

namespace ScriptFuzz

set_option autoImplicit false

namespace Operation

/-- The texts among the parameters. -/
def texts : Operation → List String
  | loadString s | loadRegExp s | loadBuiltin s | getProperty s | setProperty s | callMethod s _
  | eval s _ | beginClassMethod s _ => [s]
  | _ => []

/-- The numbers of variables among the parameters. -/
def counts : Operation → List Nat
  | createArray n | beginPlainFunction n | callFunction n | construct n | callMethod _ n
  | eval _ n | beginClassMethod _ n => [n]
  | _ => []

theorem lt_of_mem_counts {op : Operation} (h : op.isCountable = true) {n : Nat}
    (hn : n ∈ op.counts) : n < countLimit := by
  have hsize : op.shape.size < countLimit := of_decide_eq_true h
  unfold Shape.size at hsize
  cases op <;> first
    | cases hn; done
    | rw [List.mem_singleton.mp hn]
      simp only [shape] at hsize
      omega

end Operation

namespace Instruction

theorem load_eq_ok {i : Instruction} (h : i.op.isCountable = true) :
    Instruction.load i.op i.inouts i.index = .ok i := by
  rw [load, ofParts, if_neg (not_not_intro h), dif_pos i.arity]
  rfl

end Instruction

namespace Program

/-- What holds of every program in memory. -/
structure IsStorable (p : Program) : Prop where
  countable : p.code.IsCountable
  code : p.code.length < Wire.lengthLimit
  texts : ∀ i ∈ p.code, ∀ s ∈ i.op.texts, Wire.FitsText s
  header : ∀ s, p.comments.header = some s → Wire.FitsText s
  footer : ∀ s, p.comments.footer = some s → Wire.FitsText s
  comments : p.comments.instructions.length < Wire.lengthLimit
  comment : ∀ c ∈ p.comments.instructions, c.1 < Wire.lengthLimit ∧ Wire.FitsText c.2
  positions : p.comments.instructions.Pairwise fun c d => c.1 < d.1
  contributors : p.contributors.length < Wire.lengthLimit
  contributor : ∀ s ∈ p.contributors, Wire.FitsText s
  names : p.contributors.Pairwise (· < ·)

theorem validated_eq_ok {p : Program} (h : p.code.check = .ok ()) : p.validated = .ok p := by
  rw [validated, h]
  rfl

variable {p : Program} {i : Instruction}

theorem number_lt_of_check (h : p.code.check = .ok ()) (hi : i ∈ p.code) {v : Variable}
    (hv : v ∈ i.inouts) : v.number < Variable.limit := by
  obtain ⟨q, hrun, -⟩ := Code.check_eq_ok_iff_run.mp h
  have hnumbered :=
    Code.Progress.numbered_of_run Code.Progress.balanced_start Code.Progress.seesNumbered_start hrun
  have hlt := hnumbered.lt_of_mem hi hv
  rw [show ({} : Code.Progress).next = 0 from rfl, Nat.zero_add] at hlt
  exact Nat.lt_trans hlt (Code.numVariables_lt_of_check h)

theorem IsStorable.index_lt (hp : p.IsStorable) (h : p.code.check = .ok ()) (hi : i ∈ p.code) :
    i.index < Wire.lengthLimit :=
  Nat.lt_trans (List.getElem?_eq_some_iff.mp (Code.getElem?_index h hi)).1 hp.code

end Program

end ScriptFuzz
