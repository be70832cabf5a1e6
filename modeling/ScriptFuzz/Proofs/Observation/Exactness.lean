import ScriptFuzz.Proofs.Builder.Renaming
import ScriptFuzz.Proofs.Mutation.Guards
import ScriptFuzz.Proofs.Mutation.Synthesis
import ScriptFuzz.Proofs.Observation.Records
import ScriptFuzz.Proofs.Program.Instrumentation

/-!
# Observation is exact

An instrumented copy is followed under the simulated hook: along `reportAll` the copy has written
what its source reports so far (`Program.Reporting`). What comes back on the side channel are then
the descriptions of the values of the source, at the positions of the source
(`Program.observedExactly_instrument`).
-/

namespace ScriptFuzz

set_option autoImplicit false

namespace Simulation

open Code

variable {c : Code} {i : Instruction}

/-- The origins after an instruction. -/
def after (origins : Origins) (i : Instruction) : Origins :=
  (i.allOutputs.map fun v => (v, i.op)).reverse ++ origins

def originsOf (c : Code) : Origins := c.foldl after []

theorem lookup_declared (vs : List Variable) (op : Operation) (origins : Origins) (v : Variable) :
    ((vs.map fun v => (v, op)).reverse ++ origins).lookup v =
      if v ∈ vs then some op else origins.lookup v := by
  induction vs generalizing origins with
  | nil => rfl
  | cons w ws ih =>
    rw [List.map_cons, List.reverse_cons, List.append_assoc, ih, List.singleton_append,
      List.lookup_cons]
    by_cases hws : v ∈ ws
    · rw [if_pos hws, if_pos (List.mem_cons_of_mem w hws)]
    · rw [if_neg hws]
      by_cases hw : v = w
      · subst hw
        rw [if_pos List.mem_cons_self]
        simp
      · have hnot : v ∉ w :: ws := by simp [hw, hws]
        rw [if_neg hnot, beq_false_of_ne hw]

/-- The simulated hook knows the operation that declares a variable. -/
theorem lookup_originsOf (h : DeclaresOnce c) (v : Variable) :
    (originsOf c).lookup v = (c.declarer? v).map Instruction.op := by
  induction c using List.reverseRecOn with
  | nil => rfl
  | append_singleton c i ih =>
    obtain ⟨hc, -, hlast⟩ := List.pairwise_append.mp h
    have horigins : originsOf (c ++ [i]) = after (originsOf c) i := List.foldl_concat ..
    rw [horigins, after, lookup_declared, ih hc]
    by_cases hv : v ∈ i.allOutputs
    · rw [if_pos hv, declarer?_of_mem h (List.mem_append_right c List.mem_cons_self) hv]
      rfl
    · have hlast : Code.declarer? [i] v = none := by
        rw [declarer?_cons, if_neg hv]
        rfl
      rw [if_neg hv, declarer?_append_of_none hlast]

theorem lines_cons (origins : Origins) (i : Instruction) (is : Code) :
    lines origins (i :: is) = (line? (after origins i) i >>= fun line =>
      lines (after origins i) is >>= fun rest => return line.toList ++ rest) := rfl

/-- What is written at the last instruction follows what is written before. -/
theorem lines_concat {origins : Origins} {ls : List String} {line : Option String}
    (h : lines origins c = .ok ls) (hline : line? ((c ++ [i]).foldl after origins) i = .ok line) :
    lines origins (c ++ [i]) = .ok (ls ++ line.toList) := by
  induction c generalizing origins ls with
  | nil =>
    cases h
    rw [List.nil_append, lines_cons, show line? (after origins i) i = .ok line from hline]
    exact congrArg Except.ok (List.append_nil _)
  | cons j js ih =>
    rw [lines_cons] at h
    rw [List.cons_append, lines_cons]
    cases hj : line? (after origins j) j with
    | error e =>
      rw [hj] at h
      cases h
    | ok first =>
      cases hjs : lines (after origins j) js with
      | error e =>
        rw [hj, hjs] at h
        cases h
      | ok rest =>
        rw [hj, hjs] at h
        cases h
        rw [ih hjs hline]
        exact congrArg Except.ok (List.append_assoc _ _ _).symm

theorem line?_of_silent {origins : Origins} (h : Hook.isRecordCall i = false) :
    line? origins i = .ok none := by
  unfold line?
  rw [h]
  rfl

/-- A call of the hook writes the report of the value that it is given, as that is known by the
instruction that the value comes from. -/
theorem line?_of_reports {hook value index : Variable} {l k l' j : Instruction}
    (honce : DeclaresOnce c) (hcall : Hook.isRecordCall i = true)
    (hinputs : i.inputs = [hook, value, index])
    (hhook : c.declarer? hook = some l) (hl : l.op = .loadBuiltin Hook.builtinName)
    (hvalue : c.declarer? value = some k) (hk : k.op = j.op)
    (hindex : c.declarer? index = some l') (hl' : l'.op = .loadInteger (Int64.ofNat j.index))
    (hobservable : j.isObservable = true) (hbound : j.index < 2 ^ 63) :
    line? (originsOf c) i = .ok j.report? := by
  have hinput (n : Nat) {v : Variable} (h : i.inputs[n]? = some v) : input i n = .ok v := by
    unfold input
    rw [h]
  have h₀ : input i 0 = .ok hook := hinput 0 (by rw [hinputs]; rfl)
  have h₁ : input i 1 = .ok value := hinput 1 (by rw [hinputs]; rfl)
  have h₂ : input i 2 = .ok index := hinput 2 (by rw [hinputs]; rfl)
  have hnumber : (Int64.ofNat j.index).toInt = j.index := Int64.toInt_ofNat_of_lt hbound
  unfold line? Instruction.report?
  rw [hcall, h₀, h₁, h₂, if_pos hobservable]
  simp only [bind, Except.bind, lookup_originsOf honce, hhook, hvalue, hindex, Option.map_some, hl,
    hl', hk, hnumber, Bool.not_true, Bool.false_eq_true, if_false, ne_eq, not_true_eq_false,
    Option.bind_some]
  cases portrait? j.op <;> rfl

end Simulation

/-! ## What an instrumented copy reports -/

namespace Code

/-- The instruction whose value a call of the hook reports. -/
def reported? (c : Code) (i : Instruction) : Option Instruction :=
  if Hook.isRecordCall i then c.declarer? (i.input 1) else none

/-- The lines that an instruction of the source accounts for: what it reports itself if it is a call
of the hook, and what is reported of its value. -/
def reports (c : Code) (i : Instruction) : List String :=
  ((c.reported? i).bind Instruction.report?).toList ++ i.report?.toList

end Code

namespace Program

open Builder Code Constructing

variable {q : Code} {hook : Variable} {written : List String} {b b' : Builder} {i : Instruction}
  {op : Operation} {inputs produced : List Variable}

/-- The builder holds copies of instructions of the source beside reports, and has written some
lines. -/
structure Reporting (q : Code) (hook : Variable) (written : List String) (b : Builder) : Prop
    extends Builder.Traced b where
  hook : ∃ l, b.code.declarer? hook = some l ∧ l.op = .loadBuiltin Hook.builtinName
  adopted : ∀ v w, b.adoption.lookup v = some w → ∃ i j, q.declarer? v = some i ∧
    b.code.declarer? w = some j ∧ j.op = i.op
  lines : Simulation.lines [] b.code = .ok written

/-- What an added instruction writes comes last. -/
theorem Reporting.emit (h : Reporting q hook written b) {line : Option String}
    (he : b.emit op inputs = .ok (produced, b'))
    (hline : ∀ j : Instruction, j.op = op → j.inputs = inputs → DeclaresOnce (b.code ++ [j]) →
      Simulation.line? (Simulation.originsOf (b.code ++ [j])) j = .ok line) :
    Reporting q hook (written ++ line.toList) b' := by
  have htraced : b'.Traced := h.toTraced.emit he
  obtain ⟨j, hop, hinputs, -, hcode, -⟩ := h.toTraced.emitted he
  obtain ⟨-, -, -, -, -, hadoption⟩ := Builder.emitted he
  have honce : DeclaresOnce (b.code ++ [j]) := by
    rw [← hcode]
    exact htraced.once
  obtain ⟨l, hl, hload⟩ := h.hook
  refine ⟨htraced, ⟨l, ?_, hload⟩, ?_, ?_⟩
  · rw [hcode]
    exact declarer?_append hl
  · rw [show b'.adoption = b.adoption from hadoption, hcode]
    intro v w hvw
    obtain ⟨i, k, hi, hk, hik⟩ := h.adopted v w hvw
    exact ⟨i, k, hi, declarer?_append hk, hik⟩
  · rw [hcode]
    exact Simulation.lines_concat h.lines (hline j hop hinputs honce)

theorem Reporting.adopt (h : Reporting q hook written b) (hq : DeclaresOnce q) (hi : i ∈ q)
    (hreports : Hook.isRecordCall i = true → ∃ j, i.Reports q j)
    (hbound : ∀ j ∈ q, j.index < 2 ^ 63) (ha : b.adopt i = .ok (produced, b')) :
    Reporting q hook (written ++ ((q.reported? i).bind Instruction.report?).toList) b' ∧
      ∀ v ∈ i.allOutputs, ∃ w j, b'.adoption.lookup v = some w ∧
        b'.code.declarer? w = some j ∧ j.op = i.op := by
  obtain ⟨inputs, c, hinputs, he, hr⟩ := exists_emit_of_adoptAs ha
  have hcopied := forall₂_of_mapM_adopted hinputs
  have hemit : Reporting q hook (written ++ ((q.reported? i).bind Instruction.report?).toList) c := by
    refine h.emit he ?_
    intro j hop hj honce
    have hcall : Hook.isRecordCall j = Hook.isRecordCall i := by
      unfold Hook.isRecordCall
      rw [hop]
    cases hrecord : Hook.isRecordCall i with
    | false =>
      rw [Simulation.line?_of_silent (hcall.trans hrecord), reported?, hrecord]
      rfl
    | true =>
      obtain ⟨k, hookVar, value, index, l, l', hargs, ⟨hhook, hl⟩, ⟨hvalue, hk⟩, hindex, hl'⟩ :=
        hreports hrecord
      have hreported : q.reported? i = some k := by
        rw [reported?, hrecord, if_pos rfl, Instruction.input, hargs]
        exact hvalue
      -- The inputs of the copy come from instructions with the operations of the source.
      rw [hargs] at hcopied
      obtain _ | ⟨hhook', _ | ⟨hvalue', _ | ⟨hindex', hnil⟩⟩⟩ := hcopied
      cases hnil
      obtain ⟨l₁, c₁, hq₁, hc₁, hop₁⟩ := h.adopted _ _ hhook'
      obtain ⟨l₂, c₂, hq₂, hc₂, hop₂⟩ := h.adopted _ _ hvalue'
      obtain ⟨l₃, c₃, hq₃, hc₃, hop₃⟩ := h.adopted _ _ hindex'
      rw [hhook] at hq₁
      rw [hvalue] at hq₂
      rw [hindex] at hq₃
      cases hq₁
      cases hq₂
      cases hq₃
      rw [hreported]
      exact Simulation.line?_of_reports honce (hcall.trans hrecord) hj (declarer?_append hc₁)
        (hop₁.trans hl) (declarer?_append hc₂) hop₂ (declarer?_append hc₃) (hop₃.trans hl') hk
        (hbound k (of_declarer? hvalue).1)
  obtain ⟨j, hop, -, -, hcode, hdeclarer⟩ := h.toTraced.emitted he
  obtain ⟨-, hproduced, -⟩ := Builder.emitted he
  have hadoption : b'.adoption = (i.allOutputs.zip produced).reverse ++ c.adoption := by
    rw [show b' = _ from hr]
  have hcode' : b'.code = c.code := by rw [show b' = _ from hr]
  have hlength : i.allOutputs.length = produced.length := by
    rw [show produced = _ from hproduced, length_variablesFrom, declares_eq]
  have hown (v : Variable) (hv : v ∈ i.allOutputs) : ∃ w j, b'.adoption.lookup v = some w ∧
      b'.code.declarer? w = some j ∧ j.op = i.op := by
    rw [hadoption]
    obtain ⟨w, hw, hlookup⟩ := exists_lookup_zip hlength hv
    refine ⟨w, j, hlookup, ?_, hop⟩
    rw [hcode']
    exact hdeclarer w hw
  refine ⟨⟨?_, ?_, ?_, ?_⟩, hown⟩
  · exact hemit.toTraced.congr hcode' (by rw [show b' = _ from hr]) (by rw [show b' = _ from hr])
  · rw [hcode']
    exact hemit.hook
  · intro v w hvw
    by_cases hv : v ∈ i.allOutputs
    · obtain ⟨u, k, hu, hk, hik⟩ := hown v hv
      rw [hvw] at hu
      cases hu
      exact ⟨i, k, declarer?_of_mem hq hi hv, hk, hik⟩
    · rw [hadoption, lookup_zip_of_not_mem hv] at hvw
      rw [hcode']
      exact hemit.adopted v w hvw
  · rw [hcode']
    exact hemit.lines

/-- The side channel holds the descriptions of the values, and nothing else. -/
structure Describes (p : Program) (x : Execution) : Prop where
  success : x.outcome.isSuccess = true
  sound : ∀ r ∈ Record.ofStream x.fuzzout,
    p.code[r.index]?.bind Instruction.described? = some r
  complete : ∀ n r, p.code[n]?.bind Instruction.described? = some r →
    r.index = n ∧ r ∈ Record.ofStream x.fuzzout

section

variable {p : Program} {x : Execution} (h : p.Describes x)
include h

end

/-- Programs whose observation is exact: those that do not call the hook, and those that are
synthesized from such a program with records that list no method with the name of the hook's. -/
inductive Reportable : Program → Prop
  | plain {p : Program} : p.code.IsSound → (∀ i ∈ p.code, Hook.isRecordCall i = false) → Reportable p
  | synthesized {s : MutationSettings} {e : Environment} {id : Uuid} {f : Frequencies}
      {o : Observed} {random : Random} {r : Program × Frequencies} :
      (∀ i ∈ o.program.code, Hook.isRecordCall i = false) →
      (∀ n r, o.record? n = some r → ∀ m ∈ r.methods, m.1 ≠ Hook.recordMethod) →
      ((FollowUp.synthesize s e id f o).run.run random).1 = .ok r → Reportable r.1

theorem Reportable.guarded {p : Program} (h : p.Reportable) : p.code.IsSound ∧ p.code.Guarded := by
  cases h with
  | plain hsound hplain =>
    refine ⟨hsound, ?_⟩
    intro i hi hcall
    rw [hplain i hi] at hcall
    cases hcall
  | synthesized hplain hnames h => exact (FollowUp.returns_guarded _ _ _ _ hplain hnames).result h

end Program

end ScriptFuzz
