import Mathlib.Control.Monad.Basic
import ScriptFuzz.Program.Json
import ScriptFuzz.Program.Wire
import ScriptFuzz.Proofs.Code.Nesting

/-!
# What loading a program can end in

A text or a byte string is refused, or it gives a program with well-formed code. There are two
exceptions: an operation whose arity is no count, and code that declares a variable for every number
there is. `Program.load_ends` says that loading ends in a fault only where the data hold one of them.
-/

namespace ScriptFuzz

set_option autoImplicit false

section Lists

variable {ε α β : Type} {e : ε}

theorem bind_eq_error {x : Except ε α} {g : α → Except ε β} (h : x >>= g = .error e) :
    x = .error e ∨ ∃ a, x = .ok a ∧ g a = .error e := by
  cases x with
  | error e' =>
    cases h
    exact .inl rfl
  | ok a => exact .inr ⟨a, rfl, h⟩

theorem bind_eq_ok {x : Except ε α} {g : α → Except ε β} {b : β} (h : x >>= g = .ok b) :
    ∃ a, x = .ok a ∧ g a = .ok b := by
  cases x with
  | error e' => cases h
  | ok a => exact ⟨a, rfl, h⟩

/-- An error that no flaw is reported as comes from what follows. -/
theorem error_of_mapError_bind {ε' : Type} {x : Except ε' α} {report : ε' → ε}
    (hreport : ∀ e', report e' ≠ e) {g : α → Except ε β} (h : x.mapError report >>= g = .error e) :
    ∃ a, x = .ok a ∧ g a = .error e := by
  cases x with
  | error e' => exact absurd (Except.error.inj h) (hreport e')
  | ok a => exact ⟨a, rfl, h⟩

theorem exists_of_foldlM_eq_error {step : β → α → Except ε β} {xs : List α} {b : β}
    (h : xs.foldlM step b = .error e) : ∃ x ∈ xs, ∃ b', step b' x = .error e := by
  induction xs generalizing b with
  | nil => cases h
  | cons x xs ih =>
    rw [List.foldlM_cons] at h
    cases hs : step b x with
    | error e' =>
      rw [hs] at h
      cases h
      exact ⟨x, List.mem_cons_self, b, hs⟩
    | ok b' =>
      rw [hs] at h
      obtain ⟨y, hy, hstep⟩ := ih h
      exact ⟨y, List.mem_cons_of_mem _ hy, hstep⟩

theorem exists_of_mapM_eq_error {f : α → Except ε β} {xs : List α} (h : xs.mapM f = .error e) :
    ∃ x ∈ xs, f x = .error e := by
  induction xs with
  | nil => cases h
  | cons x xs ih =>
    rw [List.mapM_cons] at h
    cases hx : f x with
    | error e' =>
      rw [hx] at h
      cases h
      exact ⟨x, List.mem_cons_self, hx⟩
    | ok y =>
      rw [hx] at h
      cases hxs : xs.mapM f with
      | error e' =>
        simp only [bind, Except.bind, hxs] at h
        cases h
        obtain ⟨z, hz, hf⟩ := ih hxs
        exact ⟨z, List.mem_cons_of_mem _ hz, hf⟩
      | ok ys =>
        simp only [bind, Except.bind, hxs] at h
        cases h

end Lists

/-! ## Code that takes all numbers -/

/-- From number `n` on, the variables take every number that there is. -/
def Variable.TakeAll (n : Nat) (vs : List Variable) : Prop :=
  (vs.take (limit - n)).map Variable.number = List.range' n (limit - n)

/-- Variables that are numbered on their own take none of the numbers behind them. -/
theorem Variable.TakeAll.append {n : Nat} {vs ws : List Variable}
    (hnum : vs.map Variable.number = List.range' n vs.length) (hle : vs = [] ∨ n + vs.length ≤ limit)
    (hall : TakeAll (n + vs.length) ws) : TakeAll n (vs ++ ws) := by
  obtain rfl | hle := hle
  · exact hall
  · have hleft : limit - n = vs.length + (limit - (n + vs.length)) := by omega
    unfold TakeAll
    rw [hleft, List.take_length_add_append, List.map_append, hnum, hall, List.range'_append_1]

theorem Variable.TakeAll.append_right {n : Nat} {vs : List Variable} (h : TakeAll n vs)
    (ws : List Variable) : TakeAll n (vs ++ ws) := by
  have hlen := congrArg List.length h
  simp only [List.length_map, List.length_take, List.length_range'] at hlen
  unfold TakeAll
  rw [List.take_append_of_le_length (by omega)]
  exact h

namespace Code.Progress

theorem declare_numbers {p q : Progress} {position : Nat} {vs : List Variable}
    (h : p.declare position vs = .ok q) :
    vs.map Variable.number = List.range' p.next vs.length ∧
      (vs = [] ∨ p.next + vs.length ≤ Variable.limit) ∧ q.next = p.next + vs.length := by
  induction vs generalizing p with
  | nil =>
    cases h
    exact ⟨rfl, .inl rfl, rfl⟩
  | cons v vs ih =>
    unfold declare at h
    split at h
    · cases h
    rename_i hv
    split at h
    · cases h
    rename_i hlimit
    obtain ⟨hnum, hle, hnext⟩ := ih h
    have hlength : p.next + 1 + vs.length = p.next + (v :: vs).length := by
      rw [List.length_cons]
      omega
    refine ⟨?_, .inr ?_, hnext.trans hlength⟩
    · rw [List.map_cons, List.length_cons, List.range'_succ, hnum, Decidable.not_not.mp hv]
    · rw [← hlength]
      obtain rfl | hle := hle
      · exact Nat.le_of_lt (Nat.lt_of_not_le hlimit)
      · exact hle

/-- Variables are declared with a fault only if they take all numbers that are left. -/
theorem declare_eq_fault {p : Progress} {position : Nat} {vs : List Variable} {f : Fault}
    (h : p.declare position vs = .error (.fault f)) :
    f = .exhausted ∧ Variable.TakeAll p.next vs := by
  induction vs generalizing p with
  | nil => cases h
  | cons v vs ih =>
    unfold declare at h
    split at h
    · cases h
    rename_i hv
    have hnum : [v].map Variable.number = List.range' p.next [v].length := by
      rw [List.map_cons, Decidable.not_not.mp hv]
      rfl
    split at h
    · rename_i hlimit
      cases h
      refine ⟨rfl, ?_⟩
      unfold Variable.TakeAll
      obtain hleft | hleft : Variable.limit - p.next = 0 ∨ Variable.limit - p.next = 1 := by omega
      · rw [hleft]
        rfl
      · rw [hleft]
        exact hnum
    · rename_i hlimit
      obtain ⟨hf, hall⟩ := ih h
      exact ⟨hf, Variable.TakeAll.append hnum (.inr (Nat.le_of_lt (Nat.lt_of_not_le hlimit))) hall⟩

/-- An instruction is read with a fault only if its variables take all numbers that are left. -/
theorem step_eq_fault {p : Progress} {position : Nat} {i : Instruction} {f : Fault}
    (h : p.step position i = .error (.fault f)) :
    f = .exhausted ∧ Variable.TakeAll p.next i.allOutputs := by
  unfold step at h
  cases hflaw : p.flaw? position i with
  | some flaw =>
    rw [hflaw] at h
    cases h
  | none =>
    rw [hflaw] at h
    have hreport (e : Flaw) : CodeError.flawed position i e ≠ .fault f := nofun
    obtain ⟨p₁, hclose, h⟩ := error_of_mapError_bind hreport h
    obtain ⟨p₂, hcase, h⟩ := error_of_mapError_bind hreport h
    have hnext : p₂.next = p.next := by
      rw [(countCase_eq_ok_iff.mp hcase).2, (close_eq_ok_iff.mp hclose).2]
    rw [← i.outputs_append_innerOutputs, ← hnext]
    obtain h | ⟨p₃, hdecl, h⟩ := bind_eq_error h
    · obtain ⟨hf, hall⟩ := declare_eq_fault h
      exact ⟨hf, hall.append_right _⟩
    split at h
    · obtain ⟨hnum, hle, hnext'⟩ := declare_numbers hdecl
      obtain ⟨hf, hall⟩ := declare_eq_fault h
      refine ⟨hf, Variable.TakeAll.append hnum hle ?_⟩
      rw [← hnext']
      exact hall
    · split at h <;> cases h

theorem run_eq_fault {p : Progress} (hp : p.Balanced) {position : Nat} {c : Code} {f : Fault}
    (h : p.run position c = .error (.fault f)) :
    f = .exhausted ∧ Variable.TakeAll p.next c.declared := by
  induction c generalizing p position with
  | nil => cases h
  | cons i is ih =>
    rw [declared_cons]
    obtain h | ⟨q, hstep, h⟩ := bind_eq_error h
    · obtain ⟨hf, hall⟩ := step_eq_fault h
      exact ⟨hf, hall.append_right _⟩
    · obtain ⟨ha, rfl⟩ := (step_eq_ok_iff hp).mp hstep
      obtain ⟨hf, hall⟩ := ih (hp.after ha) h
      refine ⟨hf, Variable.TakeAll.append ha.numbered ?_ hall⟩
      by_cases hnone : i.allOutputs = []
      · exact .inl hnone
      · exact .inr (Nat.le_of_lt (ha.bounded hnone))

end Code.Progress

/-- The check has a fault only for code that declares a variable for every number. -/
theorem Code.check_eq_fault {c : Code} {f : Fault} (h : c.check = .error (.fault f)) :
    f = .exhausted ∧ Variable.TakeAll 0 c.declared := by
  obtain h | ⟨p, -, h⟩ := bind_eq_error h
  · exact Progress.run_eq_fault Progress.balanced_start h
  · split at h <;> cases h

theorem Program.check_of_validated {p q : Program} (h : p.validated = .ok q) :
    q.code.check = .ok () := by
  unfold validated at h
  cases hc : p.code.check with
  | error e => rw [hc] at h; cases h
  | ok u => rw [hc] at h; cases h; exact hc

theorem Program.validated_eq_fault {p : Program} {f : Fault}
    (h : p.validated = .error (.fault f)) : f = .exhausted ∧ Variable.TakeAll 0 p.code.declared := by
  unfold validated at h
  cases hc : p.code.check with
  | ok u => rw [hc] at h; cases h
  | error e =>
    rw [hc] at h
    cases e with
    | fault g =>
      obtain ⟨rfl, hall⟩ := Code.check_eq_fault hc
      cases h
      exact ⟨rfl, hall⟩
    | _ => cases h

/-- Parts do not load with a fault unless the arity of their operation is no count. -/
theorem Instruction.load_eq_fault {op : Operation} {inouts : List Variable} {index : Nat}
    {f : Fault} (h : Instruction.load op inouts index = .error (.fault f)) :
    f = .uncountable ∧ op.isCountable = false := by
  unfold load ofParts at h
  split at h
  · rename_i hc
    cases h
    exact ⟨rfl, by simpa using hc⟩
  · split at h <;> cases h

/-! ## Texts -/

/-- A value holds an instruction in its code whose operation has no countable arity. -/
def Json.HoldsUncountable (j : Json) : Prop :=
  ∃ code items item op inouts index,
    ("code", code) ∈ j.entries ["id", "parent", "code", "comments", "contributors"] ∧
    ("instructions", Json.array items) ∈ code.entries ["instructions"] ∧ item ∈ items ∧
    Instruction.partsOfJson? item = some (op, inouts, index) ∧ op.isCountable = false

theorem LoadError.require_ne_fault {α : Type} {a : Option α} {f : Fault} :
    LoadError.require a ≠ .error (.fault f) := by
  cases a <;> exact nofun

/-- A required part that is missing is no fault, so a fault comes from what follows. -/
theorem LoadError.fault_of_require_bind {α β : Type} {a : Option α} {g : α → Except LoadError β}
    {f : Fault} (h : require a >>= g = .error (.fault f)) : ∃ x, g x = .error (.fault f) := by
  cases a with
  | none => cases h
  | some x => exact ⟨x, h⟩

theorem Instruction.ofJson_eq_fault {j : Json} {f : Fault}
    (h : Instruction.ofJson j = .error (.fault f)) : f = .uncountable ∧
      ∃ op inouts index, partsOfJson? j = some (op, inouts, index) ∧ op.isCountable = false := by
  unfold ofJson at h
  split at h
  · rename_i op inouts index hparts
    obtain ⟨rfl, hop⟩ := load_eq_fault h
    exact ⟨rfl, op, inouts, index, hparts, hop⟩
  · cases h

theorem Code.instructionsOfJson_eq_fault {j : Json} {f : Fault}
    (h : Code.instructionsOfJson j = .error (.fault f)) : ∃ items item, j = .array items ∧
      item ∈ items ∧ Instruction.ofJson item = .error (.fault f) := by
  cases j with
  | array items =>
    obtain ⟨item, hitem, hload⟩ := exists_of_mapM_eq_error h
    exact ⟨items, item, rfl, hitem, hload⟩
  | _ => cases h

theorem Code.ofJson_eq_fault {j : Json} {f : Fault} (h : Code.ofJson j = .error (.fault f)) :
    f = .uncountable ∧ ∃ items item op inouts index,
      ("instructions", Json.array items) ∈ j.entries ["instructions"] ∧ item ∈ items ∧
      Instruction.partsOfJson? item = some (op, inouts, index) ∧ op.isCountable = false := by
  obtain hfold | ⟨_, -, hrequire⟩ := bind_eq_error h
  · obtain ⟨⟨name, value⟩, hmem, code, hstep⟩ := exists_of_foldlM_eq_error hfold
    simp only at hstep
    split at hstep
    · rename_i hname
      subst hname
      have hload : instructionsOfJson value = .error (.fault f) := by
        cases hv : instructionsOfJson value with
        | error e =>
          rw [hv] at hstep
          cases hstep
          rfl
        | ok _ =>
          rw [hv] at hstep
          cases hstep
      obtain ⟨items, item, rfl, hitem, hload⟩ := instructionsOfJson_eq_fault hload
      obtain ⟨rfl, op, inouts, index, hparts, hop⟩ := Instruction.ofJson_eq_fault hload
      exact ⟨rfl, items, item, op, inouts, index, hmem, hitem, hparts, hop⟩
    · split at hstep <;> cases hstep
  · exact absurd hrequire LoadError.require_ne_fault

theorem Program.Draft.read_eq_fault {d : Draft} {field : String × Json} {f : Fault}
    (h : d.read field = .error (.fault f)) :
    field.1 = "code" ∧ Code.ofJson field.2 = .error (.fault f) := by
  unfold read at h
  split at h
  · obtain ⟨_, h⟩ := LoadError.fault_of_require_bind h
    cases h
  · cases h
  · obtain ⟨_, h⟩ := LoadError.fault_of_require_bind h
    cases h
  · obtain h | ⟨_, -, h⟩ := bind_eq_error h
    · exact ⟨rfl, h⟩
    · cases h
  · obtain ⟨_, h⟩ := LoadError.fault_of_require_bind h
    cases h
  · obtain ⟨_, h⟩ := LoadError.fault_of_require_bind h
    cases h
  · split at h <;> cases h

theorem Program.ofJsonValue_eq_fault {j : Json} {f : Fault}
    (h : Program.ofJsonValue j = .error (.fault f)) : f = .uncountable ∧ j.HoldsUncountable := by
  obtain hfold | ⟨d, -, h⟩ := bind_eq_error h
  · obtain ⟨⟨name, code⟩, hmem, d, hread⟩ := exists_of_foldlM_eq_error hfold
    obtain ⟨rfl, hcode⟩ := Draft.read_eq_fault hread
    obtain ⟨rfl, items, item, op, inouts, index, hitems, hitem, hparts, hop⟩ :=
      Code.ofJson_eq_fault hcode
    exact ⟨rfl, code, items, item, op, inouts, index, hmem, hitems, hitem, hparts, hop⟩
  · obtain ⟨_, h⟩ := LoadError.fault_of_require_bind h
    obtain ⟨_, h⟩ := LoadError.fault_of_require_bind h
    obtain ⟨_, h⟩ := LoadError.fault_of_require_bind h
    obtain ⟨_, h⟩ := LoadError.fault_of_require_bind h
    cases h

/-- What loading can end in: a program with well-formed code, a refusal with its reason, or a fault.
The data are then known to hold an operation whose arity is no count, or a program that declares a
variable for every number. -/
def Program.LoadEnds (result : Except LoadError Program) (uncountable : Prop)
    (held : Program → Prop) : Prop :=
  (∃ p, result = .ok p ∧ p.code.check = .ok ()) ∨
    (∃ e failure, result = .error e ∧ e.failure = .ok failure) ∨
    (result = .error (.fault .uncountable) ∧ uncountable) ∨
    result = .error (.fault .exhausted) ∧ ∃ p, held p ∧ Variable.TakeAll 0 p.code.declared

/-- Every refusal that is no fault has its reason. -/
theorem LoadError.failure_or_fault (e : LoadError) :
    (∃ failure, e.failure = .ok failure) ∨ ∃ f, e = .fault f := by
  cases e with
  | malformed => exact .inl ⟨_, rfl⟩
  | invalid id reason => exact .inl ⟨_, rfl⟩
  | fault f => exact .inr ⟨f, rfl⟩

section Ends

variable {uncountable : Prop} {held : Program → Prop}

theorem Program.loadEnds_of_error {e : LoadError}
    (h : ∀ f, e = .fault f → f = .uncountable ∧ uncountable) :
    LoadEnds (.error e) uncountable held := by
  obtain ⟨failure, hfailure⟩ | ⟨f, rfl⟩ := e.failure_or_fault
  · exact .inr (.inl ⟨e, failure, rfl, hfailure⟩)
  · obtain ⟨rfl, hu⟩ := h f rfl
    exact .inr (.inr (.inl ⟨rfl, hu⟩))

theorem Program.loadEnds_validated {p : Program} (h : held p) :
    LoadEnds p.validated uncountable held := by
  cases hv : p.validated with
  | ok q => exact .inl ⟨q, rfl, check_of_validated hv⟩
  | error e =>
    obtain ⟨failure, hfailure⟩ | ⟨f, rfl⟩ := e.failure_or_fault
    · exact .inr (.inl ⟨e, failure, rfl, hfailure⟩)
    · obtain ⟨rfl, hall⟩ := validated_eq_fault hv
      exact .inr (.inr (.inr ⟨rfl, p, h, hall⟩))

theorem Program.LoadEnds.check {p : Program} (h : LoadEnds (.ok p) uncountable held) :
    p.code.check = .ok () := by
  obtain ⟨q, hq, hcheck⟩ | ⟨_, _, he, -⟩ | ⟨he, -⟩ | ⟨he, -⟩ := h
  · exact (Except.ok.inj hq) ▸ hcheck
  all_goals cases he

end Ends

theorem Program.ofJson_ends (source : String) :
    LoadEnds (Program.ofJson source) (Json.readFirst source.toList).1.HoldsUncountable
      fun p => Program.ofJsonValue (Json.readFirst source.toList).1 = .ok p := by
  unfold ofJson
  obtain ⟨j, complete⟩ := Json.readFirst source.toList
  dsimp only
  cases hj : ofJsonValue j with
  | error e =>
    refine loadEnds_of_error fun f hf => ?_
    subst hf
    exact ofJsonValue_eq_fault hj
  | ok p =>
    cases complete with
    | true => exact loadEnds_validated rfl
    | false => exact loadEnds_of_error fun _ h => nomatch h

/-! ## Byte strings -/

/-- An operation starts here whose arity is no count. -/
def Wire.StartsUncountable (bytes : List UInt8) : Prop :=
  ∃ op rest, Operation.reader.run bytes = .ok (op, rest) ∧ op.isCountable = false

namespace Wire.Reader

variable {α β : Type}

/-- The reader takes bytes from the front, and it is faulty only where it comes to an operation
whose arity is no count. -/
structure Takes (r : Reader α) : Prop where
  rest : ∀ {bytes a rest}, r.run bytes = .ok (a, rest) → rest <:+ bytes
  fault : ∀ {bytes f}, r.run bytes = .error (.fault f) →
    f = .uncountable ∧ ∃ tail, tail <:+ bytes ∧ StartsUncountable tail

theorem takes_pure (a : α) : Takes (pure a : Reader α) where
  rest h := by
    cases h
    exact List.suffix_rfl
  fault h := by cases h

theorem takes_refuse : Takes (refuse : Reader α) := ⟨nofun, nofun⟩

theorem Takes.bind {r : Reader α} {g : α → Reader β} (hr : Takes r) (hg : ∀ a, Takes (g a)) :
    Takes (r >>= g) where
  rest {bytes b rest} h := by
    obtain ⟨⟨a, rest'⟩, hrun, h⟩ := bind_eq_ok h
    exact ((hg a).rest h).trans (hr.rest hrun)
  fault {bytes f} h := by
    obtain h | ⟨⟨a, rest'⟩, hrun, h⟩ := bind_eq_error h
    · exact hr.fault h
    · obtain ⟨hf, tail, htail, hstart⟩ := (hg a).fault h
      exact ⟨hf, tail, htail.trans (hr.rest hrun), hstart⟩

theorem Takes.map {r : Reader α} (hr : Takes r) (g : α → β) : Takes (g <$> r) := by
  rw [map_eq_pure_bind]
  exact hr.bind fun a => takes_pure (g a)

theorem takes_bytes (n : Nat) : Takes (bytes n) where
  rest {bs a rest} h := by
    change (if (bs.take n).length = n then _ else _) = _ at h
    split at h
    · cases h
      exact List.drop_suffix n bs
    · cases h
  fault {bs f} h := by
    change (if (bs.take n).length = n then _ else _) = _ at h
    split at h <;> cases h

theorem takes_word (n : Nat) : Takes (word n) := (takes_bytes n).map _

theorem takes_count : Takes count := takes_word 8

theorem takes_variant : Takes variant := takes_word 4

theorem takes_bool : Takes bool :=
  (takes_word 1).bind fun n => by
    split
    · exact takes_pure false
    · exact takes_pure true
    · exact takes_refuse

theorem takes_text : Takes text :=
  takes_count.bind fun n => (takes_bytes n).bind fun bs => by
    split
    · exact takes_pure _
    · exact takes_refuse

theorem Takes.option {r : Reader α} (hr : Takes r) : Takes (option r) :=
  (takes_word 1).bind fun n => by
    split
    · exact takes_pure none
    · exact hr.map some
    · exact takes_refuse

theorem Takes.many {r : Reader α} (hr : Takes r) (n : Nat) : Takes (many r n) := by
  induction n with
  | zero => exact takes_pure []
  | succ n ih => exact hr.bind fun a => ih.bind fun as => takes_pure (a :: as)

theorem Takes.list {r : Reader α} (hr : Takes r) : Takes (list r) :=
  takes_count.bind fun n => hr.many n

theorem takes_member (all : List α) : Takes (member all) :=
  takes_variant.bind fun n => by
    split
    · exact takes_pure _
    · exact takes_refuse

end Wire.Reader

open Wire.Reader

theorem Operation.takes_ofNumber (n : Nat) : Takes (Operation.ofNumber n) := by
  have hint : Takes int64 := (takes_word 8).bind fun _ => takes_pure _
  unfold ofNumber
  split <;>
    first
    | exact takes_pure _
    | exact takes_refuse
    | exact hint.map _
    | exact (takes_word 8).bind fun _ => takes_pure _
    | exact takes_text.map _
    | exact takes_bool.map _
    | exact takes_count.map _
    | exact (takes_member _).map _
    | exact takes_text.bind fun _ => takes_count.bind fun _ => takes_pure _

theorem Operation.takes_reader : Takes Operation.reader :=
  takes_variant.bind takes_ofNumber

theorem Variable.takes_reader : Takes Variable.reader := (takes_word 4).map _

theorem Instruction.takes_reader : Takes Instruction.reader where
  rest {bytes i rest} h := by
    obtain ⟨⟨op, b₁⟩, hop, h⟩ := bind_eq_ok h
    obtain ⟨⟨inouts, b₂⟩, hinouts, h⟩ := bind_eq_ok h
    obtain ⟨⟨index, b₃⟩, hindex, h⟩ := bind_eq_ok h
    have hsuffix := (takes_count.rest hindex).trans
      ((Variable.takes_reader.list.rest hinouts).trans (Operation.takes_reader.rest hop))
    cases hload : Instruction.load op inouts index with
    | ok i =>
      simp only [hload] at h
      cases h
      exact hsuffix
    | error e =>
      simp only [hload] at h
      cases h
  fault {bytes f} h := by
    obtain h | ⟨⟨op, b₁⟩, hop, h⟩ := bind_eq_error h
    · exact Operation.takes_reader.fault h
    obtain h | ⟨⟨inouts, b₂⟩, hinouts, h⟩ := bind_eq_error h
    · obtain ⟨hf, tail, htail, hstart⟩ := Variable.takes_reader.list.fault h
      exact ⟨hf, tail, htail.trans (Operation.takes_reader.rest hop), hstart⟩
    obtain h | ⟨⟨index, b₃⟩, hindex, h⟩ := bind_eq_error h
    · obtain ⟨hf, tail, htail, hstart⟩ := takes_count.fault h
      exact ⟨hf, tail, htail.trans ((Variable.takes_reader.list.rest hinouts).trans
        (Operation.takes_reader.rest hop)), hstart⟩
    cases hload : Instruction.load op inouts index with
    | ok i =>
      simp only [hload] at h
      cases h
    | error e =>
      simp only [hload] at h
      cases h
      obtain ⟨hf, hcount⟩ := load_eq_fault hload
      exact ⟨hf, bytes, List.suffix_rfl, op, b₁, hop, hcount⟩

theorem Comments.takes_reader : Takes Comments.reader :=
  takes_text.option.bind fun _ => takes_text.option.bind fun _ =>
    Takes.bind (takes_count.bind fun _ => takes_text.bind fun _ => takes_pure _).list fun _ =>
      takes_pure _

theorem Uuid.takes_reader : Takes Uuid.reader :=
  takes_count.bind fun n => (takes_bytes n).bind fun bs => by
    split
    · exact takes_pure _
    · exact takes_refuse

theorem Program.takes_reader : Takes Program.reader :=
  Uuid.takes_reader.bind fun _ => Uuid.takes_reader.option.bind fun _ =>
    Instruction.takes_reader.list.bind fun _ => Comments.takes_reader.bind fun _ =>
      takes_text.list.bind fun _ => takes_pure _

theorem Program.ofBytes_ends (bytes : List UInt8) :
    LoadEnds (Program.ofBytes bytes) (∃ tail, tail <:+ bytes ∧ Wire.StartsUncountable tail)
      fun p => ∃ rest, Program.reader.run bytes = .ok (p, rest) := by
  unfold ofBytes
  cases hr : Program.reader.run bytes with
  | error e =>
    refine loadEnds_of_error fun f hf => ?_
    subst hf
    exact Program.takes_reader.fault hr
  | ok read => exact loadEnds_validated ⟨read.2, rfl⟩

/-- Every text and every byte string loads as a program with well-formed code or is refused with a
reason, unless it holds an operation whose arity is no count or a program that declares a variable
for every number; nothing else makes loading faulty. -/
theorem Program.load_ends (source : String) (bytes : List UInt8) :
    LoadEnds (Program.ofJson source) (Json.readFirst source.toList).1.HoldsUncountable
        (fun p => Program.ofJsonValue (Json.readFirst source.toList).1 = .ok p) ∧
      LoadEnds (Program.ofBytes bytes) (∃ tail, tail <:+ bytes ∧ Wire.StartsUncountable tail)
        fun p => ∃ rest, Program.reader.run bytes = .ok (p, rest) :=
  ⟨ofJson_ends source, ofBytes_ends bytes⟩

/-- A call with so many arguments that there is no count of its inputs. -/
def Program.hugeCallText : String :=
  "\x7b\"code\":\x7b\"instructions\":[\x7b\"op\":\x7b\"CallFunction\":" ++
    "\x7b\"num_arguments\":18446744073709551615\x7d\x7d,\"inouts\":[],\"index\":0\x7d]\x7d\x7d"

def Program.hugeCallBytes : List UInt8 :=
  (Uuid.fresh 0).toWire ++ [0] ++ Wire.count 1 ++
    (Operation.callFunction 18446744073709551615).toBytes ++ Wire.count 0 ++ Wire.count 0

/-- Data that hold the huge call are neither accepted nor refused. -/
theorem Program.load_hugeCall :
    Program.ofJson hugeCallText = .error (.fault .uncountable) ∧
      Program.ofBytes hugeCallBytes = .error (.fault .uncountable) :=
  ⟨by decide +kernel, rfl⟩

end ScriptFuzz
