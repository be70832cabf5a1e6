import ScriptFuzz.Program.Wire
import ScriptFuzz.Proofs.Program.Storage
import ScriptFuzz.Proofs.Uuid

/-!
# Programs read back from bytes

Each part of a program is restored by its reader: operations with their parameters, instructions,
comments and names, in the order in which they are written. Since the code is checked again when it
is read, the program is read back from its bytes if its code is well formed, whatever follows.
-/

namespace ScriptFuzz

set_option autoImplicit false

open Wire Wire.Reader

theorem restores_unaryOperator (op : UnaryOperator) :
    Restores (member UnaryOperator.all) op.toBytes op :=
  restores_member (by decide) (by cases op <;> decide)

theorem restores_binaryOperator (op : BinaryOperator) :
    Restores (member BinaryOperator.all) op.toBytes op :=
  restores_member (by decide) (by cases op <;> decide)

theorem restores_comparator (op : Comparator) :
    Restores (member Comparator.all) op.toBytes op :=
  restores_member (by decide) (by cases op <;> decide)

namespace Operation

theorem restores_int64 (v : Int64) : Restores int64 (Wire.word 8 v.toUInt64.toNat) v := by
  refine (restores_word (Nat.lt_of_lt_of_le v.toUInt64.toNat_lt (by decide))).bind_nil ?_
  rw [UInt64.ofNat_toNat, Int64.toInt64_toUInt64]
  exact restores_pure v

theorem number_le (op : Operation) : op.number ≤ 52 := by
  cases op <;> exact Nat.le_of_ble_eq_true rfl

variable {op : Operation}

/-- The parameters of an operation are restored by the reader for its number. -/
theorem restores_ofNumber (hcount : op.isCountable = true)
    (htexts : ∀ s ∈ op.texts, FitsText s) :
    Restores (ofNumber op.number) op.parameterBytes op := by
  have hlt : ∀ n ∈ op.counts, n < lengthLimit := fun n hn => lt_of_mem_counts hcount hn
  cases op <;> simp only [texts, counts, List.mem_singleton, forall_eq] at htexts hlt
  case loadInteger v | loadBigInt v | getElement v | setElement v =>
    exact (restores_int64 v).map _
  case loadFloat v =>
    refine (restores_word (Nat.lt_of_lt_of_le v.bits.toNat_lt (by decide))).bind_nil ?_
    rw [UInt64.ofNat_toNat]
    exact restores_pure (loadFloat v)
  case loadString | loadRegExp | loadBuiltin | getProperty | setProperty =>
    exact (restores_text htexts).map _
  case loadBoolean b | beginIf b | beginClassDefinition b => exact (restores_bool b).map _
  case createArray | beginPlainFunction | callFunction | construct =>
    exact (restores_count hlt).map _
  case callMethod | eval | beginClassMethod =>
    exact (restores_text htexts).bind ((restores_count hlt).bind_nil (restores_pure _))
  case unaryOperation o => exact (restores_unaryOperator o).map _
  case binaryOperation o | update o => exact (restores_binaryOperator o).map _
  case compare o | beginWhileLoop o => exact (restores_comparator o).map _
  all_goals exact restores_pure _

theorem restores_reader (hcount : op.isCountable = true)
    (htexts : ∀ s ∈ op.texts, FitsText s) : Restores reader op.toBytes op :=
  (restores_variant (Nat.lt_of_le_of_lt op.number_le (by decide))).bind
    (restores_ofNumber hcount htexts)

end Operation

theorem Variable.restores_reader {v : Variable} (h : v.number < Variable.limit) :
    Restores reader v.toBytes v :=
  (restores_word (Nat.lt_of_lt_of_le h (by decide))).map Variable.mk

theorem Instruction.restores_reader {i : Instruction} (hcount : i.op.isCountable = true)
    (htexts : ∀ s ∈ i.op.texts, FitsText s) (hvariables : ∀ v ∈ i.inouts, v.number < Variable.limit)
    (hindex : i.index < lengthLimit) : Restores reader i.toBytes i := by
  have hlength : i.inouts.length < lengthLimit := by
    rw [i.arity]
    exact of_decide_eq_true hcount
  unfold toBytes
  rw [List.append_assoc]
  refine (Operation.restores_reader hcount htexts).bind ?_
  refine (restores_list hlength fun v hv => Variable.restores_reader (hvariables v hv)).bind ?_
  refine (restores_count hindex).bind_nil ?_
  rw [load_eq_ok hcount]
  exact restores_pure i

theorem Uuid.restores_reader (u : Uuid) : Restores reader u.toWire u := by
  have hbytes := restores_bytes u.bytes
  rw [u.length_bytes] at hbytes
  refine (restores_count (by decide)).bind (hbytes.bind_nil ?_)
  rw [u.ofBytes?_bytes]
  exact restores_pure u

namespace Program

variable {p : Program}

theorem IsStorable.restores_comments (hp : p.IsStorable) :
    Restores Comments.reader p.comments.toBytes p.comments := by
  unfold Comments.toBytes
  rw [List.append_assoc]
  refine (restores_option fun s hs => restores_text (hp.header s hs)).bind ?_
  refine (restores_option fun s hs => restores_text (hp.footer s hs)).bind ?_
  refine (restores_list hp.comments fun c hc => ?_).bind_nil ?_
  · obtain ⟨hposition, htext⟩ := hp.comment c hc
    exact (restores_count hposition).bind ((restores_text htext).bind_nil (restores_pure c))
  · rw [Ordered.ofPairs_of_pairwise hp.positions]
    exact restores_pure p.comments

theorem restores_reader (hcheck : p.code.check = .ok ()) (hp : p.IsStorable) :
    Restores reader p.toBytes p := by
  unfold toBytes
  simp only [List.append_assoc]
  refine (Uuid.restores_reader p.id).bind ?_
  refine (restores_option fun u _ => Uuid.restores_reader u).bind ?_
  refine (restores_list hp.code fun i hi => Instruction.restores_reader (hp.countable i hi)
    (hp.texts i hi) (fun v hv => number_lt_of_check hcheck hi hv) (hp.index_lt hcheck hi)).bind ?_
  refine hp.restores_comments.bind ?_
  refine (restores_list hp.contributors fun s hs => restores_text (hp.contributor s hs)).bind_nil ?_
  rw [Ordered.ofList_of_pairwise hp.names]
  exact restores_pure p

/-- A checked program is read back from its bytes, every bit of its numbers included, whatever bytes
follow. -/
theorem ofBytes_toBytes_append (hcheck : p.code.check = .ok ()) (hp : p.IsStorable)
    (t : List UInt8) : ofBytes (p.toBytes ++ t) = .ok p := by
  unfold ofBytes
  rw [restores_reader hcheck hp t]
  exact validated_eq_ok hcheck

/-- A NaN with a payload and a text that is not ASCII, with annotations of every kind. -/
def annotatedPair : Program where
  id := .fresh 1
  parent := some (.fresh 0)
  code :=
    [{ op := .loadFloat ⟨0x7ff0000000000123⟩, inouts := [⟨0⟩], index := 0, arity := by decide },
      { op := .loadString "naïve \"π\"\n", inouts := [⟨1⟩], index := 1, arity := by decide }]
  comments := { header := some "pair", instructions := [(0, "no number"), (1, "a text")] }
  contributors := ["generator", "mutator"]

theorem ofBytes_toBytes_append_annotatedPair :
    annotatedPair.code.check = .ok () ∧ annotatedPair.IsStorable ∧
      ofBytes (annotatedPair.toBytes ++ [7, 0, 255]) = .ok annotatedPair := by
  have hcheck : annotatedPair.code.check = .ok () := rfl
  have hstorable : annotatedPair.IsStorable := {
    countable := by unfold Code.IsCountable; decide
    code := by decide
    texts := by decide
    header := by rintro _ ⟨⟩; decide
    footer := nofun
    comments := by decide
    comment := by decide
    positions := by decide
    contributors := by decide
    contributor := by decide
    names := by decide }
  exact ⟨hcheck, hstorable, ofBytes_toBytes_append hcheck hstorable [7, 0, 255]⟩

end Program

end ScriptFuzz
