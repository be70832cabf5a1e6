import ScriptFuzz.Proofs.Code.Nesting
import ScriptFuzz.Proofs.Corpus
import ScriptFuzz.Proofs.Ordered

/-!
# Programs without internal instructions

The code and the comments of a program are renumbered apart from each other. Both end up at the
positions that the kept instructions have among themselves (`Program.strips_stripInternal`), so a
comment stays with its instruction, and what was stripped once is not changed by stripping it again.
-/

namespace ScriptFuzz

set_option autoImplicit false

namespace Program

open Code

/-- The positions of the instructions that do not serve the fuzzer itself, ascending. -/
def keptPositions (p : Program) : List Nat :=
  (List.range p.code.length).filter fun n => p.code[n]?.any fun i => !i.isInternal

/-- `q` has the kept instructions of `p` with their comments, one after the other, and whatever else
there is in `p`. -/
structure Strips (p q : Program) : Prop where
  length : q.code.length = p.keptPositions.length
  instruction : ∀ n k, p.keptPositions[n]? = some k →
    ∃ i : Instruction, p.code[k]? = some i ∧ i.isInternal = false ∧ q.code[n]? = some (i.placed n)
  comment : ∀ n, q.comments.get? n = p.keptPositions[n]?.bind p.comments.get?
  ascending : q.comments.instructions.Pairwise fun x y => x.1 < y.1
  id : q.id = p.id
  parent : q.parent = p.parent
  header : q.comments.header = p.comments.header
  footer : q.comments.footer = p.comments.footer
  contributors : q.contributors = p.contributors

variable {p q : Program} {c : Comments} {keep : Instruction → Bool} {is : Code} {n : Nat}

/-! ## Moved comments -/

theorem le_of_mem_keptComments {x : Nat × String} (hx : x ∈ keptComments c keep n is) :
    n ≤ x.1 := by
  induction is generalizing n with
  | nil => cases hx
  | cons i is ih =>
    simp only [keptComments] at hx
    split at hx
    · split at hx
      · rcases List.mem_cons.mp hx with rfl | hx
        · exact Nat.le_refl _
        · exact Nat.le_of_succ_le (ih hx)
      · exact Nat.le_of_succ_le (ih hx)
    · exact ih hx

theorem pairwise_keptComments :
    (keptComments c keep n is).Pairwise fun x y => x.1 < y.1 := by
  induction is generalizing n with
  | nil => exact .nil
  | cons i is ih =>
    simp only [keptComments]
    split
    · split
      · exact List.pairwise_cons.mpr ⟨fun x hx => le_of_mem_keptComments hx, ih⟩
      · exact ih
    · exact ih

theorem lookup_keptComments (c : Comments) (keep : Instruction → Bool) (n : Nat) (is : Code)
    (k : Nat) : (keptComments c keep n is).lookup (n + k) =
      (is.filter keep)[k]?.bind fun i => c.get? i.index := by
  induction is generalizing n k with
  | nil => rfl
  | cons i is ih =>
    cases hi : keep i with
    | false =>
      rw [List.filter_cons_of_neg (by simp [hi])]
      simp only [keptComments, hi, Bool.false_eq_true, if_false]
      exact ih n k
    | true =>
      rw [List.filter_cons_of_pos hi]
      simp only [keptComments, hi, if_true]
      cases k with
      | zero =>
        rw [List.getElem?_cons_zero, Option.bind_some, Nat.add_zero]
        cases c.get? i.index with
        | some text => exact List.lookup_cons_self
        | none =>
          -- The later comments all have later positions.
          refine List.lookup_eq_none_iff.mpr fun x hx => ?_
          have := le_of_mem_keptComments hx
          simp only [bne_iff_ne]
          omega
      | succ k =>
        rw [List.getElem?_cons_succ, ← ih (n + 1) k, Nat.add_assoc, Nat.add_comm 1 k]
        cases c.get? i.index with
        | none => rfl
        | some text =>
          have hne : (n + (k + 1) == n) = false := by simp
          simp only [List.lookup_cons, hne]

/-! ## Kept instructions -/

theorem keptPositions_eq (h : p.code.check = .ok ()) :
    p.keptPositions = (p.code.filter fun i => !i.isInternal).map Instruction.index := by
  unfold keptPositions
  rw [List.range_eq_range', ← (dense_of_check h).indices, List.filter_map]
  congr 1
  refine List.filter_congr fun i hi => ?_
  rw [Function.comp_apply, getElem?_index h hi]
  rfl

theorem strips (h : p.code.check = .ok ()) : p.Strips p.stripInternal where
  length := by
    rw [keptPositions_eq h, List.length_map]
    exact length_renumber _
  instruction n k hk := by
    rw [keptPositions_eq h, List.getElem?_map, Option.map_eq_some_iff] at hk
    obtain ⟨i, hi, rfl⟩ := hk
    obtain ⟨hmem, hplain⟩ := List.mem_filter.mp (List.mem_of_getElem? hi)
    refine ⟨i, getElem?_index h hmem, by simpa using hplain, ?_⟩
    simp only [stripInternal, retain, renumber]
    rw [List.getElem?_mapIdx, hi]
    rfl
  comment n := by
    rw [keptPositions_eq h, List.getElem?_map]
    have hlookup := lookup_keptComments p.comments (fun i => !i.isInternal) 0 p.code n
    rw [Nat.zero_add] at hlookup
    refine hlookup.trans ?_
    cases (p.code.filter fun i => !i.isInternal)[n]? <;> rfl
  ascending := pairwise_keptComments
  id := rfl
  parent := rfl
  header := rfl
  footer := rfl
  contributors := rfl

/-- A program without internal instructions stays as it is, if no comment is beyond its code. -/
theorem stripInternal_eq_self (h : p.code.check = .ok ())
    (hplain : ∀ i ∈ p.code, i.isInternal = false)
    (hascending : p.comments.instructions.Pairwise fun x y => x.1 < y.1)
    (hwithin : ∀ n, p.code.length ≤ n → p.comments.get? n = none) : p.stripInternal = p := by
  have hfilter : (p.code.filter fun i => !i.isInternal) = p.code :=
    List.filter_eq_self.mpr fun i hi => by rw [hplain i hi]; rfl
  have hcode : p.code.retain (fun i => !i.isInternal) = p.code := by
    unfold retain renumber
    rw [hfilter]
    refine List.ext_getElem (by simp) fun n hn hn' => ?_
    rw [List.getElem_mapIdx]
    have hindex : p.code[n].index = n := index_eq h (List.getElem?_eq_getElem _)
    exact congrArg p.code[n].placed hindex.symm
  have hcomments : keptComments p.comments (fun i => !i.isInternal) 0 p.code =
      p.comments.instructions := by
    refine Ordered.eq_of_lookup_eq pairwise_keptComments hascending fun n => ?_
    have hlookup := lookup_keptComments p.comments (fun i => !i.isInternal) 0 p.code n
    rw [Nat.zero_add, hfilter] at hlookup
    rw [hlookup]
    cases hn : p.code[n]? with
    | none => exact (hwithin n (List.getElem?_eq_none_iff.mp hn)).symm
    | some i =>
      rw [Option.bind_some, index_eq h hn]
      rfl
  unfold stripInternal
  simp only [hcode, hcomments]

/-- What is left of a checked program is checked again: the instructions that do not serve the
fuzzer itself, each with its comment. -/
theorem strips_stripInternal (h : p.code.check = .ok ()) :
    p.stripInternal.code.check = .ok () ∧ p.Strips p.stripInternal ∧
      p.stripInternal.stripInternal = p.stripInternal := by
  have hcheck := check_stripInternal h
  refine ⟨hcheck, strips h, ?_⟩
  refine stripInternal_eq_self hcheck (fun i hi => isInternal_of_mem_stripInternal hi)
    (strips h).ascending fun n hn => ?_
  rw [(strips h).length] at hn
  rw [(strips h).comment, List.getElem?_eq_none hn]
  rfl

/-- Values with something printed between them, and comments on what is printed, on a value and on
what does not exist. -/
def chatty : Program where
  id := default
  code := .ofRows [
    (.loadBoolean true, [0]),
    (.print, [0]),
    (.loadInteger 7, [1]),
    (.print, [1]),
    (.dup, [1, 2])]
  comments := { header := some "header", instructions := [(1, "print"), (4, "copy"), (9, "none")] }
  contributors := ["generator"]

theorem strips_stripInternal_chatty :
    chatty.code.check = .ok () ∧ chatty.keptPositions = [0, 2, 4] ∧
      chatty.stripInternal.comments.instructions = [(2, "copy")] ∧
      chatty.stripInternal.code.check = .ok () ∧ chatty.Strips chatty.stripInternal ∧
      chatty.stripInternal.stripInternal = chatty.stripInternal := by
  have hcheck : chatty.code.check = .ok () := rfl
  exact ⟨hcheck, rfl, rfl, strips_stripInternal hcheck⟩

end Program

end ScriptFuzz
