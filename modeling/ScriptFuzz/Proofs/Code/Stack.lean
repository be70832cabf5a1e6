import ScriptFuzz.Proofs.Code.Reading

/-!
# Open blocks

What the check keeps beside the open blocks follows from them. The contexts are those that the
blocks open one inside the other, so that the innermost block alone tells whether the position is in
a body, directly in a switch, or directly in a class (`Settled.classified`). The flags stand for the
open switches, and each tells whether the default case of its switch was read (`Flagged`).
-/

namespace ScriptFuzz

set_option autoImplicit false

open Code

/-- What has to be active around the blocks to which a start of a block belongs. -/
def Operation.surroundings : Operation → Context
  | beginSwitchCase | beginSwitchDefaultCase => .ofList [.switchBlock]
  | beginClassMethod _ _ => .ofList [.classDefinition]
  | _ => .top

def Operation.isClassHead : Operation → Bool
  | beginClassDefinition _ => true
  | _ => false

/-- Blocks of one group have the same surroundings. -/
theorem Operation.Closes.surroundings_eq {op opener : Operation} (h : op.Closes opener)
    (hs : op.shape.has .blockStart = true) : op.surroundings = opener.surroundings := by
  cases h <;> first | rfl | cases hs

namespace Code

/-- The contexts inside of open blocks, the innermost first. -/
def contextsIn : List Instruction → List Context
  | [] => [.top]
  | i :: is => i.shape.mode.body (contextsIn is) i.shape.opens :: contextsIn is

def contextIn (is : List Instruction) : Context := (contextsIn is).headD .empty

theorem contextsIn_eq (is : List Instruction) :
    contextsIn is = contextIn is :: (contextsIn is).tail := by
  cases is <;> rfl

/-- Every block stands in its surroundings. -/
def Settled : List Instruction → Prop
  | [] => True
  | i :: is => i.isBlockStart = true ∧ (contextIn is).contains i.op.surroundings = true ∧ Settled is

def inSwitch (is : List Instruction) : Bool := is.head?.any fun i => i.op = .beginSwitch

def inClass (is : List Instruction) : Bool := is.head?.any fun i => i.op.isClassHead

theorem exists_of_inSwitch {is : List Instruction} (h : inSwitch is = true) :
    ∃ i rest, is = i :: rest ∧ i.op = .beginSwitch := by
  cases is with
  | nil => cases h
  | cons i rest => exact ⟨i, rest, rfl, by simpa [inSwitch] using h⟩

/-- What the context inside of blocks says, told by the innermost block. -/
structure Classified (is : List Instruction) : Prop where
  script : (contextIn is).script = (!inSwitch is && !inClass is)
  switchBlock : (contextIn is).switchBlock = inSwitch is
  classDefinition : (contextIn is).classDefinition = inClass is

theorem Classified.of_script {is : List Instruction} (h : Classified is)
    (hs : (contextIn is).script = true) :
    (contextIn is).switchBlock = false ∧ (contextIn is).classDefinition = false := by
  have := h.script
  rw [hs] at this
  rw [h.switchBlock, h.classDefinition]
  simpa using this

/-- A body in which what surrounds it and what its block opens are both active. -/
theorem classified_of_union {i : Instruction} {is : List Instruction} {outer opened : Context}
    (hcontext : contextIn (i :: is) = outer.union opened) (hs : outer.script = true)
    (hb : outer.switchBlock = false) (hc : outer.classDefinition = false)
    (ho : opened.switchBlock = false ∧ opened.classDefinition = false)
    (hi : inSwitch (i :: is) = false ∧ inClass (i :: is) = false) : Classified (i :: is) := by
  constructor <;> rw [hcontext] <;>
    simp [Context.union, Context.ofPredicate, Context.has, hs, hb, hc, ho, hi]

theorem contains_top_iff {c : Context} : c.contains .top = true ↔ c.script = true := by
  simp [Context.contains_eq, Context.top, Context.ofList, Context.ofPredicate]

theorem contains_switchBlock_iff {c : Context} :
    c.contains (.ofList [.switchBlock]) = true ↔ c.switchBlock = true := by
  simp [Context.contains_eq, Context.ofList, Context.ofPredicate]

theorem Settled.classified : ∀ {is : List Instruction}, Settled is → Classified is
  | [], _ => ⟨rfl, rfl, rfl⟩
  | i :: is, ⟨hstart, hin, hrest⟩ => by
    have ih := hrest.classified
    have hcontext : contextIn (i :: is) =
        i.op.shape.mode.body (contextsIn is) i.op.shape.opens := rfl
    have hbody (hs : (contextIn is).contains .top = true) (opened : Context)
        (hc : contextIn (i :: is) = (contextIn is).union opened)
        (ho : opened.switchBlock = false ∧ opened.classDefinition = false)
        (hi : inSwitch (i :: is) = false ∧ inClass (i :: is) = false) : Classified (i :: is) :=
      have hs := contains_top_iff.mp hs
      classified_of_union hc hs (ih.of_script hs).1 (ih.of_script hs).2 ho hi
    -- A case has the context from outside of its switch.
    have hcase (hs : (contextIn is).contains (.ofList [.switchBlock]) = true)
        (hc : contextIn (i :: is) =
          ((contextsIn is)[1]?.getD Context.top).union (.ofList [.switchCase]))
        (hi : inSwitch (i :: is) = false ∧ inClass (i :: is) = false) : Classified (i :: is) := by
      rw [contains_switchBlock_iff, ih.switchBlock] at hs
      obtain ⟨s, rest, rfl, hop⟩ := exists_of_inSwitch hs
      obtain ⟨-, hsurroundings, hrest'⟩ := hrest
      rw [hop] at hsurroundings
      have hscript := contains_top_iff.mp hsurroundings
      have hrest' := hrest'.classified
      rw [contextsIn, contextsIn_eq rest] at hc
      exact classified_of_union hc hscript (hrest'.of_script hscript).1
        (hrest'.of_script hscript).2 ⟨rfl, rfl⟩ hi
    rw [Instruction.isBlockStart_eq] at hstart
    have hkind : inSwitch (i :: is) = decide (i.op = .beginSwitch) := rfl
    have hclass : inClass (i :: is) = i.op.isClassHead := rfl
    cases hop : i.op <;> rw [hop] at hstart hin hcontext hkind hclass <;>
      first
      | cases hstart; done
      | exact hbody hin _ hcontext ⟨rfl, rfl⟩ ⟨hkind, hclass⟩
      | exact hcase hin hcontext ⟨hkind, hclass⟩
      | exact ⟨by rw [hcontext, hkind, hclass]; rfl, by rw [hcontext, hkind]; rfl,
          by rw [hcontext, hclass]; rfl⟩

/-! ## What a reading keeps -/

/-- What is known about the default case of each open switch; `seen` tells it from the positions of
the blocks that are open directly in the switch. -/
def Flagged (seen : List Nat → Prop) : List Instruction → List Bool → Prop
  | [], flags => flags = []
  | i :: is, flags =>
    if i.op = .beginSwitch then
      ∃ flag rest, flags = flag :: rest ∧
        (flag = true ↔ seen ((i :: is).map Instruction.index)) ∧ Flagged seen is rest
    else Flagged seen is flags

section Flagged

variable {seen seen' : List Nat → Prop} {is : List Instruction} {flags : List Bool}

theorem Flagged.congr (h : Flagged seen is flags)
    (hseen : ∀ ks, ks.length ≤ is.length → (seen' ks ↔ seen ks)) : Flagged seen' is flags := by
  induction is generalizing flags with
  | nil => exact h
  | cons i is ih =>
    have htail (ks : List Nat) (hks : ks.length ≤ is.length) : seen' ks ↔ seen ks :=
      hseen ks (Nat.le_succ_of_le hks)
    unfold Flagged at h ⊢
    split
    · rename_i hop
      rw [if_pos hop] at h
      obtain ⟨flag, rest, rfl, hflag, hrest⟩ := h
      have hlength : ((i :: is).map Instruction.index).length ≤ (i :: is).length := by
        exact Nat.le_of_eq (List.length_map _)
      exact ⟨flag, rest, rfl, by rw [hflag, hseen _ hlength], ih hrest htail⟩
    · rename_i hop
      rw [if_neg hop] at h
      exact ih h htail

end Flagged

namespace Progress

structure Stacked (p : Progress) : Prop where
  contexts : p.contexts = contextsIn p.blocks
  settled : Settled p.blocks

theorem stacked_start : Stacked {} := ⟨rfl, trivial⟩

variable {p : Progress} {n : Nat} {i : Instruction}

theorem Stacked.context (h : p.Stacked) : p.context = contextIn p.blocks := by
  rw [Progress.context, h.contexts, contextIn]

theorem Stacked.outerContexts (h : p.Stacked)
    (hc : i.isBlockEnd = true → ∃ opener rest, p.blocks = opener :: rest ∧
      i.op.closes opener.op = true) : p.outerContexts i = contextsIn (p.outerBlocks i) := by
  unfold Progress.outerContexts outerBlocks
  rw [h.contexts]
  split
  · rename_i he
    obtain ⟨opener, rest, hb, -⟩ := hc he
    rw [hb]
    rfl
  · rfl

theorem Stacked.outerSettled (h : p.Stacked) : Settled (p.outerBlocks i) := by
  have hs := h.settled
  unfold outerBlocks
  split
  · cases hb : p.blocks with
    | nil => trivial
    | cons opener rest =>
      rw [hb] at hs
      exact hs.2.2
  · exact hs

theorem Stacked.surroundings (h : p.Stacked) (hs : i.isBlockStart = true)
    (hcontext : p.context.contains i.shape.requires = true)
    (hc : i.isBlockEnd = true → ∃ opener rest, p.blocks = opener :: rest ∧
      i.op.closes opener.op = true) :
    (contextIn (p.outerBlocks i)).contains i.op.surroundings = true := by
  unfold outerBlocks
  split
  · rename_i he
    obtain ⟨opener, rest, hb, hcloses⟩ := hc he
    have hsettled := h.settled
    rw [hb] at hsettled ⊢
    rw [(Operation.closes_iff.mp hcloses).surroundings_eq hs]
    exact hsettled.2.1
  · rename_i he
    rw [← h.context]
    rw [Instruction.isBlockStart_eq] at hs
    rw [Instruction.isBlockEnd_eq] at he
    rw [Instruction.shape, Operation.requires_eq] at hcontext
    cases hop : i.op <;> rw [hop] at hs he hcontext <;>
      first
      | exact hcontext
      | cases hs; done
      | exact absurd rfl he

theorem Stacked.after (h : p.Stacked) (hcontext : p.context.contains i.shape.requires = true)
    (hc : i.isBlockEnd = true → ∃ opener rest, p.blocks = opener :: rest ∧
      i.op.closes opener.op = true) : (p.after i).Stacked := by
  unfold Progress.after
  cases hs : i.isBlockStart with
  | false => exact ⟨by simpa using h.outerContexts hc, by simpa using h.outerSettled⟩
  | true =>
    refine ⟨?_, ?_⟩
    · simp only [if_true, contextsIn, h.outerContexts hc]
    · simpa only [if_true, Settled] using ⟨hs, h.surroundings hs hcontext hc, h.outerSettled⟩

theorem defaultsAfter_eq_outer (hdefault : i.op ≠ .beginSwitchDefaultCase)
    (hswitch : i.op ≠ .beginSwitch) :
    p.defaultsAfter i = if i.op = .endSwitch then p.defaults.tail else p.defaults := by
  unfold defaultsAfter
  cases hop : i.op <;> simp_all

theorem defaultsAfter_eq_self (hdefault : i.op ≠ .beginSwitchDefaultCase)
    (hend : i.op ≠ .endSwitch) (hswitch : i.op ≠ .beginSwitch) :
    p.defaultsAfter i = p.defaults := by
  rw [defaultsAfter_eq_outer hdefault hswitch, if_neg hend]

theorem op_eq_beginSwitch_of_closes {opener : Operation}
    (h : Operation.endSwitch.closes opener = true) : opener = .beginSwitch := by
  cases Operation.closes_iff.mp h
  rfl

theorem op_ne_beginSwitch_of_closes {op opener : Operation} (h : op.closes opener = true)
    (hop : op ≠ .endSwitch) : opener ≠ .beginSwitch := by
  rintro rfl
  cases Operation.closes_iff.mp h
  exact hop rfl

theorem Stacked.exists_switch (h : p.Stacked)
    (hcontext : p.context.contains i.shape.requires = true)
    (hop : i.op = .beginSwitchCase ∨ i.op = .beginSwitchDefaultCase) :
    ∃ s rest, p.blocks = s :: rest ∧ s.op = .beginSwitch := by
  have hrequires : i.shape.requires = .ofList [.switchBlock] := by
    rcases hop with hop | hop <;> rw [Instruction.shape, hop] <;> rfl
  rw [hrequires, contains_switchBlock_iff, h.context, h.settled.classified.switchBlock] at hcontext
  exact exists_of_inSwitch hcontext

/-- The flag of a switch goes with the switch. -/
theorem flagged_outer {seen : List Nat → Prop}
    (hc : i.isBlockEnd = true → ∃ opener rest, p.blocks = opener :: rest ∧
      i.op.closes opener.op = true)
    (hflagged : Flagged seen p.blocks p.defaults) :
    Flagged seen (p.outerBlocks i)
      (if i.op = .endSwitch then p.defaults.tail else p.defaults) := by
  unfold outerBlocks
  split
  · rename_i hend
    obtain ⟨opener, rest, hb, hcloses⟩ := hc hend
    rw [hb, Flagged] at hflagged
    rw [hb, List.tail_cons]
    split
    · rename_i hop
      rw [hop] at hcloses
      rw [if_pos (op_eq_beginSwitch_of_closes hcloses)] at hflagged
      obtain ⟨flag, flags, hd, -, hrest⟩ := hflagged
      rw [hd]
      exact hrest
    · rename_i hop
      rwa [if_neg (op_ne_beginSwitch_of_closes hcloses hop)] at hflagged
  · rename_i hend
    rw [if_neg]
    · exact hflagged
    · intro hop
      rw [Instruction.isBlockEnd_eq, hop] at hend
      exact hend rfl

/-- A flag is set where the default case of its switch starts. -/
theorem Stacked.flagged_after {seen seen' : List Nat → Prop} (h : p.Stacked)
    (hcontext : p.context.contains i.shape.requires = true)
    (hc : i.isBlockEnd = true → ∃ opener rest, p.blocks = opener :: rest ∧
      i.op.closes opener.op = true)
    (hflagged : Flagged seen p.blocks p.defaults)
    (hseen : ∀ ks, seen' ks ↔
      seen ks ∨ i.op = .beginSwitchDefaultCase ∧ ks = p.blocks.map Instruction.index)
    (hfresh : i.op = .beginSwitch → ¬seen' ((i :: p.blocks).map Instruction.index)) :
    Flagged seen' (p.after i).blocks (p.after i).defaults := by
  have hkept (hop : i.op ≠ .beginSwitchDefaultCase) {js : List Instruction} {flags : List Bool}
      (hjs : Flagged seen js flags) : Flagged seen' js flags :=
    hjs.congr fun ks _ => by simp [hseen, hop]
  have hblocks : (p.after i).blocks =
      if i.isBlockStart then i :: p.outerBlocks i else p.outerBlocks i := rfl
  have hdefaults : (p.after i).defaults = p.defaultsAfter i := rfl
  rw [hblocks, hdefaults]
  by_cases hdefault : i.op = .beginSwitchDefaultCase
  · obtain ⟨s, rest, hb, hs⟩ := h.exists_switch hcontext (.inr hdefault)
    rw [hb, Flagged, if_pos hs] at hflagged
    obtain ⟨flag, flags, hd, -, hrest⟩ := hflagged
    have hend : i.isBlockEnd = false := by rw [Instruction.isBlockEnd_eq, hdefault]
    have hstart : i.isBlockStart = true := by rw [Instruction.isBlockStart_eq, hdefault]
    rw [outerBlocks, hend, hstart, defaultsAfter, hdefault, hd, hb]
    simp only [if_true, Bool.false_eq_true, if_false, List.tail_cons, Flagged, hdefault,
      reduceCtorEq, hs]
    refine ⟨true, flags, rfl, ?_, hrest.congr fun ks hks => ?_⟩
    · simp [hseen, hdefault, hb]
    · -- Switches further out have fewer blocks around them.
      have hne : ks ≠ p.blocks.map Instruction.index := by
        rintro rfl
        rw [hb, List.length_map, List.length_cons] at hks
        omega
      simp [hseen, hne]
  by_cases hswitch : i.op = .beginSwitch
  · have hend : i.isBlockEnd = false := by rw [Instruction.isBlockEnd_eq, hswitch]
    have hstart : i.isBlockStart = true := by rw [Instruction.isBlockStart_eq, hswitch]
    rw [outerBlocks, hend, hstart, defaultsAfter, hswitch]
    simp only [if_true, Bool.false_eq_true, if_false, Flagged, hswitch]
    exact ⟨false, p.defaults, rfl, iff_of_false Bool.false_ne_true (hfresh hswitch),
      hkept hdefault hflagged⟩
  · have houter := flagged_outer hc hflagged
    rw [defaultsAfter_eq_outer hdefault hswitch]
    split
    · rw [Flagged, if_neg hswitch]
      exact hkept hdefault houter
    · exact hkept hdefault houter

end Progress

end Code

end ScriptFuzz
