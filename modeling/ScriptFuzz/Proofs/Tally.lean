import ScriptFuzz.Proofs.Ordered
import ScriptFuzz.Tally

/-!
# Tallies after changes

What the tally of a component is after one change of the statistics. A component that was never
counted has the empty tally.
-/

namespace ScriptFuzz.Statistics

set_option autoImplicit false

/-- The tally of a component. -/
def tally (s : Statistics) (name : String) : Tally := (s.get? name).getD {}

theorem tally_update (s : Statistics) (name c : String) (f : Tally → Tally) :
    (s.update name f).tally c = if c = name then f (s.tally c) else s.tally c := by
  unfold tally get? update
  split
  · rename_i h
    subst h
    rw [Ordered.lookup_put]
    rfl
  · rename_i h
    rw [Ordered.lookup_put_of_ne h]

theorem tally_failedToGenerate (s : Statistics) (name c : String) :
    (s.failedToGenerate name).tally c =
      if c = name then { s.tally c with failedToGenerate := (s.tally c).failedToGenerate + 1 }
      else s.tally c :=
  tally_update s name c _

theorem tally_addedInstructions (s : Statistics) (name c : String) (delta : Int) :
    (s.addedInstructions name delta).tally c =
      if c = name then { s.tally c with addedInstructions := (s.tally c).addedInstructions + delta }
      else s.tally c :=
  tally_update s name c _

/-- Where nobody is listed twice, everyone who is listed gets one sample more. -/
theorem tally_record {names : List String} (h : names.Nodup) (s : Statistics) (kind : SampleKind)
    (c : String) :
    (s.record names kind).tally c =
      if c ∈ names then (s.tally c).record kind else s.tally c := by
  induction names generalizing s with
  | nil => rfl
  | cons name names ih =>
    obtain ⟨hname, hnames⟩ := List.nodup_cons.mp h
    have hstep : s.record (name :: names) kind =
        (s.update name (·.record kind)).record names kind := rfl
    rw [hstep, ih hnames, tally_update]
    by_cases hc : c = name
    · subst hc
      rw [if_neg hname, if_pos rfl, if_pos List.mem_cons_self]
    · rw [if_neg hc]
      by_cases hmem : c ∈ names
      · rw [if_pos hmem, if_pos (List.mem_cons_of_mem _ hmem)]
      · rw [if_neg hmem, if_neg]
        intro h
        rcases List.mem_cons.mp h with h | h
        · exact hc h
        · exact hmem h

end ScriptFuzz.Statistics
