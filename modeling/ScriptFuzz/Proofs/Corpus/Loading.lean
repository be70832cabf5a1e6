import ScriptFuzz.Proofs.Program.Loading
import ScriptFuzz.Proofs.Program.Stripping

/-!
# Loading a corpus from files

Files are read in the order of their paths, in whatever order they are listed. A program that is read
joins the corpus without the instructions that serve the fuzzer itself, unless it has no code at all;
it is counted in either case (`Corpus.loads_load`).
-/

namespace ScriptFuzz

set_option autoImplicit false

open Code

/-- Whatever prints has a variable to print, so the first instruction is kept. -/
theorem Program.stripInternal_isEmpty {p : Program} (h : p.code.check = .ok ()) :
    p.stripInternal.isEmpty = p.isEmpty := by
  cases hcode : p.code with
  | nil =>
    unfold isEmpty stripInternal
    rw [hcode]
    rfl
  | cons i is =>
    obtain ⟨final, hrun, -⟩ := check_eq_ok_iff_run.mp h
    rw [hcode] at hrun
    obtain ⟨hadmits, -⟩ := (Progress.run_cons_eq_ok_iff Progress.balanced_start).mp hrun
    have hplain : i.isInternal = false := by
      refine Bool.eq_false_iff.mpr fun hinternal => ?_
      have hlength : i.inputs.length = 1 := by
        rw [i.length_inputs, Instruction.shape, Instruction.op_of_isInternal hinternal]
        rfl
      obtain ⟨v, hv⟩ := List.length_eq_one_iff.mp hlength
      cases hadmits.visible v (hv ▸ List.mem_singleton_self v)
    have hkept : p.stripInternal.code ≠ [] := by
      simp [stripInternal, retain, renumber, hcode, hplain]
    rw [isEmpty, isEmpty, hcode, List.isEmpty_cons, List.isEmpty_eq_false_iff]
    exact hkept

namespace Corpus

variable {c c' : Corpus} {n : Nat} {f : Fault} {p : Program} {file : String × String}
  {files listed : List (String × String)}

/-- The program in a file, if the name is that of a program file and the text is read as a program. -/
def programIn? (file : String × String) : Option Program :=
  if isProgramFile file.1 then (Program.ofJson file.2).toOption else none

/-- The fault with which a file is read, if there is any. -/
def faultIn? (file : String × String) : Option Fault :=
  if isProgramFile file.1 then
    match Program.ofJson file.2 with
    | .error (.fault f) => some f
    | _ => none
  else none

/-- The programs in files. -/
def programsIn (files : List (String × String)) : List Program := files.filterMap programIn?

theorem check_of_programIn? (h : programIn? file = some p) : p.code.check = .ok () := by
  unfold programIn? at h
  split at h
  · cases hread : Program.ofJson file.2 with
    | ok q =>
      rw [hread] at h
      cases h
      exact Program.LoadEnds.check (hread ▸ Program.ofJson_ends file.2)
    | error e =>
      rw [hread] at h
      cases h
  · cases h

theorem check_of_mem_programsIn (h : p ∈ programsIn files) : p.code.check = .ok () := by
  obtain ⟨file, -, hfile⟩ := List.mem_filterMap.mp h
  exact check_of_programIn? hfile

/-! ## One file -/

theorem loadFile_of_fault (h : faultIn? file = some f) : loadFile (n, c) file = .error f := by
  unfold faultIn? at h
  unfold loadFile
  split at h
  · rename_i hname
    simp only [hname, if_true]
    split at h
    · rename_i hread
      cases h
      rw [hread]
    · cases h
  · cases h

/-- A file that is read without a fault adds its program, if it holds one. -/
theorem loadFile_of_faultless (h : faultIn? file = none) :
    loadFile (n, c) file =
      .ok (n + (programIn? file).toList.length, (programIn? file).toList.foldl add c) := by
  unfold faultIn? at h
  unfold loadFile programIn?
  dsimp only
  split
  · rename_i hname
    rw [if_pos hname] at h
    cases hread : Program.ofJson file.2 with
    | ok p => rfl
    | error e =>
      cases e with
      | fault f =>
        rw [hread] at h
        cases h
      | malformed | invalid id e => rfl
  · rfl

/-! ## All files -/

theorem foldlM_loadFile (h : ∀ file ∈ files, faultIn? file = none) (n : Nat) (c : Corpus) :
    files.foldlM loadFile (n, c) =
      .ok (n + (programsIn files).length, (programsIn files).foldl add c) := by
  induction files generalizing n c with
  | nil => rfl
  | cons file files ih =>
    obtain ⟨hfile, hfiles⟩ := List.forall_mem_cons.mp h
    have hprograms : programsIn (file :: files) = (programIn? file).toList ++ programsIn files := by
      unfold programsIn
      cases hp : programIn? file with
      | none => rw [List.filterMap_cons_none hp]; rfl
      | some p => rw [List.filterMap_cons_some hp]; rfl
    rw [List.foldlM_cons, loadFile_of_faultless hfile, hprograms, List.length_append,
      List.foldl_append, ← Nat.add_assoc]
    exact ih hfiles _ _

/-- The first file with a fault ends the run. -/
theorem foldlM_loadFile_of_fault {before after : List (String × String)}
    (hbefore : ∀ file ∈ before, faultIn? file = none) (h : faultIn? file = some f) (n : Nat)
    (c : Corpus) : (before ++ file :: after).foldlM loadFile (n, c) = .error f := by
  have hfault := loadFile_of_fault (n := n + (programsIn before).length)
    (c := (programsIn before).foldl add c) h
  simp only [List.foldlM_append, foldlM_loadFile hbefore, List.foldlM_cons, bind, Except.bind, hfault]

/-- A checked program joins the corpus unless it has no code. -/
theorem programs_add (h : p.code.check = .ok ()) :
    (c.add p).programs = c.programs ++ ([p].filter (!·.isEmpty)).map Program.stripInternal := by
  simp only [add, Program.stripInternal_isEmpty h]
  cases hempty : p.isEmpty <;> simp [hempty]

theorem programs_foldl_add {ps : List Program} (h : ∀ p ∈ ps, p.code.check = .ok ()) (c : Corpus) :
    (ps.foldl add c).programs =
      c.programs ++ (ps.filter (!·.isEmpty)).map Program.stripInternal := by
  induction ps generalizing c with
  | nil => exact (List.append_nil _).symm
  | cons p ps ih =>
    obtain ⟨hp, hps⟩ := List.forall_mem_cons.mp h
    rw [List.foldl_cons, ih hps, programs_add hp, List.append_assoc, ← List.map_append,
      ← List.filter_append]
    rfl

/-- What loading `files`, which are in the order of their paths, makes of the corpus `c`: the programs
in the files join it in this order, those without code apart, and all of them are counted. A file
without a program changes nothing. -/
structure Loads (c : Corpus) (files : List (String × String)) (n : Nat) (c' : Corpus) : Prop where
  faultless : ∀ file ∈ files, faultIn? file = none
  programs : c'.programs =
    c.programs ++ ((programsIn files).filter (!·.isEmpty)).map Program.stripInternal
  count : n = (programsIn files).length
  size : c'.size + (programsIn files).countP (·.isEmpty) = c.size + n

theorem loads_foldl_add (h : ∀ file ∈ files, faultIn? file = none) :
    Loads c files (programsIn files).length ((programsIn files).foldl add c) := by
  have hchecked : ∀ p ∈ programsIn files, p.code.check = .ok () := fun _ => check_of_mem_programsIn
  have hprograms := programs_foldl_add hchecked c
  refine ⟨h, hprograms, rfl, ?_⟩
  have hlength := List.length_eq_countP_add_countP (·.isEmpty) (l := programsIn files)
  rw [size, hprograms, List.length_append, List.length_map, ← List.countP_eq_length_filter, size]
  simp only [Bool.not_eq_true, Bool.decide_eq_false] at hlength
  omega

/-- Loading a directory ends at the first file, in the order of paths, that is read with a fault.
Otherwise it tells how many files hold a program, and that is the growth of the corpus exactly if none
of these programs is without code. -/
theorem loads_load (c : Corpus) (hlisted : listed.Perm files)
    (hpaths : files.Pairwise fun x y => x.1 < y.1) :
    (∃ f before file after, c.load listed = .error f ∧ files = before ++ file :: after ∧
      (∀ x ∈ before, faultIn? x = none) ∧ faultIn? file = some f) ∨
    ∃ n c', c.load listed = .ok (n, c') ∧ Loads c files n c' ∧
      (c'.size = c.size + n ↔ ∀ p ∈ programsIn files, p.code ≠ []) := by
  have hload : c.load listed = files.foldlM loadFile (0, c) := by
    rw [load, Ordered.ofPairs_of_perm hlisted hpaths]
  by_cases h : ∀ file ∈ files, faultIn? file = none
  · have hloads := loads_foldl_add (c := c) h
    refine .inr ⟨_, _, ?_, hloads, ?_⟩
    · rw [hload, foldlM_loadFile h, Nat.zero_add]
    · have hsize := hloads.size
      have hnone : (programsIn files).countP (·.isEmpty) = 0 ↔ ∀ p ∈ programsIn files, p.code ≠ [] := by
        simp [Program.isEmpty]
      rw [← hnone]
      omega
  · -- The first file with a fault splits the list.
    refine .inl ?_
    obtain ⟨file, hfile, hfault⟩ := not_forall₂.mp h
    have hsome : (files.find? fun x => (faultIn? x).isSome).isSome := by
      refine List.find?_isSome.mpr ⟨file, hfile, ?_⟩
      exact Option.isSome_iff_ne_none.mpr hfault
    obtain ⟨first, hfirst⟩ := Option.isSome_iff_exists.mp hsome
    obtain ⟨hfound, before, after, hsplit, hbefore⟩ := List.find?_eq_some_iff_append.mp hfirst
    obtain ⟨f, hf⟩ := Option.isSome_iff_exists.mp hfound
    have hnone : ∀ x ∈ before, faultIn? x = none := fun x hx => by simpa using hbefore x hx
    refine ⟨f, before, first, after, ?_, hsplit, hnone, hf⟩
    rw [hload, hsplit]
    exact foldlM_loadFile_of_fault hnone hf 0 c

/-! ## Files of every sort -/

/-- The text of a program with the given code. -/
def textOf (instructions : String) : String :=
  "\x7b\"id\":\"00000000-0000-0000-0000-000000000001\",\"code\":\x7b\"instructions\":[" ++
    instructions ++
      "]\x7d,\"comments\":\x7b\"instructions\":\x7b\x7d\x7d,\"contributors\":[]\x7d"

/-- The text of a program without code. -/
def codelessText : String := textOf ""

/-- The text of a program that loads a value and prints it. -/
def printingText : String :=
  textOf ("\x7b\"op\":\"LoadNull\",\"inouts\":[0],\"index\":0\x7d," ++
    "\x7b\"op\":\"Print\",\"inouts\":[0],\"index\":1\x7d")

/-- Programs with and without code, and files without a program, in the order of their paths. -/
def mixedFiles : List (String × String) :=
  [("a.json", codelessText), ("b.json", printingText), ("c.json", "\x7b"), ("d.txt", printingText)]

theorem loads_load_mixedFiles :
    mixedFiles.reverse.Perm mixedFiles ∧ mixedFiles.Pairwise (fun x y => x.1 < y.1) ∧
      ∃ n c', ({} : Corpus).load mixedFiles.reverse = .ok (n, c') ∧ Loads {} mixedFiles n c' ∧
        (c'.size = 0 + n ↔ ∀ p ∈ programsIn mixedFiles, p.code ≠ []) := by
  have hlisted : mixedFiles.reverse.Perm mixedFiles := List.reverse_perm _
  have hpaths : mixedFiles.Pairwise fun x y => x.1 < y.1 := by decide
  have hfaultless : ∀ file ∈ mixedFiles, faultIn? file = none := by decide +kernel
  refine ⟨hlisted, hpaths, (loads_load {} hlisted hpaths).resolve_left ?_⟩
  rintro ⟨f, before, file, after, -, hsplit, -, hfault⟩
  have hmem : file ∈ mixedFiles := hsplit ▸ List.mem_append_cons_self
  rw [hfaultless file hmem] at hfault
  cases hfault

/-- A program without code is counted, but it does not join the corpus. -/
theorem load_codeless :
    (({} : Corpus).load [("a.json", codelessText)]).toOption.map (fun r => (r.1, r.2.size)) =
      some (1, 0) := by
  decide +kernel

end Corpus

end ScriptFuzz
