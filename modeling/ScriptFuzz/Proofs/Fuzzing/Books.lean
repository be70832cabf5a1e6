import Mathlib.Algebra.Ring.Int.Defs
import Mathlib.Logic.Relation
import ScriptFuzz.Engine
import ScriptFuzz.Proofs.Fuzzing.Contributors
import ScriptFuzz.Proofs.Tally

/-!
# The books of a loop

A loop keeps account of what happens in three places: the events that it reports, the tallies of the
contributors, and the corpus. `Entry` lists what is ever written into these books at once, and every
entry keeps the books balanced (`Balanced.entry`).
-/

namespace ScriptFuzz

set_option autoImplicit false

/-- The classification that an event reports. -/
def Event.kind? : Event → Option SampleKind
  | .generated _ | .reset _ => none
  | .valid _ => some .valid
  | .interesting _ _ => some .interesting
  | .invalid _ => some .invalid
  | .timedOut _ => some .timedOut
  | .crash _ _ => some .crashing

def Event.isGenerated : Event → Bool
  | .generated _ => true
  | _ => false

/-- Whether the program of the event lists a contributor. -/
def Event.lists (e : Event) (c : String) : Bool := e.program?.any (·.contributors.contains c)

/-- Whether the event admits its program to the corpus: nothing is left of some programs without
what serves the fuzzer. -/
def Event.admits : Event → Bool
  | .interesting p _ => !p.stripInternal.isEmpty
  | _ => false

def Attempt.isFailure : Attempt → Bool
  | .failed => true
  | .added _ => false

def Attempt.delta : Attempt → Int
  | .failed => 0
  | .added delta => delta

def Statistics.charge (s : Statistics) (name : String) : Attempt → Statistics
  | .failed => s.failedToGenerate name
  | .added delta => s.addedInstructions name delta

namespace Engine

/-- What a loop keeps account of. -/
structure Books where
  corpus : Corpus
  statistics : Statistics
  events : List Event
  attempts : List (String × Attempt)

def books (s : Engine) : Books := ⟨s.corpus, s.statistics, s.events, s.attempts⟩

namespace Books

/-- What is written into the books at once. -/
inductive Entry (b : Books) : Books → Prop
  | reset (failures : Nat) : Entry b { b with events := b.events ++ [.reset failures] }
  | attempt (name : String) (a : Attempt) :
      Entry b
        { b with
          attempts := b.attempts ++ [(name, a)]
          statistics := b.statistics.charge name a }
  /-- A program was generated, executed and classified. -/
  | sample {p q : Program} {e : Event} {kind : SampleKind} (hkind : e.kind? = some kind)
      (hprogram : e.program? = some q) (hlisted : q.contributors = p.contributors)
      (hp : p.Credits) :
      Entry b
        { b with
          events := b.events ++ [.generated p, e]
          statistics := b.statistics.record p.contributors kind
          corpus := if kind = .interesting then b.corpus.add q else b.corpus }

/-- Every generated program is classified, by exactly one event, before the next one is. -/
inductive Paired : List Event → Prop
  | nil : Paired []
  | reset {failures : Nat} {es : List Event} : Paired es → Paired (.reset failures :: es)
  | sample {p q : Program} {e : Event} {es : List Event} (hkind : e.kind?.isSome)
      (hprogram : e.program? = some q) (hlisted : q.contributors = p.contributors) :
      Paired es → Paired (.generated p :: e :: es)

theorem Paired.append {es es' : List Event} (h : Paired es) (h' : Paired es') :
    Paired (es ++ es') := by
  induction h with
  | nil => exact h'
  | reset _ ih => exact .reset ih
  | sample hkind hprogram hlisted _ ih => exact .sample hkind hprogram hlisted ih

/-- The books of a loop that started with `n` programs in its corpus agree with each other. -/
structure Balanced (n : Nat) (b : Books) : Prop where
  paired : Paired b.events
  kinds : ∀ c kind, (b.statistics.tally c).count kind =
    b.events.countP fun e => e.kind? == some kind && e.lists c
  total : ∀ c, (b.statistics.tally c).total =
    b.events.countP fun e => e.kind?.isSome && e.lists c
  failed : ∀ c, (b.statistics.tally c).failedToGenerate =
    b.attempts.countP fun a => a.1 == c && a.2.isFailure
  added : ∀ c, (b.statistics.tally c).addedInstructions =
    ((b.attempts.filter fun a => a.1 == c).map fun a => a.2.delta).sum
  corpus : b.corpus.size = n + b.events.countP Event.admits

section

variable {b b' : Books} {n : Nat}

theorem size_add (c : Corpus) (p : Program) :
    (c.add p).size = c.size + if p.stripInternal.isEmpty then 0 else 1 := by
  unfold Corpus.add
  simp only
  split
  · rfl
  · exact List.length_append

theorem samples_charge (s : Statistics) (name c : String) (a : Attempt) :
    ((s.charge name a).tally c).total = (s.tally c).total ∧
      ∀ kind, ((s.charge name a).tally c).count kind = (s.tally c).count kind := by
  cases a with
  | failed =>
    rw [Statistics.charge, Statistics.tally_failedToGenerate]
    split
    · exact ⟨rfl, fun kind => by cases kind <;> rfl⟩
    · exact ⟨rfl, fun _ => rfl⟩
  | added delta =>
    rw [Statistics.charge, Statistics.tally_addedInstructions]
    split
    · exact ⟨rfl, fun kind => by cases kind <;> rfl⟩
    · exact ⟨rfl, fun _ => rfl⟩

theorem failedToGenerate_charge (s : Statistics) (name c : String) (a : Attempt) :
    ((s.charge name a).tally c).failedToGenerate =
      (s.tally c).failedToGenerate + if name == c && a.isFailure then 1 else 0 := by
  by_cases hc : c = name
  · subst hc
    cases a <;> simp [Statistics.charge, Statistics.tally_failedToGenerate,
      Statistics.tally_addedInstructions, Attempt.isFailure]
  · have hname : (name == c) = false := beq_false_of_ne (Ne.symm hc)
    cases a <;> simp [Statistics.charge, Statistics.tally_failedToGenerate,
      Statistics.tally_addedInstructions, hc, hname]

theorem addedInstructions_charge (s : Statistics) (name c : String) (a : Attempt) :
    ((s.charge name a).tally c).addedInstructions =
      (s.tally c).addedInstructions + if name == c then a.delta else 0 := by
  by_cases hc : c = name
  · subst hc
    cases a <;> simp [Statistics.charge, Statistics.tally_failedToGenerate,
      Statistics.tally_addedInstructions, Attempt.delta]
  · have hname : (name == c) = false := beq_false_of_ne (Ne.symm hc)
    cases a <;> simp [Statistics.charge, Statistics.tally_failedToGenerate,
      Statistics.tally_addedInstructions, hc, hname]

/-- A sample counts for everyone whom its program lists. -/
theorem samples_record {p q : Program} (hp : p.Credits) (hlisted : q.contributors = p.contributors)
    {e : Event} {kind : SampleKind} (hkind : e.kind? = some kind) (hprogram : e.program? = some q)
    (s : Statistics) (c : String) :
    ((s.record p.contributors kind).tally c).total =
        (s.tally c).total + (if e.kind?.isSome && e.lists c then 1 else 0) ∧
      (∀ k, ((s.record p.contributors kind).tally c).count k =
        (s.tally c).count k + if e.kind? == some k && e.lists c then 1 else 0) ∧
      ((s.record p.contributors kind).tally c).failedToGenerate =
        (s.tally c).failedToGenerate ∧
      ((s.record p.contributors kind).tally c).addedInstructions =
        (s.tally c).addedInstructions := by
  have hlists : e.lists c = decide (c ∈ p.contributors) := by
    simp [Event.lists, hprogram, hlisted]
  rw [Statistics.tally_record hp.nodup, hlists, hkind]
  by_cases hmem : c ∈ p.contributors
  · simp only [hmem, if_true, decide_true, Bool.and_true, Option.isSome_some]
    refine ⟨Tally.total_record _ _, fun k => ?_, ?_, ?_⟩
    · rw [Tally.count_record]
      by_cases hk : kind = k
      · simp [hk]
      · simp [hk]
    · cases kind <;> rfl
    · cases kind <;> rfl
  · simp [hmem]

theorem admits_of_kind {e : Event} {kind : SampleKind} {q : Program} (hkind : e.kind? = some kind)
    (hprogram : e.program? = some q) :
    e.admits = (decide (kind = .interesting) && !q.stripInternal.isEmpty) := by
  cases e <;> cases hkind <;> cases hprogram <;> rfl

theorem Balanced.entry (h : Balanced n b) (hentry : Entry b b') : Balanced n b' := by
  cases hentry with
  | reset failures =>
    -- A reset is no sample.
    refine ⟨h.paired.append (.reset .nil), ?_, ?_, h.failed, h.added, ?_⟩
    · intro c kind
      rw [h.kinds, List.countP_append]
      rfl
    · intro c
      rw [h.total, List.countP_append]
      rfl
    · rw [h.corpus, List.countP_append]
      rfl
  | attempt name a =>
    refine ⟨h.paired, ?_, ?_, ?_, ?_, h.corpus⟩
    · intro c kind
      exact ((samples_charge _ name c a).2 kind).trans (h.kinds c kind)
    · intro c
      exact (samples_charge _ name c a).1.trans (h.total c)
    · intro c
      rw [failedToGenerate_charge, h.failed, List.countP_append, List.countP_singleton]
    · intro c
      rw [addedInstructions_charge, h.added, List.filter_append, List.map_append, List.sum_append]
      congr 1
      by_cases hc : (name == c) = true
      · simp [hc]
      · simp [hc]
  | @sample p q e kind hkind hprogram hlisted hp =>
    have hrecord := samples_record hp hlisted hkind hprogram b.statistics
    refine ⟨?_, ?_, ?_, ?_, ?_, ?_⟩
    · exact h.paired.append (.sample (by rw [hkind]; rfl) hprogram hlisted .nil)
    · intro c k
      rw [(hrecord c).2.1, h.kinds, List.countP_append, List.countP_cons, List.countP_singleton]
      rfl
    · intro c
      rw [(hrecord c).1, h.total, List.countP_append, List.countP_cons, List.countP_singleton]
      rfl
    · intro c
      exact (hrecord c).2.2.1.trans (h.failed c)
    · intro c
      exact (hrecord c).2.2.2.trans (h.added c)
    · rw [List.countP_append, List.countP_cons, List.countP_singleton, admits_of_kind hkind hprogram]
      by_cases hinteresting : kind = .interesting
      · simp only [hinteresting, if_true, size_add, h.corpus]
        cases q.stripInternal.isEmpty <;> simp [Event.admits, Nat.add_assoc]
      · simp [hinteresting, h.corpus, Event.admits]

theorem balanced_start {corpus : Corpus} : Balanced corpus.size ⟨corpus, {}, [], []⟩ :=
  ⟨.nil, fun _ kind => by cases kind <;> rfl, fun _ => rfl, fun _ => rfl, fun _ => rfl, rfl⟩

/-- No attempt and no generated program was written. -/
def Still (b b' : Books) : Prop :=
  b'.attempts = b.attempts ∧ b'.events.countP Event.isGenerated = b.events.countP Event.isGenerated

/-- The contributors of every stored program form a set. -/
def Credited (b : Books) : Prop := ∀ p ∈ b.corpus.programs, p.Credits

theorem Credited.entry (h : b.Credited) (hentry : Entry b b') : b'.Credited := by
  cases hentry with
  | reset failures => exact h
  | attempt name a => exact h
  | @sample p q e kind hkind hprogram hlisted hp =>
    unfold Credited
    simp only
    split
    · unfold Corpus.add
      simp only
      split
      · exact h
      · intro r hr
        rcases List.mem_append.mp hr with hr | hr
        · exact h r hr
        · rw [List.mem_singleton.mp hr]
          change q.contributors.Pairwise _
          rw [hlisted]
          exact hp
    · exact h

/-- One set of books comes from another by entries. -/
abbrev Entries : Books → Books → Prop := Relation.ReflTransGen Entry

theorem Balanced.entries (h : Balanced n b) (hentries : Entries b b') : Balanced n b' := by
  induction hentries with
  | refl => exact h
  | tail _ hentry ih => exact ih.entry hentry

theorem Credited.entries (h : b.Credited) (hentries : Entries b b') : b'.Credited := by
  induction hentries with
  | refl => exact h
  | tail _ hentry ih => exact ih.entry hentry

end

end Books

end Engine

end ScriptFuzz
