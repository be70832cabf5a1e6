import ScriptFuzz.Proofs.Fuzzing.Accounting

/-!
# Resets of the executor

Failures of seeds in a row are counted, and the count starts anew after a success and after a reset.
So each run of failures causes as many resets as the threshold fits into its length, and what is
left of the last run is the count (`Engine.resets_healthChecks`).
-/

namespace ScriptFuzz

set_option autoImplicit false

variable {σ : Type}

/-! ## What an executor does -/

/-- What an executor was asked for; an execution comes with its outcome. -/
inductive Executor.Request where
  | run (o : Outcome)
  | reset
deriving DecidableEq

def Executor.Request.outcome? : Executor.Request → Option Outcome
  | run o => some o
  | reset => none

/-- The executor with a log of what it was asked for. -/
def Executor.logging (x : Executor σ) : Executor (σ × List Executor.Request) where
  execute p milliseconds := ExceptT.mk fun s =>
    match x.answer p milliseconds s.1 with
    | (.ok e, next) => (.ok e, next, s.2 ++ [.run e.outcome])
    | (.error fault, next) => (.error fault, next, s.2)
  reset := fun s => ((), (x.reset.run s.1).2, s.2 ++ [.reset])

theorem Executor.answer_logging {x : Executor σ} {p : Program} {milliseconds : Nat} {s next : σ}
    {e : Execution} (h : x.answer p milliseconds s = (.ok e, next)) (log : List Executor.Request) :
    x.logging.answer p milliseconds (s, log) = (.ok e, next, log ++ [.run e.outcome]) := by
  change (match x.answer p milliseconds s with
    | (.ok e, next) => (Except.ok e, next, log ++ [Executor.Request.run e.outcome])
    | (.error fault, next) => (.error fault, next, log)) = _
  rw [h]

def Fuzzer.logged (f : Fuzzer σ) (log : List Executor.Request) :
    Fuzzer (σ × List Executor.Request) :=
  { f with executor := f.executor.logging, target := (f.target, log) }

@[simp] theorem Fuzzer.settings_logged (f : Fuzzer σ) (log : List Executor.Request) :
    (f.logged log).settings = f.settings := rfl

namespace Engine

open Executor (Request)

/-! ## Runs of failures -/

/-- The lengths of the runs of failures before, between and after the successes. -/
def failureRuns (os : List Outcome) : List Nat := (os.splitOnP Outcome.isSuccess).map List.length

/-- The number of failures since the last success. -/
def currentRun (os : List Outcome) : Nat := (failureRuns os).getLastD 0

/-- How often `limit` fits into the runs of failures. -/
def dueResets (limit : Nat) (os : List Outcome) : Nat := ((failureRuns os).map (· / limit)).sum

variable {o : Outcome} {os : List Outcome} {n : Nat} {ns : List Nat}

theorem failureRuns_cons_of_success (h : o.isSuccess = true) :
    failureRuns (o :: os) = 0 :: failureRuns os := by
  unfold failureRuns
  rw [List.splitOnP_cons_eq_if_modifyHead, if_pos h]
  rfl

theorem failureRuns_cons_of_failure (h : o.isSuccess = false) (hos : failureRuns os = n :: ns) :
    failureRuns (o :: os) = (n + 1) :: ns := by
  unfold failureRuns at hos ⊢
  rw [List.splitOnP_cons_eq_if_modifyHead, if_neg (by simp [h])]
  cases hsplit : os.splitOnP Outcome.isSuccess with
  | nil =>
    rw [hsplit] at hos
    cases hos
  | cons r rs =>
    rw [hsplit] at hos
    cases hos
    rfl

/-! ## Health checks in a row -/

/-- Health checks one after the other, and whether each of them succeeded. -/
def healthChecks : List Program → Looping σ (List Bool)
  | [] => return []
  | seed :: seeds => do
    let healthy ← healthCheck seed
    return healthy :: (← healthChecks seeds)

/-- What a health check whose seed ends with `o` does to the loop, and what the executor is asked for
after it. -/
inductive Checks (threshold : Nat) (s : Engine) (o : Outcome) : Engine → List Request → Prop
  | healthy (h : o.isSuccess = true) : Checks threshold s o { s with failures := 0 } []
  | failing (h : o.isSuccess = false) (hlt : s.failures + 1 < threshold) :
      Checks threshold s o { s with failures := s.failures + 1 } []
  | resetting (h : o.isSuccess = false) (hle : threshold ≤ s.failures + 1) :
      Checks threshold s o
        { s with failures := 0, events := s.events ++ [.reset (s.failures + 1)] } [.reset]

/-- What health checks do one after the other, and what the executor is asked for. -/
inductive CheckRun (threshold : Nat) : Engine → List Outcome → Engine → List Request → Prop
  | nil (s : Engine) : CheckRun threshold s [] s []
  | cons {s s' s'' : Engine} {o : Outcome} {os : List Outcome} {resets log : List Request} :
      Checks threshold s o s' resets → CheckRun threshold s' os s'' log →
      CheckRun threshold s (o :: os) s'' (.run o :: (resets ++ log))

variable {f : Fuzzer σ} {s s' : Engine} {threshold : Nat} {log : List Request}

theorem outcome_healthCheck {e : Execution} {target : σ} {p : Program}
    (h : f.executor.answer p f.settings.timeoutMilliseconds f.target = (.ok e, target))
    (s : Engine) : outcome (healthCheck p) (s, f) =
      if e.outcome.isSuccess then (.ok true, { s with failures := 0 }, { f with target })
      else if s.failures + 1 < f.settings.failureThreshold then
        (.ok false, { s with failures := s.failures + 1 }, { f with target })
      else
        (.ok false, { s with failures := 0, events := s.events ++ [.reset (s.failures + 1)] },
          { f with target := (f.executor.reset.run target).2 }) := by
  rw [healthCheck, outcome_bind, outcome_work]
  simp only
  rw [Fuzzing.run_execute, h]
  simp only
  split
  · rfl
  · simp only [outcome_bind, outcome_get, outcome_settings]
    split
    · rfl
    · rfl

/-- One check; a log of the executor changes nothing but the log. -/
theorem exists_checks (hx : f.executor.Answers) (s : Engine) (p : Program) :
    ∃ o s' f' resets, f'.executor = f.executor ∧ f'.settings = f.settings ∧
      Checks f.settings.failureThreshold s o s' resets ∧
      outcome (healthCheck p) (s, f) = (.ok o.isSuccess, s', f') ∧
      ∀ before, outcome (healthCheck p) (s, f.logged before) =
        (.ok o.isSuccess, s', f'.logged (before ++ .run o :: resets)) := by
  obtain ⟨e, he⟩ := hx p f.settings.timeoutMilliseconds f.target
  cases hanswer : f.executor.answer p f.settings.timeoutMilliseconds f.target with
  | mk result target =>
    rw [hanswer] at he
    cases he
    have hcheck := outcome_healthCheck hanswer s
    have hcheck' (before : List Request) := outcome_healthCheck (f := f.logged before)
      (Executor.answer_logging hanswer before) s
    simp only [Fuzzer.settings_logged] at hcheck'
    cases ho : e.outcome.isSuccess with
    | true =>
      simp only [ho, if_true] at hcheck hcheck'
      exact ⟨e.outcome, _, { f with target }, [], rfl, rfl, .healthy ho, ho ▸ hcheck,
        fun before => ho ▸ hcheck' before⟩
    | false =>
      simp only [ho, Bool.false_eq_true, if_false] at hcheck hcheck'
      by_cases hlt : s.failures + 1 < f.settings.failureThreshold
      · simp only [hlt, if_true] at hcheck hcheck'
        exact ⟨e.outcome, _, { f with target }, [], rfl, rfl, .failing ho hlt, ho ▸ hcheck,
          fun before => ho ▸ hcheck' before⟩
      · simp only [hlt, if_false] at hcheck hcheck'
        refine ⟨e.outcome, _, { f with target := (f.executor.reset.run target).2 }, [.reset], rfl,
          rfl, .resetting ho (Nat.le_of_not_lt hlt), ho ▸ hcheck, fun before => ?_⟩
        rw [ho, hcheck', List.append_cons before (.run e.outcome) [.reset]]
        rfl

/-- Checks one after the other. -/
theorem exists_checkRun (hx : f.executor.Answers) (s : Engine) (seeds : List Program) :
    ∃ os s' f' log, os.length = seeds.length ∧
      CheckRun f.settings.failureThreshold s os s' log ∧
      outcome (healthChecks seeds) (s, f) = (.ok (os.map Outcome.isSuccess), s', f') ∧
      ∀ before, outcome (healthChecks seeds) (s, f.logged before) =
        (.ok (os.map Outcome.isSuccess), s', f'.logged (before ++ log)) := by
  induction seeds generalizing s f with
  | nil =>
    refine ⟨[], s, f, [], rfl, .nil s, rfl, fun before => ?_⟩
    rw [List.append_nil]
    rfl
  | cons p seeds ih =>
    obtain ⟨o, s', f', resets, hexecutor, hsettings, hchecks, houtcome, hlogged⟩ :=
      exists_checks hx s p
    obtain ⟨os, s'', f'', log, hlength, hrun, houtcome', hlogged'⟩ :=
      ih (hexecutor ▸ hx) s'
    rw [hsettings] at hrun
    refine ⟨o :: os, s'', f'', .run o :: (resets ++ log), congrArg (· + 1) hlength,
      .cons hchecks hrun, ?_, fun before => ?_⟩
    · rw [healthChecks, outcome_bind, houtcome]
      simp only
      rw [outcome_bind, houtcome']
      rfl
    · rw [healthChecks, outcome_bind, hlogged before]
      simp only
      rw [outcome_bind, hlogged', List.append_assoc]
      rfl

/-! ## The count -/

theorem CheckRun.outcomes (h : CheckRun threshold s os s' log) :
    log.filterMap Request.outcome? = os := by
  induction h with
  | nil => rfl
  | cons hchecks _ ih => cases hchecks <;> exact congrArg (_ :: ·) ih

/-- One failure more either fits below the limit or reaches it. -/
theorem succ_div_mod {k limit : Nat} (hpos : 0 < limit) :
    (k % limit + 1 < limit ∧ (k + 1) % limit = k % limit + 1 ∧ (k + 1) / limit = k / limit) ∨
      (k % limit + 1 = limit ∧ (k + 1) % limit = 0 ∧ (k + 1) / limit = k / limit + 1) := by
  have hk : k + 1 = (k % limit + 1) + limit * (k / limit) := by
    have := Nat.mod_add_div k limit
    omega
  have hmod : (k + 1) % limit = (k % limit + 1) % limit := by
    rw [hk, Nat.add_mul_mod_self_left]
  have hdiv : (k + 1) / limit = (k % limit + 1) / limit + k / limit := by
    rw [hk, Nat.add_mul_div_left _ _ hpos]
  have hle : k % limit + 1 ≤ limit := Nat.mod_lt k hpos
  rcases Nat.lt_or_eq_of_le hle with hlt | heq
  · rw [Nat.mod_eq_of_lt hlt] at hmod
    rw [Nat.div_eq_of_lt hlt, Nat.zero_add] at hdiv
    exact .inl ⟨hlt, hmod, hdiv⟩
  · rw [heq, Nat.mod_self] at hmod
    rw [heq, Nat.div_self hpos, Nat.add_comm 1] at hdiv
    exact .inr ⟨heq, hmod, hdiv⟩

/-- A run of `k` failures has `k / limit` resets behind it and `k % limit` failures in the count. -/
theorem CheckRun.counts (h : CheckRun threshold s os s' log) {limit k : Nat}
    (hlimit : limit = max 1 threshold) (hk : s.failures = k % limit) :
    ∃ n ns, failureRuns os = n :: ns ∧
      k / limit + log.count .reset = (k + n) / limit + (ns.map (· / limit)).sum ∧
      s' =
        { s with
          failures := ((k + n) :: ns).getLastD 0 % limit
          events := s.events ++ List.replicate (log.count .reset) (.reset limit) } := by
  have hpos : 0 < limit := by omega
  induction h generalizing k with
  | nil s =>
    refine ⟨0, [], rfl, rfl, ?_⟩
    simp only [List.count_nil, List.replicate_zero, List.append_nil, Nat.add_zero,
      List.getLastD_cons, List.getLastD_nil, ← hk]
  | @cons s s' s'' o os resets log hchecks hrun ih =>
    cases hchecks with
    | healthy ho =>
      obtain ⟨n, ns, hruns, hcount, rfl⟩ := ih (k := 0) (Nat.zero_mod _).symm
      refine ⟨0, n :: ns, (failureRuns_cons_of_success ho).trans (congrArg _ hruns), ?_, ?_⟩
      · simpa using hcount
      · simp
    | failing ho hlt =>
      obtain ⟨-, hmod, hdiv⟩ | ⟨heq, -⟩ := succ_div_mod (k := k) hpos
      · obtain ⟨n, ns, hruns, hcount, rfl⟩ := ih (k := k + 1) (by rw [hmod, ← hk])
        refine ⟨n + 1, ns, failureRuns_cons_of_failure ho hruns, ?_, ?_⟩
        · rw [hdiv] at hcount
          simpa [Nat.add_assoc, Nat.add_comm 1] using hcount
        · simp [Nat.add_assoc, Nat.add_comm 1]
      · omega
    | resetting ho hle =>
      obtain ⟨hlt, -⟩ | ⟨heq, hmod, hdiv⟩ := succ_div_mod (k := k) hpos
      · omega
      · obtain ⟨n, ns, hruns, hcount, rfl⟩ := ih (k := k + 1) hmod.symm
        refine ⟨n + 1, ns, failureRuns_cons_of_failure ho hruns, ?_, ?_⟩
        · rw [hdiv] at hcount
          simpa [Nat.add_assoc, Nat.add_comm 1] using hcount
        · simp [Nat.add_assoc, Nat.add_comm 1, hk, heq, List.replicate_succ]

/-- From no failure on, the executor is reset as often as the threshold fits into the runs of
failures, and the count is what is left of the last run: it stays below the threshold. -/
theorem resets_healthChecks (hx : f.executor.Answers) (hs : s.failures = 0)
    (seeds : List Program) :
    ∃ (os : List Outcome) (f' : Fuzzer σ) (log : List Request),
      let limit := max 1 f.settings.failureThreshold
      let s' :=
        { s with
          failures := currentRun os % limit
          events := s.events ++ List.replicate (dueResets limit os) (.reset limit) }
      outcome (healthChecks seeds) (s, f) = (.ok (os.map Outcome.isSuccess), s', f') ∧
        outcome (healthChecks seeds) (s, f.logged []) =
          (.ok (os.map Outcome.isSuccess), s', f'.logged log) ∧
        log.filterMap Request.outcome? = os ∧ os.length = seeds.length ∧
        log.count .reset = dueResets limit os ∧ s'.failures + 1 ≤ limit := by
  obtain ⟨os, s', f', log, hlength, hrun, houtcome, hlogged⟩ := exists_checkRun hx s seeds
  have hlimit : 0 < max 1 f.settings.failureThreshold := by omega
  obtain ⟨n, ns, hruns, hcount, rfl⟩ := hrun.counts rfl (k := 0) (by rw [hs, Nat.zero_mod])
  have hresets : log.count .reset = dueResets (max 1 f.settings.failureThreshold) os := by
    unfold dueResets
    rw [Nat.zero_div, Nat.zero_add, Nat.zero_add] at hcount
    rw [hruns, List.map_cons, List.sum_cons, hcount]
  have hcurrent : ((0 + n) :: ns).getLastD 0 = currentRun os := by
    unfold currentRun
    rw [hruns, Nat.zero_add]
  rw [hcurrent, hresets] at houtcome hlogged
  exact ⟨os, f', log, houtcome, hlogged [], hrun.outcomes, hlength, hresets, Nat.mod_lt _ hlimit⟩

/-- An executor that goes through the given outcomes. -/
def recital : Executor (List Outcome) where
  execute _ _ := fun os => (.ok { outcome := os.headD .succeeded }, os.tail)
  reset := pure ()

def reciting : Fuzzer (List Outcome) where
  random := { word := fun _ => 0 }
  settings := { failureThreshold := 2 }
  executor := recital
  target := [.failed 1, .timedOut, .succeeded, .crashed 6]

theorem resets_healthChecks_reciting :
    ∃ f' : Fuzzer (List Outcome),
      outcome (healthChecks (List.replicate 4 FollowUp.oneValue)) ({ mutators := [] }, reciting) =
        (.ok [false, false, true, false],
          { mutators := [], failures := 1, events := [.reset 2] }, f') := by
  have hx : reciting.executor.Answers := fun _ _ _ => ⟨_, rfl⟩
  obtain ⟨os, f', log, houtcome, hlogged, hos, -⟩ :=
    resets_healthChecks (s := { mutators := [] }) hx rfl (List.replicate 4 FollowUp.oneValue)
  have hlog :
      [.run (.failed 1), .run .timedOut, .reset, .run .succeeded, .run (.crashed 6)] = log :=
    congrArg (fun r => r.2.2.target.2) hlogged
  rw [← hlog] at hos
  rw [← hos] at houtcome
  exact ⟨f', houtcome⟩

end Engine

end ScriptFuzz
