import BoxDescent.Proofs.Run.Accounts
import BoxDescent.Proofs.Run.Course

/-!
# How many searches a run makes

A search that fails leaves an empty store behind, and one that fails with an empty store ends
the run.  So a run makes at most two searches for each accepted iterate, and one for the first.
-/

namespace BoxDescent

variable {α : Type} [Scalar α] [Spaced α] {n : Nat}

namespace Problem

variable [DenseSolver α] {p : Problem α n} {st : p.State}
  {made : List (Pass α n p.settings.memory)} {result : Result α n}

/-- From a state the loop makes these passes, the last of which ends it with the result. -/
inductive Trail (p : Problem α n) :
    p.State → List (Pass α n p.settings.memory) → Result α n → Prop
  | last {st : p.State} {result : Result α n} (outcome : (p.pass st).outcome = .stop result) :
      Trail p st [p.pass st] result
  | onward {st next : p.State} {later : List (Pass α n p.settings.memory)} {result : Result α n}
      (outcome : (p.pass st).outcome = .next next) (rest : Trail p next later result) :
      Trail p st (p.pass st :: later) result

theorem trail_passes (st : p.State) : Trail p st (p.passes st).1 (p.passes st).2 := by
  fun_induction Problem.passes p st with
  | case1 st here result outcome => exact .last outcome
  | case2 st here next outcome later ih => exact .onward outcome ih

namespace Trail

theorem head_eq (h : Trail p st made result) : made[0]? = some (p.pass st) := by
  cases h with
  | last outcome => rfl
  | onward outcome rest => rfl

/-- Each pass of a trail starts the trail of those that follow it. -/
theorem split {before later : List (Pass α n p.settings.memory)}
    {pass : Pass α n p.settings.memory} (h : Trail p st (before ++ pass :: later) result) :
    Trail p pass.entry (pass :: later) result := by
  induction before generalizing st with
  | nil =>
    generalize hmade : [] ++ pass :: later = made at h
    cases h with
    | last outcome =>
      cases hmade
      exact .last outcome
    | onward outcome rest =>
      cases hmade
      exact .onward outcome rest
  | cons first before ih =>
    generalize hmade : first :: before ++ pass :: later = made at h
    cases h with
    | last outcome =>
      rw [List.cons_append] at hmade
      exact absurd (List.cons.inj hmade).2 (by simp)
    | onward outcome rest =>
      cases hmade
      exact ih rest

theorem length_of_failed (h : Trail p st made result) (hempty : st.store.isEmpty = true)
    (hfailed : (p.pass st).search.arrival? = none) : made.length = 1 := by
  cases h with
  | last outcome => rfl
  | onward outcome rest =>
    cases continues_of_pass outcome with
    | accepted t how outcome' =>
      rw [Search.arrival?_of_accepted outcome'] at hfailed
      cases hfailed
    | retried failed corrections =>
      rw [hempty] at corrections
      cases corrections

theorem length_of_failed_twice (h : Trail p st made result) {k : Nat}
    {a b : Pass α n p.settings.memory} (ha : made[k]? = some a) (hb : made[k + 1]? = some b)
    (hfailed : a.search.arrival? = none) (hagain : b.search.arrival? = none) :
    k + 2 = made.length := by
  induction h generalizing k with
  | last outcome => cases hb
  | @onward st next later result outcome rest ih =>
    cases k with
    | succ k =>
      have hk := ih ha hb
      rw [List.length_cons]
      omega
    | zero =>
      cases ha
      cases rest.head_eq.symm.trans hb
      -- the search that failed first has cleared the store for the second
      have hempty : next.store.isEmpty = true := by
        cases continues_of_pass outcome with
        | accepted t how outcome' =>
          rw [Search.arrival?_of_accepted outcome'] at hfailed
          cases hfailed
        | retried failed corrections => rfl
      rw [List.length_cons, rest.length_of_failed hempty hagain]

/-- One more pass is always left than the loop makes: with an empty store it is the retry, with
corrections the pass that fails without them. -/
theorem length_lt (h : Trail p st made result)
    (hroom : st.iterations < p.settings.maxIterations) : made.length < p.passesLeft st := by
  induction h with
  | last outcome =>
    rw [List.length_singleton, passesLeft]
    omega
  | @onward st next later result outcome rest ih =>
    have hless := passesLeft_of_pass outcome
    have hlater : next.iterations < p.settings.maxIterations := by
      cases continues_of_pass outcome with
      | accepted t how outcome' gradient reduction room => exact room
      | retried failed corrections => exact hroom
    have hrest := ih hlater
    rw [List.length_cons]
    omega

theorem length_trials_le (h : Trail p st made result) :
    (made.flatMap fun pass => pass.search.trials).length ≤
      made.length * p.settings.maxSearchEvals := by
  have hsearch : ∀ st : p.State,
      (p.pass st).search.trials.length ≤ p.settings.maxSearchEvals := by
    intro st
    rw [search_eq]
    exact Search.length_trials_le
  induction h with
  | last outcome =>
    rw [List.flatMap_singleton, List.length_singleton, Nat.one_mul]
    exact hsearch _
  | onward outcome rest ih =>
    rw [List.flatMap_cons, List.length_append, List.length_cons, Nat.succ_mul, Nat.add_comm]
    exact Nat.add_le_add ih (hsearch _)

end Trail

/-! ### Whole runs -/

/-- How far a run goes.  Its passes are those of the loop, and few of their searches fail. -/
structure Ends (p : Problem α n) (run : Run α n p.settings.memory) : Prop where
  idle : run.start.eval.isFinite = false ∨ p.gradientIsSmall run.start.iterate = true →
    run.passes = []
  trail : run.start.eval.isFinite = true → p.gradientIsSmall run.start.iterate = false →
    Trail p (p.initial run.start.iterate) run.passes run.result
  searches_le : run.passes.length ≤ 2 * p.settings.maxIterations - 1
  /-- No search fails before the first accepted one, unless the run ends there. -/
  failed_first : ∀ pass, run.passes[0]? = some pass → pass.search.arrival? = none →
    run.passes.length = 1
  /-- Two failed searches in a row end the run. -/
  failed_twice : ∀ k a b, run.passes[k]? = some a → run.passes[k + 1]? = some b →
    a.search.arrival? = none → b.search.arrival? = none → k + 2 = run.passes.length
  /-- So at most one failed search comes between two accepted ones. -/
  failed_between : ∀ k a b c, run.passes[k]? = some a → run.passes[k + 1]? = some b →
    run.passes[k + 2]? = some c → a.search.arrival? ≠ none ∨ b.search.arrival? ≠ none
  evals_le : run.result.evals ≤
    1 + (2 * p.settings.maxIterations - 1) * p.settings.maxSearchEvals

omit [Spaced α] in
theorem passesLeft_initial (it : Iterate α n) :
    p.passesLeft (p.initial it) = 2 * p.settings.maxIterations := rfl

theorem Trail.ends {run : Run α n p.settings.memory}
    (h : Trail p (p.initial run.start.iterate) run.passes run.result)
    (hroom : 0 < p.settings.maxIterations) (hfinite : run.start.eval.isFinite = true)
    (hgradient : p.gradientIsSmall run.start.iterate = false)
    (hcount : run.result.evals = run.trials.length) : Ends p run := by
  have hsearches : run.passes.length ≤ 2 * p.settings.maxIterations - 1 := by
    have hlt := h.length_lt hroom
    rw [passesLeft_initial] at hlt
    omega
  refine
    { idle := ?_
      trail := fun _ _ => h
      searches_le := hsearches
      failed_first := ?_
      failed_twice := fun k a b => h.length_of_failed_twice
      failed_between := ?_
      evals_le := ?_ }
  · rintro (hnot | hsmall)
    · rw [hfinite] at hnot
      cases hnot
    · rw [hgradient] at hsmall
      cases hsmall
  · intro pass hpass hfailed
    cases h.head_eq.symm.trans hpass
    exact h.length_of_failed rfl hfailed
  · intro k a b c ha hb hc
    by_contra hfailed
    rw [not_or, Classical.not_not, Classical.not_not] at hfailed
    have hlast := h.length_of_failed_twice ha hb hfailed.1 hfailed.2
    have hlt := (List.getElem?_eq_some_iff.mp hc).1
    omega
  · have htrials := h.length_trials_le
    have hbudget := Nat.mul_le_mul_right p.settings.maxSearchEvals hsearches
    rw [Run.trials, List.length_cons] at hcount
    omega

theorem ends_of_idle {run : Run α n p.settings.memory}
    (hidle : run.start.eval.isFinite = false ∨ p.gradientIsSmall run.start.iterate = true)
    (hpasses : run.passes = []) (hevals : run.result.evals = 1) : Ends p run := by
  have hnone : ∀ (k : Nat) (pass : Pass α n p.settings.memory), run.passes[k]? ≠ some pass := by
    intro k pass hpass
    rw [hpasses] at hpass
    cases hpass
  refine
    { idle := fun _ => hpasses
      trail := ?_
      searches_le := ?_
      failed_first := fun pass hpass => absurd hpass (hnone 0 pass)
      failed_twice := fun k a b ha => absurd ha (hnone k a)
      failed_between := fun k a b c ha => absurd ha (hnone k a)
      evals_le := ?_ }
  · intro hfinite hgradient
    rw [hfinite, hgradient] at hidle
    rcases hidle with h | h <;> cases h
  · rw [hpasses]
    exact Nat.zero_le _
  · rw [hevals]
    exact Nat.le_add_right 1 _

/-- Whatever the objective answers, a run ends after few searches. -/
theorem run_ends (p : Problem α n) (x0 : Vector α n) (hcheck : p.settings.check = .ok ()) :
    Ends p (p.run x0) := by
  have hroom := (Settings.check_eq_ok_iff.mp hcheck).maxIterations_pos
  have hcount := (p.run_account x0).evals_eq
  cases hfinite : (p.firstTrial x0).eval.isFinite with
  | false =>
    rw [run_of_not_finite hfinite]
    exact ends_of_idle (.inl hfinite) rfl rfl
  | true =>
    cases hgradient : p.gradientIsSmall (p.firstTrial x0).iterate with
    | true =>
      rw [run_of_small hfinite hgradient]
      exact ends_of_idle (.inr hgradient) rfl rfl
    | false =>
      rw [run_of_passes hfinite hgradient] at hcount ⊢
      exact (trail_passes _).ends hroom hfinite hgradient hcount

theorem run_ends_of_identity :
    let _ : Spaced Extended := ⟨fun _ _ _ => false⟩
    let _ := DenseSolver.symmetric Extended
    let settings : Settings Extended :=
      { Settings.default with maxIterations := 2, maxSearchEvals := 5 }
    let p : Problem Extended 1 :=
      { settings := settings, objective := numberedUntil 3, box := .unbounded 1 }
    p.settings.check = .ok () ∧ (p.run #v[.finite 3]).passes.length ≤ 3 ∧
      (p.run #v[.finite 3]).result.evals ≤ 16 := by
  intro spaced solver settings p
  have hsound : settings.Sound :=
    { Settings.sound_default_extended with
      maxIterations_pos := Nat.succ_pos 1
      maxSearchEvals_pos := Nat.succ_pos 4 }
  have hcheck : p.settings.check = .ok () := Settings.check_eq_ok_iff.mpr hsound
  have hends := run_ends p #v[.finite 3] hcheck
  exact ⟨hcheck, hends.searches_le, hends.evals_le⟩

end Problem

end BoxDescent
