import BoxDescent.Proofs.LineSearch.Outcomes
import BoxDescent.Proofs.Run.Plain

/-!
# The best point of a failed run

A run that finds no acceptable step returns the best point of its last search.  A search that is
made again without corrections leaves nothing behind: what it has found is forgotten.
-/

namespace BoxDescent

variable {α : Type} [Scalar α] {n : Nat}

/-! ### The last search -/

namespace Problem

variable [Spaced α] [DenseSolver α] {p : Problem α n} {st : p.State}
  {made : List (Pass α n p.settings.memory)} {result : Result α n}

theorem Trail.iterations_le (h : Trail p st made result) : st.iterations ≤ result.iterations := by
  induction h with
  | last outcome =>
    cases finishes_of_pass outcome with
    | smallGradient => exact Nat.le_succ _
    | smallReduction => exact Nat.le_succ _
    | iterationLimit => exact Nat.le_succ _
    | noDescent => exact Nat.le_refl _
    | budgetSpent => exact Nat.le_refl _
    | nonFiniteLine => exact Nat.le_refl _
  | onward outcome rest ih =>
    cases continues_of_pass outcome with
    | accepted => exact Nat.le_of_succ_le ih
    | retried => exact ih

theorem Trail.arrival_none (h : Trail p st made result)
    (hstatus : result.status = .lineSearchFailed) (hlast : st.iterations = result.iterations) :
    (p.pass st).search.arrival? = none := by
  cases h with
  | last outcome =>
    cases finishes_of_pass outcome with
    | smallGradient => cases hstatus
    | smallReduction => cases hstatus
    | iterationLimit => cases hstatus
    | noDescent slope houtcome => rw [Search.arrival?, houtcome]
    | budgetSpent best houtcome => rw [Search.arrival?, houtcome]
    | nonFiniteLine houtcome => rw [Search.arrival?, houtcome]
  | onward outcome rest =>
    cases continues_of_pass outcome with
    | accepted t how houtcome =>
      have hle : st.iterations + 1 ≤ result.iterations := rest.iterations_le
      omega
    | retried failed => exact failed

/-- The searches that are made from the last of the iterates of a failed run. -/
structure FromLast (p : Problem α n) (iterates : List (Iterate α n))
    (made : List (Pass α n p.settings.memory)) (result : Result α n)
    (last : Pass α n p.settings.memory) : Prop where
  getLast_eq : made.getLast? = some last
  iterate_eq : iterates.getLast? = some last.entry.iterate
  iterations_eq : last.entry.iterations = result.iterations
  empty : last.entry.store.isEmpty = true
  /-- The result is that iterate or lower. -/
  point : result.point = last.entry.iterate ∨ result.point.f < last.entry.iterate.f
  /-- At most one search comes before the last one, from the same iterate. -/
  few : ∀ k pass, made[k]? = some pass → pass.entry.iterations = result.iterations →
    made.length ≤ k + 2 ∧ pass.entry.iterate = last.entry.iterate
  /-- What is lower than the result was found with corrections, which were then discarded. -/
  lowest : ∀ pass ∈ made, pass.entry.iterations = result.iterations →
    ∀ t ∈ pass.search.trials, t.eval.isFinite = true → t.eval.f < result.point.f →
      pass.entry.store.isEmpty = false

/-- A failed search leaves its best trial, if there is one below the iterate. -/
theorem fromLast_of_finishes [IsStrictOrder α (· < ·)]
    (h : Finishes p st (p.pass st).search result) (hstatus : result.status = .lineSearchFailed) :
    result.iterations = st.iterations ∧ st.store.isEmpty = true ∧
      (result.point = st.iterate ∨ result.point.f < st.iterate.f) ∧
      ∀ t ∈ (p.pass st).search.trials, t.eval.isFinite = true → ¬t.eval.f < result.point.f := by
  cases h with
  | smallGradient => cases hstatus
  | smallReduction => cases hstatus
  | iterationLimit => cases hstatus
  | nonFiniteLine => cases hstatus
  | noDescent slope houtcome corrections =>
    refine ⟨rfl, corrections, .inl rfl, ?_⟩
    rw [search_eq] at houtcome ⊢
    rw [Search.trials_of_notDescent houtcome]
    nofun
  | budgetSpent best houtcome corrections =>
    rw [search_eq] at houtcome
    have hbest := Search.best_of_stalled houtcome
    have hlowest := Search.lowest_bestOf (p.lineFrom st).f0 (p.pass st).search.trials
    rw [search_eq, ← hbest] at hlowest
    have hpoint : ((best.map Trial.iterate).getD st.iterate).f =
        Search.level (p.lineFrom st).f0 best := by
      cases best <;> rfl
    refine ⟨rfl, corrections, ?_, ?_⟩
    · cases best with
      | none => exact .inl rfl
      | some b => exact .inr (hlowest.below b rfl)
    · intro t ht hfinite hless
      change t.eval.f < ((best.map Trial.iterate).getD st.iterate).f at hless
      rw [hpoint] at hless
      exact hlowest.least t ht hfinite hless

omit [Spaced α] in
/-- One more search before: if it is made from the last iterate, it is the only one before the
last, and had corrections. -/
theorem FromLast.cons {its its' : List (Iterate α n)} {here last : Pass α n p.settings.memory}
    (h : FromLast p its made result last) (hits : its'.getLast? = its.getLast?)
    (hhere : here.entry.iterations = result.iterations →
      made.length = 1 ∧ here.entry.iterate = last.entry.iterate ∧
        here.entry.store.isEmpty = false) :
    FromLast p its' (here :: made) result last where
  getLast_eq := by
    rw [List.getLast?_cons, h.getLast_eq]
    rfl
  iterate_eq := hits.trans h.iterate_eq
  iterations_eq := h.iterations_eq
  empty := h.empty
  point := h.point
  few := by
    intro k pass hk hit
    cases k with
    | zero =>
      cases hk
      obtain ⟨hlength, hsame, -⟩ := hhere hit
      rw [List.length_cons, hlength]
      exact ⟨Nat.le_refl 2, hsame⟩
    | succ k =>
      obtain ⟨hlength, hsame⟩ := h.few k pass hk hit
      exact ⟨Nat.succ_le_succ hlength, hsame⟩
  lowest := by
    intro pass hpass hit
    rcases List.mem_cons.mp hpass with rfl | hlater
    · exact fun _ _ _ _ => (hhere hit).2.2
    · exact h.lowest pass hlater hit

theorem Trail.fromLast [IsStrictOrder α (· < ·)] (h : Trail p st made result)
    (hstatus : result.status = .lineSearchFailed) :
    ∃ last, FromLast p (st.iterate :: arrivals made) made result last := by
  induction h with
  | @last st result outcome =>
    obtain ⟨hiterations, hempty, hpoint, hlowest⟩ :=
      fromLast_of_finishes (finishes_of_pass outcome) hstatus
    have hnone : (p.pass st).search.arrival? = none :=
      Trail.arrival_none (.last outcome) hstatus hiterations.symm
    refine ⟨p.pass st, ?_⟩
    exact
      { getLast_eq := rfl
        iterate_eq := by
          rw [arrivals_cons_none hnone]
          rfl
        iterations_eq := hiterations.symm
        empty := hempty
        point := hpoint
        few := by
          intro k pass hk _
          cases k with
          | zero =>
            cases hk
            exact ⟨Nat.le_succ 1, rfl⟩
          | succ k => cases hk
        lowest := by
          intro pass hpass _ t ht hfinite hless
          cases List.mem_singleton.mp hpass
          exact absurd hless (hlowest t ht hfinite) }
  | @onward st next later result outcome rest ih =>
    obtain ⟨last, hlast⟩ := ih hstatus
    refine ⟨last, ?_⟩
    cases continues_of_pass outcome with
    | accepted t how houtcome =>
      have hmore : st.iterations + 1 ≤ result.iterations := rest.iterations_le
      apply hlast.cons
      · rw [arrivals_cons (Search.arrival?_of_accepted houtcome)]
        exact List.getLast?_cons_cons
      · intro hit
        change st.iterations = result.iterations at hit
        omega
    | retried failed corrections =>
      apply hlast.cons
      · rw [arrivals_cons_none failed]
      · intro hit
        -- the search made again fails too, without corrections
        have hagain := rest.arrival_none hstatus hit
        obtain ⟨-, hsame⟩ := hlast.few 0 _ rest.head_eq hit
        exact ⟨rest.length_of_failed rfl hagain, hsame, corrections⟩

/-! ### A run that forgets a trial -/

noncomputable def quartic : Objective ℝ 1 := fun _ x => (x.head ^ 4, #[4 * x.head ^ 3])

/-- Every search makes a single trial. -/
noncomputable def shortProblem : Problem ℝ 1 where
  settings := { Settings.default with curvature := 0.2, maxSearchEvals := 1 }
  objective := quartic
  box := .unbounded 1

theorem sound_shortProblem : shortProblem.settings.Sound :=
  { Settings.sound_default_real with
    maxSearchEvals_pos := Nat.one_pos
    decrease_lt := by norm_num [shortProblem, Settings.default]
    curvature_lt := by norm_num [shortProblem, Settings.default] }

noncomputable def quarticAt (a : ℝ) : Iterate ℝ 1 := { x := #v[a], f := a ^ 4, g := #v[4 * a ^ 3] }

noncomputable def quarticLine (a d : ℝ) : Line ℝ 1 where
  box := .unbounded 1
  x := #v[a]
  d := #v[d]
  f0 := a ^ 4
  slope := dot #v[4 * a ^ 3] #v[d]
  stpmax := bigStep

def QuarticWolfe (a d stp : ℝ) : Prop :=
  (a + stp * d) ^ 4 ≤ a ^ 4 + stp * (1e-3 * (4 * a ^ 3 * d)) ∧
    |4 * (a + stp * d) ^ 3 * d| ≤ 0.2 * -(4 * a ^ 3 * d)

section

variable {a d stp : ℝ} {k : Nat}

theorem iterate_trial_quartic :
    ((quarticLine a d).trial quartic k stp).iterate = quarticAt (a + stp * d) := by
  have hpoint : (quarticLine a d).point stp = #v[a + stp * d] := by
    rw [Line.point, quarticLine, Box.project_unbounded]
    rfl
  rw [Trial.iterate, Line.trial, hpoint]
  rfl

theorem isFinite_trial_quartic : ((quarticLine a d).trial quartic k stp).eval.isFinite = true :=
  (Evaluation.isFinite_real _).trans rfl

theorem wolfe_quartic {t : Trial ℝ 1} (hit : t.iterate = quarticAt (a + t.stp * d)) :
    (t.eval.f ≤ (quarticLine a d).testValue shortProblem.settings.search t.stp ∧
      Scalar.abs (dot t.eval.g (quarticLine a d).d) ≤
        shortProblem.settings.search.gtol * -(quarticLine a d).slope) ↔
      QuarticWolfe a d t.stp := by
  have hf : t.eval.f = (a + t.stp * d) ^ 4 := congrArg Iterate.f hit
  have hg : t.eval.g = #v[4 * (a + t.stp * d) ^ 3] := congrArg Iterate.g hit
  rw [hf, hg, Line.testValue, Line.testSlope, quarticLine, dot_singleton, dot_singleton]
  exact Iff.rfl

theorem gradient_quarticAt (h : 1e-5 < |4 * a ^ 3|) :
    shortProblem.gradientIsSmall (quarticAt a) = false := by
  have hnorm : shortProblem.pgNorm (quarticAt a) = |4 * a ^ 3| := by
    rw [pgNorm, shortProblem, Box.projectedGradientNorm, Box.projectedGradient_unbounded]
    change Scalar.larger (0 : ℝ) |4 * a ^ 3| = |4 * a ^ 3|
    rw [Scalar.larger_real, max_eq_right (abs_nonneg _)]
  rw [gradientIsSmall, hnorm]
  exact decide_eq_false (not_le.mpr h)

variable [Spaced ℝ] {calls : Nat}

theorem search_quartic (hslope : a ^ 3 * d < 0) (hstp : stp ≤ 1)
    (hnear : ∀ stp : ℝ, stp ≤ 1 → Spaced.near 4 stp bigStep = false) :
    ∃ t : Trial ℝ 1, t.iterate = quarticAt (a + stp * d) ∧ t.eval.isFinite = true ∧
      let s := Search.of (quarticLine a d) shortProblem.settings.search quartic calls stp
      s.trials = [t] ∧
        (QuarticWolfe a d stp → s.outcome = .accepted t .wolfe) ∧
        (¬QuarticWolfe a d stp → s.outcome = .stalled (Search.bestOf (a ^ 4) [t])) := by
  have hbig : (1 : ℝ) ≤ bigStep := le_of_lt one_lt_bigStep
  have hfirst : Scalar.smaller stp (quarticLine a d).stpmax = stp := by
    rw [Scalar.smaller_real]
    exact min_eq_left (le_trans hstp hbig)
  have hdown : (quarticLine a d).slope < 0 := by
    rw [quarticLine, dot_singleton, mul_assoc]
    exact mul_neg_of_pos_of_neg four_pos hslope
  let t := (quarticLine a d).trial quartic (calls + 1) stp
  have hsearch : Search.of (quarticLine a d) shortProblem.settings.search quartic calls stp = _ :=
    Search.of_single hdown rfl
  rw [hfirst] at hsearch
  have hwolfe := wolfe_quartic (t := t) iterate_trial_quartic
  refine ⟨t, iterate_trial_quartic, isFinite_trial_quartic, ?_⟩
  rw [hsearch]
  refine ⟨rfl, fun h => ?_, fun h => ?_⟩
  · rw [Verdict.accept_of_wolfe isFinite_trial_quartic (hwolfe.mpr h)]
  · obtain ⟨phase', stp', hnext⟩ := Verdict.next_of_begin isFinite_trial_quartic
      (fun hw => h (hwolfe.mp hw)) (hnear stp hstp) stp
    dsimp only
    rw [hnext]
    exact if_pos isFinite_trial_quartic

variable [DenseSolver ℝ] {st : shortProblem.State} (hplain : (shortProblem.pass st).Plain)
  (hnear : ∀ stp : ℝ, stp ≤ 1 → Spaced.near 4 stp bigStep = false)

include hplain hnear

/-- The single trial of a pass is accepted or its search stalls. -/
theorem pass_quartic (hit : st.iterate = quarticAt a)
    (hd : coords (st.store.applyInverse st.iterate.g) 0 = -d)
    (hfirst : (if st.iterations = 0 then 1 / |d| else 1) = stp) (hslope : a ^ 3 * d < 0)
    (hstp : stp ≤ 1) :
    ∃ t : Trial ℝ 1, t.iterate = quarticAt (a + stp * d) ∧ t.eval.isFinite = true ∧
      let s := (shortProblem.pass st).search
      s.trials = [t] ∧
        (QuarticWolfe a d stp → s.outcome = .accepted t .wolfe) ∧
        (¬QuarticWolfe a d stp → s.outcome = .stalled (Search.bestOf (a ^ 4) [t])) := by
  have hbig : (1 : ℝ) ≤ bigStep := le_of_lt one_lt_bigStep
  have hneg : -(st.store.applyInverse st.iterate.g) = #v[d] := by
    apply eq_of_one_variable
    rw [coords_neg, Pi.neg_apply, hd]
    exact neg_neg d
  have hunit : (if st.iterations = 0 then
      Scalar.smaller (1 / Scalar.sqrt (dot #v[d] #v[d])) bigStep else 1) = stp := by
    rw [← hfirst]
    split
    · rename_i hzero
      rw [if_pos hzero] at hfirst
      rw [sqrt_dot_singleton, Scalar.smaller_real, hfirst, min_eq_left (le_trans hstp hbig)]
    · rfl
  rw [search_eq_plainSearch rfl Nat.one_pos hplain, plainSearch, hneg, hunit, hit]
  exact search_quartic hslope hstp hnear

/-- From 2 a pass goes to 1. -/
theorem pass_quartic_two [CompleteFactor] (hit : st.iterate = quarticAt 2)
    (hiterations : st.iterations = 0) (hstore : st.store = Store.empty) :
    ∃ next, (shortProblem.pass st).outcome = .next next ∧ next.iterate = quarticAt 1 ∧
      next.iterations = 1 ∧ next.store.pairs = [Store.correction #v[-1] #v[-28]] ∧
      ∃ t, (shortProblem.pass st).search.outcome = .accepted t .wolfe := by
  have hd : coords (st.store.applyInverse st.iterate.g) 0 = -(-32) := by
    rw [hstore, Store.coords_applyInverse_empty, hit]
    change (4 * 2 ^ 3 : ℝ) = _
    norm_num
  have hfirst : (if st.iterations = 0 then 1 / |(-32 : ℝ)| else 1) = 1 / 32 := by
    rw [if_pos hiterations]
    norm_num
  obtain ⟨t, ht, -, -, haccepted, -⟩ :=
    pass_quartic hplain hnear hit hd hfirst (by norm_num) (by norm_num)
  have hone : t.iterate = quarticAt 1 := by
    rw [ht]
    norm_num
  have hwolfe : QuarticWolfe 2 (-32) (1 / 32) := by
    constructor <;> norm_num
  have hgradient : shortProblem.gradientIsSmall t.iterate = false := by
    rw [hone]
    apply gradient_quarticAt
    norm_num
  have hreduction : shortProblem.reductionIsSmall st.iterate.f t.iterate.f = false := by
    rw [hone, hit]
    apply decide_eq_false
    rw [Scalar.larger_real, Scalar.larger_real]
    change ¬(2 ^ 4 - 1 ^ 4 : ℝ) ≤ 1e7 * Scalar.epsilon * max (max |2 ^ 4| |1 ^ 4|) 1
    norm_num [Scalar.epsilon]
  have hroom : st.iterations + 1 < shortProblem.settings.maxIterations := by
    rw [hiterations]
    norm_num [shortProblem, Settings.default]
  refine ⟨_, outcome_of_accepted (haccepted hwolfe) hgradient hreduction hroom, hone, ?_, ?_, t,
    haccepted hwolfe⟩
  · exact congrArg Nat.succ hiterations
  · have hstep : t.iterate.x - st.iterate.x = #v[-1] := by
      rw [hone, hit]
      apply eq_of_one_variable
      rw [coords_sub]
      change (1 - 2 : ℝ) = -1
      norm_num
    have hchange : t.iterate.g - st.iterate.g = #v[-28] := by
      rw [hone, hit]
      apply eq_of_one_variable
      rw [coords_sub]
      change (4 * 1 ^ 3 - 4 * 2 ^ 3 : ℝ) = -28
      norm_num
    have hcurvature : (Scalar.epsilon : ℝ) * dot #v[-28] #v[-28] < dot #v[-1] #v[-28] := by
      rw [dot_singleton, dot_singleton]
      norm_num [Scalar.epsilon]
    have htabulated : st.store.Tabulated := by
      rw [hstore]
      exact (Store.consistent_empty sound_shortProblem.memory_pos).toTabulated
    rw [hstep, hchange, (htabulated.push_of_curvature hcurvature).2, hstore]
    rfl

/-- From 1 a search with that pair finds 6/7, which is then forgotten. -/
theorem pass_quartic_one (hit : st.iterate = quarticAt 1) (hiterations : st.iterations = 1)
    (hstore : st.store.Tabulated)
    (hpairs : st.store.pairs = [Store.correction #v[-1] #v[-28]]) :
    st.store.isEmpty = false ∧
    (∃ next, (shortProblem.pass st).outcome = .next next ∧ next.iterate = quarticAt 1 ∧
      next.iterations = 1 ∧ next.store = Store.empty) ∧
    (shortProblem.pass st).search.arrival? = none ∧
    ∃ t ∈ (shortProblem.pass st).search.trials, t.eval.isFinite = true ∧ t.eval.f < 1 := by
  have hd : coords (st.store.applyInverse st.iterate.g) 0 = -(-1 / 7) := by
    have hparallel : coords st.iterate.g = (-1 / 7 : ℝ) • coords #v[-28] := by
      rw [hit]
      funext i
      rw [Subsingleton.elim i 0, Pi.smul_apply]
      change (4 * 1 ^ 3 : ℝ) = -1 / 7 * -28
      norm_num
    have hnewest : st.store.pairs = [] ++ [Store.correction #v[-1] #v[-28]] := hpairs
    rw [hstore.applyInverse_newest hnewest hparallel]
    change (-1 / 7 : ℝ) * -1 = _
    norm_num
  have hfirst : (if st.iterations = 0 then 1 / |(-1 / 7 : ℝ)| else 1) = 1 := by
    rw [hiterations]
    rfl
  obtain ⟨t, ht, hfinite, htrials, -, hstalled⟩ :=
    pass_quartic hplain hnear hit hd hfirst (by norm_num) (by norm_num)
  have hwolfe : ¬QuarticWolfe 1 (-1 / 7) 1 := by
    intro h
    have hflat := h.2
    norm_num [abs_of_neg] at hflat
  have hsome : st.store.isEmpty = false := Store.isEmpty_of_single hpairs
  have hnext := outcome_of_stalled (hstalled hwolfe)
  rw [failSearch, hsome, if_neg Bool.false_ne_true] at hnext
  have hfailed : (shortProblem.pass st).search.arrival? = none := by
    rw [Search.arrival?, hstalled hwolfe]
  refine ⟨hsome, ⟨_, hnext, hit, hiterations, Store.clear_eq_empty _⟩, hfailed, t, ?_, hfinite, ?_⟩
  · rw [htrials]
    exact List.mem_singleton_self t
  · have hf : t.eval.f = (1 + 1 * (-1 / 7)) ^ 4 := congrArg Iterate.f ht
    rw [hf]
    norm_num

/-- From 1 a search without corrections finds nothing lower. -/
theorem pass_quartic_end (hit : st.iterate = quarticAt 1) (hiterations : st.iterations = 1)
    (hstore : st.store = Store.empty) :
    ∃ result, (shortProblem.pass st).outcome = .stop result ∧ result.point = quarticAt 1 ∧
      result.iterations = 1 ∧ result.status = .lineSearchFailed := by
  have hd : coords (st.store.applyInverse st.iterate.g) 0 = -(-4) := by
    rw [hstore, Store.coords_applyInverse_empty, hit]
    change (4 * 1 ^ 3 : ℝ) = _
    norm_num
  have hfirst : (if st.iterations = 0 then 1 / |(-4 : ℝ)| else 1) = 1 := by
    rw [hiterations]
    rfl
  obtain ⟨t, ht, -, -, -, hstalled⟩ :=
    pass_quartic hplain hnear hit hd hfirst (by norm_num) (by norm_num)
  have hf : t.eval.f = (1 + 1 * -4) ^ 4 := congrArg Iterate.f ht
  have hwolfe : ¬QuarticWolfe 1 (-4) 1 := by
    intro h
    have hdrop := h.1
    norm_num at hdrop
  have hnone : Search.bestOf (1 ^ 4) [t] = none := by
    have habove : ¬t.eval.f < 1 ^ 4 := by
      rw [hf]
      norm_num
    rw [Search.bestOf, List.foldl_cons, List.foldl_nil, decide_eq_false habove, Bool.and_false]
    rfl
  have hempty : st.store.isEmpty = true := by
    rw [hstore]
    rfl
  have hstop := outcome_of_stalled (hstalled hwolfe)
  rw [hnone, failSearch, hempty, if_pos rfl] at hstop
  exact ⟨_, hstop, hit, hiterations, rfl⟩

end

theorem solves_quartic [DenseSolver ℝ] [ExactProposal] {cap : Nat} {store : Store ℝ 1 cap}
    (h : store.Tabulated) (hpairs : store.pairs = [Store.correction #v[-1] #v[-28]])
    {free : List (Fin 1)} (hfree : free = [0]) (r : Vector ℝ free.length) :
    SubspaceStep.Solves store free r := by
  refine SubspaceStep.solves_of_single h hpairs (t := 28) (u := 56) (v := 28) (w := 0) (c := 56)
    ?_ ?_ ?_ ?_ ?_ ?_ ?_ ?_ ?_ r
  · rw [dot_singleton, dot_singleton]
    norm_num
  · rw [dot_singleton, hfree]
    norm_num
  · rw [hfree]
    norm_num
  · rw [dot_singleton, hfree]
    norm_num
  · norm_num
  · norm_num
  · norm_num
  · norm_num
  · norm_num [SubspaceStep.conditionLimit]

/-- From 2 the run goes to 1, where it ends after two searches. -/
theorem run_quartic :
    let _ := DenseSolver.symmetric ℝ
    let _ : Spaced ℝ := ⟨fun _ a b => decide (a = b)⟩
    let run := shortProblem.run #v[2]
    run.result.status = .lineSearchFailed ∧ run.result.iterations = 1 ∧
      run.result.point = quarticAt 1 ∧
      (∃ pass ∈ run.passes, ∃ t, pass.search.outcome = .accepted t .wolfe) ∧
      ∃ pass ∈ run.passes, pass.entry.iterations = 1 ∧ pass.entry.store.isEmpty = false ∧
        pass.search.arrival? = none ∧
          ∃ t ∈ pass.search.trials, t.eval.isFinite = true ∧ t.eval.f < 1 := by
  intro solver spaced run
  have hexact : ExactFactor ℝ := exactFactor_symmetric
  have hproposal : ExactProposal := exactProposal_symmetric
  have hcomplete : CompleteFactor := completeFactor_symmetric
  have hsettings := sound_shortProblem
  have hnear : ∀ stp : ℝ, stp ≤ 1 → Spaced.near 4 stp bigStep = false := by
    intro stp hstp
    exact decide_eq_false (ne_of_lt (lt_of_le_of_lt hstp one_lt_bigStep))
  have hfinite : (shortProblem.firstTrial #v[2]).eval.isFinite = true :=
    (Evaluation.isFinite_real _).trans rfl
  have hit : (shortProblem.firstTrial #v[2]).iterate = quarticAt 2 := by
    rw [Trial.iterate, firstTrial, shortProblem, Box.project_unbounded]
    rfl
  have hlarge : shortProblem.gradientIsSmall (shortProblem.firstTrial #v[2]).iterate = false := by
    rw [hit]
    apply gradient_quarticAt
    norm_num
  have hready₀ :
      Ready shortProblem (shortProblem.initial (shortProblem.firstTrial #v[2]).iterate) :=
    ready_initial hsettings hlarge
  obtain ⟨st₁, h₁, hit₁, hiterations₁, hpairs₁, haccepted⟩ :=
    pass_quartic_two (plain_pass rfl hready₀.store (Pass.solves_of_isEmpty rfl)) hnear hit rfl rfl
  have hready₁ := hready₀.next hsettings (continues_of_pass h₁)
  have hsolves₁ : (shortProblem.pass st₁).Solves :=
    solves_quartic hready₁.store.toTabulated hpairs₁ CauchySearch.free_unbounded _
  obtain ⟨hsome, ⟨st₂, h₂, hit₂, hiterations₂, hstore₂⟩, hfailed, t, ht, hlower⟩ :=
    pass_quartic_one (plain_pass rfl hready₁.store hsolves₁) hnear hit₁ hiterations₁
      hready₁.store.toTabulated hpairs₁
  have hready₂ := hready₁.next hsettings (continues_of_pass h₂)
  have hempty₂ : st₂.store.isEmpty = true := by
    rw [hstore₂]
    rfl
  obtain ⟨result, hend, hpoint, hiterations, hstatus⟩ :=
    pass_quartic_end (plain_pass rfl hready₂.store (Pass.solves_of_isEmpty hempty₂)) hnear hit₂
      hiterations₂ hstore₂
  have hrun := run_of_passes hfinite hlarge
  rw [passes_of_next h₁, passes_of_next h₂, passes_of_stop hend] at hrun
  simp only [run, hrun]
  refine ⟨hstatus, hiterations, hpoint, ⟨_, List.mem_cons_self, haccepted⟩,
    shortProblem.pass st₁, ?_, hiterations₁, hsome, hfailed, t, ht, hlower⟩
  exact List.mem_cons_of_mem _ List.mem_cons_self

/-! ### Whole runs -/

/-- A run that finds no acceptable step returns the best point of its last search, or the last
iterate if that is not improved on.  A lower point can only be one of the search before, from the
same iterate, which failed with corrections and was made again without them. -/
theorem run_returns_best [IsStrictOrder α (· < ·)] (p : Problem α n) (x0 : Vector α n)
    (hstatus : (p.run x0).result.status = .lineSearchFailed) :
    ∃ last, FromLast p (p.run x0).iterates (p.run x0).passes (p.run x0).result last := by
  cases hfinite : (p.firstTrial x0).eval.isFinite with
  | false =>
    rw [run_of_not_finite hfinite] at hstatus
    cases hstatus
  | true =>
    cases hgradient : p.gradientIsSmall (p.firstTrial x0).iterate with
    | true =>
      rw [run_of_small hfinite hgradient] at hstatus
      cases hstatus
    | false =>
      rw [run_of_passes hfinite hgradient] at hstatus ⊢
      exact (trail_passes _).fromLast hstatus

theorem run_returns_best_of_quartic :
    let _ := DenseSolver.symmetric ℝ
    let _ : Spaced ℝ := ⟨fun _ a b => decide (a = b)⟩
    let run := shortProblem.run #v[2]
    IsStrictOrder ℝ (· < ·) ∧ run.result.status = .lineSearchFailed ∧
      ∃ last, FromLast shortProblem run.iterates run.passes run.result last := by
  intro solver spaced run
  have hstatus : run.result.status = .lineSearchFailed := run_quartic.1
  exact ⟨inferInstance, hstatus, run_returns_best shortProblem #v[2] hstatus⟩

/-- The lower point of the search before the last one is not what is returned. -/
theorem run_forgets_lower :
    let _ := DenseSolver.symmetric ℝ
    let _ : Spaced ℝ := ⟨fun _ a b => decide (a = b)⟩
    let run := shortProblem.run #v[2]
    shortProblem.settings.check = .ok () ∧ run.result.status = .lineSearchFailed ∧
      ¬∀ pass ∈ run.passes, pass.entry.iterations = run.result.iterations →
        ∀ t ∈ pass.search.trials, t.eval.isFinite = true → ¬t.eval.f < run.result.point.f := by
  intro solver spaced run
  obtain ⟨hstatus, hiterations, hpoint, -, pass, hpass, hlast, -, -, t, ht, hfinite, hlower⟩ :=
    run_quartic
  refine ⟨Settings.check_eq_ok_iff.mpr sound_shortProblem, hstatus, fun hnone => ?_⟩
  apply hnone pass hpass (hlast.trans hiterations.symm) t ht hfinite
  rw [hpoint]
  exact lt_of_lt_of_eq hlower (one_pow 4).symm

end Problem

end BoxDescent
