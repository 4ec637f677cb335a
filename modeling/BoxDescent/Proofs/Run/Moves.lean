import BoxDescent.Proofs.LineSearch.Collapse
import BoxDescent.Proofs.Run.Best

/-!
# Iterations that move

With a bracket tolerance below one every accepted trial has a positive step.  It is made on the
line, so some variable changes, and a run does not converge without having moved.
-/

namespace BoxDescent

variable {n : Nat}

namespace Problem

/-! ### Steps of a pass -/

theorem firstStep_pos (p : Problem ℝ n) (iterations : Nat) {d : Vector ℝ n} (hd : coords d ≠ 0)
    {stpmax : ℝ} (hmax : 0 < stpmax) : 0 < p.firstStep iterations d stpmax := by
  unfold firstStep
  split
  · rw [Scalar.smaller_real]
    have hlength : 0 < dot d d := by
      apply lt_of_le_of_ne (dot_self_nonneg d)
      intro hzero
      exact hd (dot_self_eq_zero.mp hzero.symm)
    exact lt_min (one_div_pos.mpr (Real.sqrt_pos.mpr hlength)) hmax
  · exact one_pos

variable [DenseSolver ℝ] [Spaced ℝ]

/-- An accepted trial has a positive step, at most the longest one, and another point. -/
theorem moves_of_accepted [ExactFactor ℝ] {p : Problem ℝ n} {st : p.State}
    (hsettings : p.settings.Sound) (hcollapse : p.settings.bracketTolerance < 1)
    (hready : Ready p st) {t : Trial ℝ n} {how : Acceptance}
    (h : (p.pass st).search.outcome = .accepted t how) :
    0 < t.stp ∧ t.stp ≤ (p.lineFrom st).stpmax ∧ t.x ≠ st.iterate.x := by
  rw [search_eq] at h
  have hmem := (Search.mem_of_accepted h).1
  have hslope : (p.lineFrom st).slope < 0 := (Search.probed_of_accepted h).1
  have hd : coords (p.lineFrom st).d ≠ 0 := by
    intro hzero
    have hflat : (p.lineFrom st).slope = 0 := by
      change dot st.iterate.g (p.lineFrom st).d = 0
      rw [dot_eq, hzero, dotProduct_zero]
    exact absurd hslope (not_lt.mpr (le_of_eq hflat.symm))
  have hftol : p.settings.search.ftol < 1 :=
    lt_trans hsettings.decrease_lt hsettings.curvature_lt
  have hmax : 0 < (p.lineFrom st).stpmax := p.longestStep_pos _ _ _
  obtain ⟨hpos, hle, -⟩ := Search.ahead_of_mem hftol hcollapse hmax
    (p.firstStep_pos st.iterations hd hmax) hmem
  refine ⟨hpos, hle, ?_⟩
  intro heq
  have hpoint : coords t.x = coords st.iterate.x + t.stp • coords (p.lineFrom st).d := by
    rw [← coords_addScaled, (point_of_mem hready.contains hmem).2.2]
  rw [heq, left_eq_add] at hpoint
  exact hd ((smul_eq_zero.mp hpoint).resolve_left (ne_of_gt hpos))

/-! ### Runs -/

section

variable {p : Problem ℝ n} {st : p.State} {made : List (Pass ℝ n p.settings.memory)}
  {result : Result ℝ n}

theorem Trail.chain (h : Trail p st made result)
    (hmoves : ∀ pass ∈ made, ∀ t how, pass.search.outcome = .accepted t how →
      t.x ≠ pass.entry.iterate.x) :
    (st.iterate :: arrivals made).IsChain fun before after => after.x ≠ before.x := by
  induction h with
  | @last st result outcome =>
    cases harrival : (p.pass st).search.arrival? with
    | none =>
      rw [arrivals_cons_none harrival]
      exact .singleton _
    | some it =>
      obtain ⟨t, how, houtcome, rfl⟩ := Search.accepted_of_arrival? harrival
      rw [arrivals_cons harrival]
      exact .cons_cons (hmoves _ List.mem_cons_self t how houtcome) (.singleton _)
  | @onward st next later result outcome rest ih =>
    have hlater := ih fun pass hpass => hmoves pass (List.mem_cons_of_mem _ hpass)
    cases continues_of_pass outcome with
    | accepted t how houtcome =>
      rw [arrivals_cons (Search.arrival?_of_accepted houtcome)]
      exact .cons_cons (hmoves _ List.mem_cons_self t how houtcome) hlater
    | retried failed =>
      rw [arrivals_cons_none failed]
      exact hlater

/-- A run that stops for a small reduction stops at its last iterate, and there is one before. -/
theorem Trail.last_two (h : Trail p st made result) (hreason : result.reason = .smallReduction) :
    ∃ its before, st.iterate :: arrivals made = its ++ [before, result.point] := by
  induction h with
  | @last st result outcome =>
    cases finishes_of_pass outcome with
    | smallReduction t how houtcome =>
      rw [arrivals_cons (Search.arrival?_of_accepted houtcome)]
      exact ⟨[], st.iterate, rfl⟩
    | _ => cases hreason
  | @onward st next later result outcome rest ih =>
    obtain ⟨its, before, hits⟩ := ih hreason
    cases continues_of_pass outcome with
    | accepted t how houtcome =>
      rw [arrivals_cons (Search.arrival?_of_accepted houtcome)]
      exact ⟨st.iterate :: its, before, congrArg (List.cons _) hits⟩
    | retried failed =>
      rw [arrivals_cons_none failed]
      exact ⟨its, before, hits⟩

end

structure Moves (p : Problem ℝ n) (run : Run ℝ n p.settings.memory) : Prop where
  accepted : ∀ pass ∈ run.passes, ∀ t how, pass.search.outcome = .accepted t how →
    0 < t.stp ∧
      t.stp ≤ p.longestStep pass.entry.iterations pass.entry.iterate.x
        (pass.step.direction pass.entry.iterate.x) ∧
      t.x ≠ pass.entry.iterate.x
  iterates : run.iterates.IsChain fun before after => after.x ≠ before.x
  reduction : run.result.reason = .smallReduction →
    ∃ its before, run.iterates = its ++ [before, run.result.point] ∧
      run.result.point.x ≠ before.x

/-- With a bracket tolerance below one every accepted iteration moves. -/
theorem run_moves [ExactFactor ℝ] (p : Problem ℝ n) (x0 : Vector ℝ n)
    (hcheck : p.settings.check = .ok ()) (hcollapse : p.settings.bracketTolerance < 1) :
    Moves p (p.run x0) := by
  have hsettings := Settings.check_eq_ok_iff.mp hcheck
  have haccepted : ∀ pass ∈ (p.run x0).passes, ∀ t how, pass.search.outcome = .accepted t how →
      0 < t.stp ∧
        t.stp ≤ p.longestStep pass.entry.iterations pass.entry.iterate.x
          (pass.step.direction pass.entry.iterate.x) ∧
        t.x ≠ pass.entry.iterate.x := by
    intro pass hpass t how houtcome
    obtain ⟨hready, hpassEq⟩ := ready_of_mem_passes hsettings hpass
    rw [hpassEq] at houtcome ⊢
    exact moves_of_accepted hsettings hcollapse hready houtcome
  have hmoves : ∀ pass ∈ (p.run x0).passes, ∀ t how, pass.search.outcome = .accepted t how →
      t.x ≠ pass.entry.iterate.x := fun pass hpass t how houtcome =>
    (haccepted pass hpass t how houtcome).2.2
  suffices hrest : (p.run x0).iterates.IsChain (fun before after => after.x ≠ before.x) ∧
      ((p.run x0).result.reason = .smallReduction →
        ∃ its before, (p.run x0).iterates = its ++ [before, (p.run x0).result.point]) by
    refine { accepted := haccepted, iterates := hrest.1, reduction := fun hreason => ?_ }
    obtain ⟨its, before, hits⟩ := hrest.2 hreason
    have hlast := hrest.1
    rw [hits] at hlast
    have hpair := hlast.right_of_append
    exact ⟨its, before, hits, (List.isChain_cons_cons.mp hpair).1⟩
  cases hfinite : (p.firstTrial x0).eval.isFinite with
  | false =>
    rw [run_of_not_finite hfinite]
    exact ⟨.singleton _, nofun⟩
  | true =>
    cases hgradient : p.gradientIsSmall (p.firstTrial x0).iterate with
    | true =>
      rw [run_of_small hfinite hgradient]
      exact ⟨.singleton _, nofun⟩
    | false =>
      rw [run_of_passes hfinite hgradient] at hmoves ⊢
      have htrail := trail_passes (p.initial (p.firstTrial x0).iterate)
      exact ⟨htrail.chain hmoves, htrail.last_two⟩

omit [DenseSolver ℝ] [Spaced ℝ] in
theorem run_moves_of_quartic :
    let _ := DenseSolver.symmetric ℝ
    let _ : Spaced ℝ := ⟨fun _ a b => decide (a = b)⟩
    let p := shortProblem
    ExactFactor ℝ ∧ p.settings.check = .ok () ∧ p.settings.bracketTolerance < 1 ∧
      (∃ pass ∈ (p.run #v[2]).passes, ∃ t how, pass.search.outcome = .accepted t how ∧
        0 < t.stp ∧ t.x ≠ pass.entry.iterate.x) ∧ Moves p (p.run #v[2]) := by
  intro solver spaced p
  have hexact : ExactFactor ℝ := exactFactor_symmetric
  have hcheck : p.settings.check = .ok () := Settings.check_eq_ok_iff.mpr sound_shortProblem
  have hcollapse : p.settings.bracketTolerance < 1 := by
    norm_num [p, shortProblem, Settings.default]
  have hmoves := run_moves p #v[2] hcheck hcollapse
  obtain ⟨-, -, -, ⟨pass, hpass, t, houtcome⟩, -⟩ := run_quartic
  obtain ⟨hpos, -, hother⟩ := hmoves.accepted pass hpass t _ houtcome
  exact ⟨hexact, hcheck, hcollapse, ⟨pass, hpass, t, _, houtcome, hpos, hother⟩, hmoves⟩

/-! ### A run that does not move -/

noncomputable def doubledSquare : Objective ℝ 1 := fun _ x => (2 * x.head ^ 2, #[4 * x.head])

/-- The settings pass their check, but every interval counts as collapsed. -/
noncomputable def collapsedProblem : Problem ℝ 1 where
  settings := { Settings.default with bracketTolerance := 1 }
  objective := doubledSquare
  box := .unbounded 1

omit [DenseSolver ℝ] [Spaced ℝ] in
theorem sound_collapsedProblem : collapsedProblem.settings.Sound :=
  { Settings.sound_default_real with
    bracketTolerance_pos := one_pos
    bracketTolerance_finite := rfl }

omit [DenseSolver ℝ] [Spaced ℝ] in
theorem reductionIsSmall_self {p : Problem ℝ n} (hsettings : p.settings.Sound) (f : ℝ) :
    p.reductionIsSmall f f = true := by
  apply decide_eq_true
  rw [sub_self, Scalar.larger_real]
  have hscale : (0 : ℝ) ≤ max (Scalar.larger (Scalar.abs f) (Scalar.abs f)) 1 :=
    le_trans zero_le_one (le_max_right _ _)
  exact mul_nonneg
    (le_of_lt (mul_pos hsettings.reductionFactor_pos Scalar.epsilon_pos)) hscale

omit [DenseSolver ℝ] [Spaced ℝ] in
/-- The parabola's minimum is not at the start, and yet its run stays there and converges. -/
theorem run_stays_collapsed :
    let _ := DenseSolver.symmetric ℝ
    let _ : Spaced ℝ := ⟨fun _ a b => decide (a = b)⟩
    let p := collapsedProblem
    let run := p.run #v[1 / 4]
    p.settings.check = .ok () ∧
      (∃ pass ∈ run.passes, ∃ t how, pass.search.outcome = .accepted t how ∧ t.stp = 0 ∧
        t.x = pass.entry.iterate.x) ∧
      run.result.reason = .smallReduction ∧ run.result.point.x = #v[1 / 4] ∧
      ¬run.result.pgNorm ≤ p.settings.gradientTolerance := by
  intro solver spaced p run
  have hexact : ExactFactor ℝ := exactFactor_symmetric
  have hsettings : p.settings.Sound := sound_collapsedProblem
  have hcheck : p.settings.check = .ok () := Settings.check_eq_ok_iff.mpr hsettings
  have hfinite : (p.firstTrial #v[1 / 4]).eval.isFinite = true :=
    (Evaluation.isFinite_real _).trans rfl
  have hnorm : p.pgNorm (p.firstTrial #v[1 / 4]).iterate = 1 := by
    rw [pgNorm, Box.projectedGradientNorm]
    change maxAbs ((Box.unbounded 1).projectedGradient _ _) = 1
    rw [Box.projectedGradient_unbounded]
    change Scalar.larger (0 : ℝ) |4 * (1 / 4)| = 1
    rw [Scalar.larger_real]
    norm_num
  have hlarge : p.gradientIsSmall (p.firstTrial #v[1 / 4]).iterate = false := by
    rw [gradientIsSmall, hnorm]
    apply decide_eq_false
    norm_num [p, collapsedProblem, Settings.default]
  let st : p.State := p.initial (p.firstTrial #v[1 / 4]).iterate
  have hplain : (p.pass st).Plain :=
    plain_pass rfl (Store.consistent_empty hsettings.memory_pos) fun h => Bool.noConfusion h
  have hd : -(st.store.applyInverse st.iterate.g) = #v[-1] := by
    have hempty : st.store = Store.empty := rfl
    apply eq_of_one_variable
    rw [coords_neg, hempty, Store.coords_applyInverse_empty]
    change -(4 * (1 / 4) : ℝ) = -1
    norm_num
  have hone : (1 : ℝ) ≤ bigStep := le_of_lt one_lt_bigStep
  have hfirst : Scalar.smaller (1 / Scalar.sqrt (dot #v[-1] #v[-1])) bigStep = (1 : ℝ) := by
    rw [sqrt_dot_singleton, abs_neg, abs_one, Scalar.smaller_real, div_one, min_eq_left hone]
  obtain ⟨t, how, houtcome, hstp, hx, heval⟩ : ∃ t how,
      (p.pass st).search.outcome = .accepted t how ∧ t.stp = 0 ∧ t.x = st.iterate.x ∧
        t.eval = p.objective.eval 2 st.iterate.x := by
    rw [search_eq_plainSearch rfl Nat.one_pos hplain, plainSearch, hd]
    have hslope : dot st.iterate.g #v[-1] < 0 := by
      change (0 : ℝ) + 4 * (1 / 4) * -1 < 0
      norm_num
    have hiterations : st.iterations = 0 := rfl
    have hevals : 2 ≤ p.settings.search.maxEvals := by
      change 2 ≤ 20
      norm_num
    rw [if_pos hiterations, hfirst]
    refine Search.accepted_at_start hslope hsettings.decrease_pos (le_refl 1) hevals
      (Box.contains_unbounded _) one_pos (lt_of_lt_of_le one_pos hone) ?_ ?_ ?_ ?_
    · exact (Evaluation.isFinite_real _).trans rfl
    · rw [min_eq_left hone]
      change (2 * (1 / 4) ^ 2 : ℝ) < 2 * (1 / 4 + 1 * -1) ^ 2
      norm_num
    · exact (Evaluation.isFinite_real _).trans rfl
    · rfl
  have hit : t.iterate = st.iterate := by
    rw [Trial.iterate, hx, heval]
    rfl
  have hgradient : p.gradientIsSmall st.iterate = false := hlarge
  have hstop : (p.pass st).outcome =
      .stop (p.finish st.iterate 1 (st.evals + (p.pass st).search.evals) .smallReduction) := by
    have hreduction := reductionIsSmall_self hsettings st.iterate.f
    change (p.afterSearch st (p.pass st).search).2 = _
    simp only [afterSearch, houtcome, acceptTrial, hit, hgradient, hreduction, Bool.false_eq_true,
      if_false, if_true]
    rfl
  have hrun := run_of_passes hfinite hlarge
  rw [passes_of_stop hstop] at hrun
  simp only [run, hrun]
  refine ⟨hcheck, ⟨p.pass st, List.mem_cons_self, t, how, houtcome, hstp, hx⟩, rfl, rfl, ?_⟩
  have hresult : (p.finish st.iterate 1 (st.evals + (p.pass st).search.evals)
      .smallReduction).pgNorm = 1 := hnorm
  rw [hresult]
  norm_num [p, collapsedProblem, Settings.default]

end Problem

end BoxDescent
