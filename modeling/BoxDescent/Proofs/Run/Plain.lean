import BoxDescent.Proofs.History.Admission
import BoxDescent.Proofs.Run.OnLine
import BoxDescent.Proofs.Run.Searches
import BoxDescent.Proofs.Subspace.Unbounded

/-!
# Runs without bounds

Without bounds a run makes the searches of the plain limited-memory loop, which takes its
direction from the two-loop recursion and knows neither Cauchy points nor subspaces.
-/

namespace BoxDescent

open Matrix

section

variable {α : Type} [DenseSolver α] {n cap : Nat}

/-- A run seen from its searches: the state that each of them starts from, with iterate and
store, and its trials in order. -/
structure Outline (α : Type) [DenseSolver α] (n cap : Nat) where
  start : Trial α n
  searches : List (RunState α n cap × Search α n)
  result : Result α n

def Pass.outline (pass : Pass α n cap) : RunState α n cap × Search α n :=
  (pass.entry, pass.search)

def Run.outline (run : Run α n cap) : Outline α n cap where
  start := run.start
  searches := run.passes.map Pass.outline
  result := run.result

end

namespace Problem

/-! ### Loops of searches -/

section

variable {α : Type} [Scalar α] [DenseSolver α] {n : Nat}

/-- The searches from a state on, made as `search` says, to the end of the run. -/
def loop (p : Problem α n) (search : p.State → Search α n) (st : p.State) :
    List (p.State × Search α n) × Result α n :=
  match _h : (p.afterSearch st (search st)).2 with
  | .stop result => ([(st, search st)], result)
  | .next next =>
    let later := loop p search next
    ((st, search st) :: later.1, later.2)
termination_by p.passesLeft st
decreasing_by exact passesLeft_of_afterSearch _h

variable {p : Problem α n} {search : p.State → Search α n} {st : p.State}

theorem loop_of_stop {result : Result α n} (h : (p.afterSearch st (search st)).2 = .stop result) :
    p.loop search st = ([(st, search st)], result) := by
  rw [loop]
  split
  · rename_i result' h'
    cases h.symm.trans h'
    rfl
  · rename_i next h'
    cases h.symm.trans h'

theorem loop_of_next {next : p.State} (h : (p.afterSearch st (search st)).2 = .next next) :
    p.loop search st =
      ((st, search st) :: (p.loop search next).1, (p.loop search next).2) := by
  rw [loop]
  split
  · rename_i result h'
    cases h.symm.trans h'
  · rename_i next' h'
    cases h.symm.trans h'
    rfl

variable [Spaced α] {made : List (Pass α n p.settings.memory)} {result : Result α n}

/-- A loop whose searches are those of the passes goes through the same states. -/
theorem Trail.loop_eq (h : Trail p st made result)
    (hsame : ∀ pass ∈ made, pass.search = search pass.entry) :
    p.loop search st = (made.map Pass.outline, result) := by
  induction h with
  | @last st result outcome =>
    have hsearch : (p.pass st).search = search st := hsame _ List.mem_cons_self
    have hafter : (p.afterSearch st (search st)).2 = .stop result := by
      rw [← hsearch]
      exact outcome
    rw [loop_of_stop hafter, ← hsearch]
    rfl
  | @onward st next later result outcome rest ih =>
    have hsearch : (p.pass st).search = search st := hsame _ List.mem_cons_self
    have hafter : (p.afterSearch st (search st)).2 = .next next := by
      rw [← hsearch]
      exact outcome
    rw [loop_of_next hafter, ih fun pass hpass => hsame pass (List.mem_cons_of_mem _ hpass),
      ← hsearch]
    rfl

/-! ### The plain loop -/

/-- The search against the gradient, as the two-loop recursion turns it, with a first step of
unit length. -/
def plainSearch (p : Problem α n) (st : p.State) : Search α n :=
  let d := -(st.store.applyInverse st.iterate.g)
  let line : Line α n :=
    { box := .unbounded n
      x := st.iterate.x
      d := d
      f0 := st.iterate.f
      slope := dot st.iterate.g d
      stpmax := bigStep }
  let stp := if st.iterations = 0 then Scalar.smaller (1 / Scalar.sqrt (dot d d)) bigStep else 1
  Search.of line p.settings.search p.objective st.evals stp

def plainRun (p : Problem α n) (x0 : Vector α n) : Outline α n p.settings.memory :=
  let start : Trial α n := { stp := 0, x := x0, eval := p.objective.eval 1 x0 }
  let it := start.iterate
  if start.eval.isFinite then
    if p.gradientIsSmall it then
      { start := start, searches := [], result := p.finish it 0 1 .smallGradient }
    else
      let made := p.loop p.plainSearch (p.initial it)
      { start := start, searches := made.1, result := made.2 }
  else
    { start := start, searches := [], result := p.finish it 0 1 .nonFiniteStart }

end

end Problem

/-! ### Passes without bounds -/

section

variable [DenseSolver ℝ] {n cap : Nat}

/-- The reduced system of a pass, where there is one, has its exact solution accepted. -/
def Pass.Solves (pass : Pass ℝ n cap) : Prop :=
  SubspaceStep.Solves pass.entry.store pass.cauchy.free
    (SubspaceStep.reducedGradient pass.entry.store pass.entry.iterate.x pass.entry.iterate.g
      pass.cauchy.toCauchyPoint)

theorem Pass.solves_of_isEmpty {pass : Pass ℝ n cap} (h : pass.entry.store.isEmpty = true) :
    pass.Solves := fun hsome => Bool.noConfusion (h.symm.trans hsome)

/-- A pass that takes its direction from the pairs alone and meets no limit on the way. -/
structure Pass.Plain (pass : Pass ℝ n cap) : Prop where
  direction_eq : pass.step.direction pass.entry.iterate.x =
    -(pass.entry.store.applyInverse pass.entry.iterate.g)
  active_eq : pass.cauchy.active = []
  truncatedAt_eq : pass.step.truncatedAt = none
  segments_eq : pass.cauchy.segments = 0

end

namespace Problem

section

variable {n : Nat} {p : Problem ℝ n}

theorem pos_of_gradient (hsettings : p.settings.Sound) {it : Iterate ℝ n}
    (h : p.gradientIsSmall it = false) : 0 < n := by
  rw [Nat.pos_iff_ne_zero]
  rintro rfl
  apply projectedGradient_ne_zero hsettings h
  apply Vector.ext
  intro i hi
  cases hi

variable [DenseSolver ℝ] [Spaced ℝ] {st : p.State}

theorem plain_pass [ExactFactor ℝ] (hbox : p.box = .unbounded n) (hstore : st.store.Consistent)
    (hsolves : (p.pass st).Solves) : (p.pass st).Plain := by
  obtain ⟨settings, objective, box⟩ := p
  cases hbox
  exact
    { direction_eq := SubspaceStep.direction_unbounded hstore hsolves
      active_eq := CauchySearch.active_unbounded
      truncatedAt_eq := SubspaceStep.truncatedAt_unbounded
      segments_eq := CauchySearch.segments_unbounded }

theorem search_eq_plainSearch (hbox : p.box = .unbounded n) (hn : 0 < n)
    (hplain : (p.pass st).Plain) : (p.pass st).search = p.plainSearch st := by
  have hdirection : (p.lineFrom st).d = -(st.store.applyInverse st.iterate.g) :=
    hplain.direction_eq
  have hlongest : ∀ d, p.longestStep st.iterations st.iterate.x d = bigStep := by
    intro d
    rw [longestStep, hbox, Box.isConstrained_unbounded]
    rfl
  have hfirst : ∀ d, p.firstStep st.iterations d bigStep =
      if st.iterations = 0 then Scalar.smaller (1 / Scalar.sqrt (dot d d)) bigStep else 1 := by
    intro d
    rw [firstStep, hbox, Box.isBoxed_unbounded hn, Bool.not_false, Bool.and_true]
    by_cases hk : st.iterations = 0
    · rw [if_pos hk, if_pos (decide_eq_true hk)]
    · rw [if_neg hk, decide_eq_false hk]
      rfl
  have hline : p.lineFrom st =
      { box := .unbounded n
        x := st.iterate.x
        d := -(st.store.applyInverse st.iterate.g)
        f0 := st.iterate.f
        slope := dot st.iterate.g (-(st.store.applyInverse st.iterate.g))
        stpmax := bigStep } := by
    rw [← hdirection, ← hlongest (p.lineFrom st).d, ← hbox]
    rfl
  rw [search_eq, hline, hfirst]
  rfl

end

/-! ### A quadratic -/

/-- Half of `a² + 2 a b + 3 b²`. -/
noncomputable def quadratic : Objective ℝ 2 := fun _ z =>
  let a := z[(0 : Fin 2)]
  let b := z[(1 : Fin 2)]
  ((a * (a + b) + b * (a + 3 * b)) / 2, #[a + b, a + 3 * b])

noncomputable def quadraticProblem : Problem ℝ 2 where
  settings := Settings.default
  objective := quadratic
  box := .unbounded 2

noncomputable def quadraticAt (a b : ℝ) : Iterate ℝ 2 where
  x := #v[a, b]
  f := (a * (a + b) + b * (a + 3 * b)) / 2
  g := #v[a + b, a + 3 * b]

theorem pgNorm_quadraticAt (a b : ℝ) :
    quadraticProblem.pgNorm (quadraticAt a b) = max |a + b| |a + 3 * b| := by
  rw [pgNorm, quadraticProblem, Box.projectedGradientNorm, Box.projectedGradient_unbounded]
  change Scalar.larger (Scalar.larger (0 : ℝ) |a + b|) |a + 3 * b| = _
  rw [Scalar.larger_real, Scalar.larger_real, max_eq_right (abs_nonneg (a + b))]

noncomputable def quadraticLine (a b u v : ℝ) : Line ℝ 2 where
  box := .unbounded 2
  x := #v[a, b]
  d := #v[u, v]
  f0 := (quadraticAt a b).f
  slope := dot (quadraticAt a b).g #v[u, v]
  stpmax := bigStep

section

variable {a b u v : ℝ}

theorem iterate_trial_quadratic (k : Nat) :
    ((quadraticLine a b u v).trial quadratic k 1).iterate = quadraticAt (a + u) (b + v) := by
  have hpoint : (quadraticLine a b u v).point 1 = #v[a + u, b + v] := by
    rw [Line.point, quadraticLine, Box.project_unbounded]
    apply coords_injective
    funext i
    fin_cases i
    · exact congrArg (a + ·) (one_mul u)
    · exact congrArg (b + ·) (one_mul v)
  rw [Trial.iterate, Line.trial, hpoint]
  rfl

/-- A step to the minimum along a line downhill is accepted at once. -/
theorem search_quadratic [Spaced ℝ] (calls : Nat) (hslope : (a + b) * u + (a + 3 * b) * v < 0)
    (hflat : (a + u + (b + v)) * u + (a + u + 3 * (b + v)) * v = 0) :
    ∃ t : Trial ℝ 2, t.iterate = quadraticAt (a + u) (b + v) ∧
      Search.of (quadraticLine a b u v) quadraticProblem.settings.search quadratic calls 1 =
        { trials := [t], outcome := .accepted t .wolfe } := by
  let t := (quadraticLine a b u v).trial quadratic (calls + 1) 1
  have hit : t.iterate = quadraticAt (a + u) (b + v) := iterate_trial_quadratic (calls + 1)
  have hf : t.eval.f = (quadraticAt (a + u) (b + v)).f := congrArg Iterate.f hit
  have hg : t.eval.g = #v[a + u + (b + v), a + u + 3 * (b + v)] := congrArg Iterate.g hit
  have hdown : (quadraticLine a b u v).slope = (a + b) * u + (a + 3 * b) * v := dot_pair _ _ _ _
  have hfirst : Scalar.smaller 1 (quadraticLine a b u v).stpmax = (1 : ℝ) := by
    rw [Scalar.smaller_real]
    exact min_eq_left (le_of_lt one_lt_bigStep)
  -- halfway down from the slope at the start to the zero slope at the end
  have hgain : t.eval.f =
      (quadraticLine a b u v).f0 + 1 / 2 * (quadraticLine a b u v).slope := by
    rw [hf, hdown]
    change ((a + u) * (a + u + (b + v)) + (b + v) * (a + u + 3 * (b + v))) / 2 =
      (a * (a + b) + b * (a + 3 * b)) / 2 + 1 / 2 * ((a + b) * u + (a + 3 * b) * v)
    linarith
  have hend : dot t.eval.g (quadraticLine a b u v).d = 0 := by
    rw [hg]
    exact (dot_pair _ _ _ _).trans hflat
  rw [← hdown] at hslope
  refine ⟨t, hit, Search.of_wolfe hslope (Nat.succ_pos 19) (congrArg _ hfirst)
    ((Evaluation.isFinite_real _).trans rfl) ⟨?_, ?_⟩⟩
  · rw [hgain]
    change _ ≤ (quadraticLine a b u v).f0 + 1 * (1e-3 * (quadraticLine a b u v).slope)
    linarith
  · rw [hend]
    change |(0 : ℝ)| ≤ 0.9 * -(quadraticLine a b u v).slope
    rw [abs_zero]
    linarith

variable [DenseSolver ℝ] [Spaced ℝ] {st : quadraticProblem.State}

theorem pass_quadratic (hplain : (quadraticProblem.pass st).Plain)
    (hit : st.iterate = quadraticAt a b)
    (hd : -(st.store.applyInverse (quadraticAt a b).g) = #v[u, v])
    (hunit : st.iterations = 0 → u * u + v * v = 1)
    (hslope : (a + b) * u + (a + 3 * b) * v < 0)
    (hflat : (a + u + (b + v)) * u + (a + u + 3 * (b + v)) * v = 0) :
    ∃ t : Trial ℝ 2, t.iterate = quadraticAt (a + u) (b + v) ∧
      (quadraticProblem.pass st).search =
        { trials := [t], outcome := .accepted t .wolfe } := by
  have hfirst : (if st.iterations = 0 then
      Scalar.smaller (1 / Scalar.sqrt (dot #v[u, v] #v[u, v])) bigStep else 1) = (1 : ℝ) := by
    split
    · rename_i hzero
      rw [dot_pair, hunit hzero, show Scalar.sqrt (1 : ℝ) = 1 from Real.sqrt_one, div_one,
        Scalar.smaller_real]
      exact min_eq_left (le_of_lt one_lt_bigStep)
    · rfl
  rw [search_eq_plainSearch rfl Nat.two_pos hplain, plainSearch, hit, hd, hfirst]
  exact search_quadratic st.evals hslope hflat

/-- The first pass goes along the first variable to the minimum there. -/
theorem pass_quadratic_first [CompleteFactor] (hplain : (quadraticProblem.pass st).Plain)
    (hit : st.iterate = quadraticAt (3 / 2) (-1 / 2)) (hiterations : st.iterations = 0)
    (hstore : st.store = Store.empty) :
    ∃ next, (quadraticProblem.pass st).outcome = .next next ∧
      next.iterate = quadraticAt (1 / 2) (-1 / 2) ∧ next.iterations = 1 ∧
      next.store.pairs = [Store.correction #v[-1, 0] #v[-1, -1]] := by
  have hd : -(st.store.applyInverse (quadraticAt (3 / 2) (-1 / 2)).g) = #v[-1, 0] := by
    have hinverse : st.store.applyInverse (quadraticAt (3 / 2) (-1 / 2)).g =
        (quadraticAt (3 / 2) (-1 / 2)).g := by
      rw [hstore]
      exact coords_injective (Store.coords_applyInverse_empty _)
    rw [hinverse]
    refine (neg_pair _ _).trans ?_
    norm_num
  obtain ⟨t, ht, hsearch⟩ := pass_quadratic hplain hit hd (fun _ => by norm_num) (by norm_num)
    (by norm_num)
  have hone : t.iterate = quadraticAt (1 / 2) (-1 / 2) := by
    rw [ht]
    norm_num
  have hgradient : quadraticProblem.gradientIsSmall t.iterate = false := by
    rw [hone, gradientIsSmall, pgNorm_quadraticAt]
    apply decide_eq_false
    norm_num [quadraticProblem, Settings.default]
  have hreduction : quadraticProblem.reductionIsSmall st.iterate.f t.iterate.f = false := by
    have hbefore : st.iterate.f = 3 / 4 := by
      rw [hit]
      change (3 / 2 * (3 / 2 + -1 / 2) + -1 / 2 * (3 / 2 + 3 * (-1 / 2)) : ℝ) / 2 = 3 / 4
      norm_num
    have hafter : t.iterate.f = 1 / 4 := by
      rw [hone]
      change (1 / 2 * (1 / 2 + -1 / 2) + -1 / 2 * (1 / 2 + 3 * (-1 / 2)) : ℝ) / 2 = 1 / 4
      norm_num
    rw [hbefore, hafter]
    apply decide_eq_false
    rw [Scalar.larger_real, Scalar.larger_real]
    change ¬(3 / 4 - 1 / 4 : ℝ) ≤ 1e7 * Scalar.epsilon * max (max |3 / 4| |1 / 4|) 1
    norm_num [Scalar.epsilon, abs_of_pos]
  have hroom : st.iterations + 1 < quadraticProblem.settings.maxIterations := by
    rw [hiterations]
    norm_num [quadraticProblem, Settings.default]
  refine ⟨_, outcome_of_accepted (congrArg Search.outcome hsearch) hgradient hreduction hroom, hone,
    congrArg Nat.succ hiterations, ?_⟩
  have hstep : t.iterate.x - st.iterate.x = #v[-1, 0] := by
    rw [hone, hit]
    refine (sub_pair _ _ _ _).trans ?_
    norm_num
  have hchange : t.iterate.g - st.iterate.g = #v[-1, -1] := by
    rw [hone, hit]
    refine (sub_pair _ _ _ _).trans ?_
    norm_num
  have hcurvature :
      (Scalar.epsilon : ℝ) * dot #v[-1, -1] #v[-1, -1] < dot #v[-1, 0] #v[-1, -1] := by
    rw [dot_pair, dot_pair]
    norm_num [Scalar.epsilon]
  have htabulated : st.store.Tabulated := by
    rw [hstore]
    exact (Store.consistent_empty Settings.sound_default_real.memory_pos).toTabulated
  rw [hstep, hchange, (htabulated.push_of_curvature hcurvature).2, hstore]
  rfl

section

variable {cap : Nat} {store : Store ℝ 2 cap} (h : store.Tabulated)
  (hpairs : store.pairs = [Store.correction #v[-1, 0] #v[-1, -1]])

include h hpairs

omit [Spaced ℝ] in
theorem solves_quadratic [ExactProposal] {free : List (Fin 2)} (hfree : free = List.finRange 2)
    (r : Vector ℝ free.length) : SubspaceStep.Solves store free r := by
  have hall : ∀ f : Fin 2 → ℝ, (free.map f).sum = f 0 + f 1 := by
    intro f
    rw [hfree]
    simp [List.finRange_succ]
  refine SubspaceStep.solves_of_single h hpairs (t := 2) (u := 2) (v := 1) (w := 0) (c := 2)
    ?_ ?_ ?_ ?_ ?_ ?_ ?_ ?_ ?_ r
  · rw [dot_pair, dot_pair]
    norm_num
  · rw [dot_pair, hall]
    norm_num
  · rw [hall]
    norm_num
  · rw [dot_pair, hall]
    norm_num
  · norm_num
  · norm_num
  · norm_num
  · norm_num
  · norm_num [SubspaceStep.conditionLimit]

omit [Spaced ℝ] in
theorem applyInverse_quadratic :
    store.applyInverse (quadraticAt (1 / 2) (-1 / 2)).g = #v[1 / 2, -1 / 2] := by
  have htheta : store.theta = 2 := by
    rw [(h.of_single hpairs).2.2, dot_pair, dot_pair]
    norm_num
  have hsymm : ((2 : ℝ) • (1 : Matrix (Fin 2) (Fin 2) ℝ)).IsSymm := isSymm_one.smul 2
  apply coords_injective
  apply Store.mulVec_injective_of_posDef h.posDef_dense
  change store.dense *ᵥ _ = store.dense *ᵥ _
  rw [h.dense_mulVec_applyInverse, Store.dense_of_single hpairs, htheta, Bfgs.update_mulVec hsymm]
  simp only [smul_mulVec, one_mulVec, dotProduct_smul, ← dot_eq, dot_pair, smul_eq_mul]
  funext i
  fin_cases i
  · change (1 / 2 + -1 / 2 : ℝ) = 2 * (1 / 2) - _ / _ * (2 * -1) + _ / _ * -1
    norm_num
  · change (1 / 2 + 3 * (-1 / 2) : ℝ) = 2 * (-1 / 2) - _ / _ * (2 * 0) + _ / _ * -1
    norm_num

end

/-- The second pass leaves the ray and goes to the minimum. -/
theorem pass_quadratic_last [ExactFactor ℝ] (hplain : (quadraticProblem.pass st).Plain)
    (hit : st.iterate = quadraticAt (1 / 2) (-1 / 2)) (hiterations : st.iterations = 1)
    (hstore : st.store.Consistent)
    (hpairs : st.store.pairs = [Store.correction #v[-1, 0] #v[-1, -1]]) :
    (quadraticProblem.pass st).cauchy.xc ≠ (quadraticProblem.pass st).step.xbar ∧
    ∃ result, (quadraticProblem.pass st).outcome = .stop result ∧
      result.point = quadraticAt 0 0 ∧ result.status = .converged := by
  have hd : -(st.store.applyInverse (quadraticAt (1 / 2) (-1 / 2)).g) = #v[-1 / 2, 1 / 2] := by
    rw [applyInverse_quadratic hstore.toTabulated hpairs, neg_pair, neg_div, neg_neg]
  constructor
  · intro he
    have hflat : st.iterate.g[(0 : Fin 2)] = 0 := by
      rw [hit]
      change (1 / 2 + -1 / 2 : ℝ) = 0
      norm_num
    have hstays : (quadraticProblem.pass st).cauchy.xc[(0 : Fin 2)] = st.iterate.x[(0 : Fin 2)] :=
      CauchySearch.xc_unbounded_of_eq_zero hstore hflat
    have hdirection : coords ((quadraticProblem.pass st).step.xbar - st.iterate.x) 0 = -1 / 2 := by
      have hway := hplain.direction_eq
      rw [show (quadraticProblem.pass st).entry = st from rfl, hit, hd] at hway
      rw [hit]
      exact congrFun (congrArg coords hway) 0
    rw [← he, coords_sub, Pi.sub_apply, coords_apply, coords_apply, hstays, sub_self] at hdirection
    norm_num at hdirection
  · obtain ⟨t, ht, hsearch⟩ := pass_quadratic hplain hit hd
      (fun hzero => absurd (hiterations.symm.trans hzero) one_ne_zero) (by norm_num) (by norm_num)
    have hzero : t.iterate = quadraticAt 0 0 := by
      rw [ht]
      norm_num
    have hgradient : quadraticProblem.gradientIsSmall t.iterate = true := by
      rw [hzero, gradientIsSmall, pgNorm_quadraticAt]
      apply decide_eq_true
      norm_num [quadraticProblem, Settings.default]
    have houtcome : (quadraticProblem.pass st).outcome = _ :=
      outcome_of_small (congrArg Search.outcome hsearch) hgradient
    exact ⟨_, houtcome, hzero, rfl⟩

end

/-- The run makes these two passes. -/
theorem run_quadratic :
    let _ := DenseSolver.symmetric ℝ
    let _ : Spaced ℝ := ⟨fun _ a b => decide (a = b)⟩
    let run := quadraticProblem.run #v[3 / 2, -1 / 2]
    (∀ pass ∈ run.passes, pass.Solves) ∧
      (∃ pass ∈ run.passes, pass.entry.store.isEmpty = false ∧ pass.cauchy.xc ≠ pass.step.xbar) ∧
      run.result.point = quadraticAt 0 0 ∧ run.result.status = .converged := by
  intro solver spaced run
  have hexact : ExactFactor ℝ := exactFactor_symmetric
  have hproposal : ExactProposal := exactProposal_symmetric
  have hcomplete : CompleteFactor := completeFactor_symmetric
  have hsettings : quadraticProblem.settings.Sound := Settings.sound_default_real
  have hfinite : (quadraticProblem.firstTrial #v[3 / 2, -1 / 2]).eval.isFinite = true :=
    (Evaluation.isFinite_real _).trans rfl
  have hit : (quadraticProblem.firstTrial #v[3 / 2, -1 / 2]).iterate =
      quadraticAt (3 / 2) (-1 / 2) := by
    rw [Trial.iterate, firstTrial, quadraticProblem, Box.project_unbounded]
    rfl
  have hlarge : quadraticProblem.gradientIsSmall
      (quadraticProblem.firstTrial #v[3 / 2, -1 / 2]).iterate = false := by
    rw [hit, gradientIsSmall, pgNorm_quadraticAt]
    apply decide_eq_false
    norm_num [quadraticProblem, Settings.default]
  let st₀ := quadraticProblem.initial (quadraticProblem.firstTrial #v[3 / 2, -1 / 2]).iterate
  have hready₀ : Ready quadraticProblem st₀ := ready_initial hsettings hlarge
  have hsolves₀ : (quadraticProblem.pass st₀).Solves := Pass.solves_of_isEmpty rfl
  obtain ⟨st₁, h₁, hit₁, hiterations₁, hpairs₁⟩ :=
    pass_quadratic_first (plain_pass rfl hready₀.store hsolves₀) hit rfl rfl
  have hready₁ := hready₀.next hsettings (continues_of_pass h₁)
  have hsolves₁ : (quadraticProblem.pass st₁).Solves :=
    solves_quadratic hready₁.store.toTabulated hpairs₁ CauchySearch.free_unbounded _
  obtain ⟨hleaves, result, h₂, hpoint, hstatus⟩ :=
    pass_quadratic_last (plain_pass rfl hready₁.store hsolves₁) hit₁ hiterations₁ hready₁.store
      hpairs₁
  have hrun := run_of_passes hfinite hlarge
  rw [passes_of_next h₁, passes_of_stop h₂] at hrun
  simp only [run, hrun]
  refine ⟨?_, ⟨quadraticProblem.pass st₁, List.mem_cons_of_mem _ List.mem_cons_self,
    Store.isEmpty_of_single hpairs₁, hleaves⟩, hpoint, hstatus⟩
  intro pass hpass
  rcases List.mem_pair.mp hpass with rfl | rfl
  · exact hsolves₀
  · exact hsolves₁

section

variable {n : Nat} {p : Problem ℝ n} [DenseSolver ℝ] [Spaced ℝ] {st : p.State}

/-! ### Whole runs without bounds -/

/-- Without bounds, and with every reduced system solved exactly, each pass goes the plain way,
and the run goes through the states and the trials of the plain loop. -/
theorem run_plain [ExactFactor ℝ] (p : Problem ℝ n) (x0 : Vector ℝ n)
    (hcheck : p.settings.check = .ok ()) (hbox : ∀ i, p.box.kind i = .unbounded)
    (hsolves : ∀ pass ∈ (p.run x0).passes, pass.Solves) :
    (∀ pass ∈ (p.run x0).passes, pass.Plain) ∧ (p.run x0).outline = p.plainRun x0 := by
  have hsettings := Settings.check_eq_ok_iff.mp hcheck
  have hunbounded : p.box = .unbounded n := Box.eq_unbounded hbox
  have hpasses : ∀ pass ∈ (p.run x0).passes,
      pass.Plain ∧ pass.search = p.plainSearch pass.entry := by
    intro pass hpass
    obtain ⟨hready, hpassEq⟩ := ready_of_mem_passes hsettings hpass
    have hsolved := hsolves pass hpass
    rw [hpassEq] at hsolved ⊢
    have hplain := plain_pass hunbounded hready.store hsolved
    have hn := pos_of_gradient hsettings hready.gradient
    exact ⟨hplain, search_eq_plainSearch hunbounded hn hplain⟩
  refine ⟨fun pass hpass => (hpasses pass hpass).1, ?_⟩
  have hstart : p.firstTrial x0 = { stp := 0, x := x0, eval := p.objective.eval 1 x0 } := by
    rw [firstTrial, hunbounded, Box.project_unbounded]
  unfold plainRun
  rw [← hstart]
  dsimp only
  cases hfinite : (p.firstTrial x0).eval.isFinite with
  | false =>
    rw [run_of_not_finite hfinite, if_neg Bool.false_ne_true]
    rfl
  | true =>
    rw [if_pos rfl]
    cases hgradient : p.gradientIsSmall (p.firstTrial x0).iterate with
    | true =>
      rw [run_of_small hfinite hgradient, if_pos rfl]
      rfl
    | false =>
      rw [run_of_passes hfinite hgradient] at hpasses ⊢
      have hloop := (trail_passes (p.initial (p.firstTrial x0).iterate)).loop_eq
        fun pass hpass => (hpasses pass hpass).2
      rw [if_neg Bool.false_ne_true, hloop]
      rfl

end

theorem run_plain_of_quadratic :
    let _ := DenseSolver.symmetric ℝ
    let _ : Spaced ℝ := ⟨fun _ a b => decide (a = b)⟩
    let p := quadraticProblem
    let run := p.run #v[3 / 2, -1 / 2]
    ExactFactor ℝ ∧ p.settings.check = .ok () ∧ (∀ i, p.box.kind i = .unbounded) ∧
      (∀ pass ∈ run.passes, pass.Solves) ∧
      (∃ pass ∈ run.passes, pass.entry.store.isEmpty = false ∧
        pass.cauchy.xc ≠ pass.step.xbar ∧ pass.Plain) ∧
      run.result.point = quadraticAt 0 0 ∧ run.result.status = .converged ∧
      run.outline = p.plainRun #v[3 / 2, -1 / 2] := by
  intro solver spaced p run
  have hexact : ExactFactor ℝ := exactFactor_symmetric
  have hcheck : p.settings.check = .ok () :=
    Settings.check_eq_ok_iff.mpr Settings.sound_default_real
  have hbox : ∀ i, p.box.kind i = .unbounded := Box.kind_unbounded
  obtain ⟨hsolves, ⟨pass, hpass, hsome, hleaves⟩, hpoint, hstatus⟩ := run_quadratic
  obtain ⟨hplain, hsame⟩ := run_plain p #v[3 / 2, -1 / 2] hcheck hbox hsolves
  exact ⟨hexact, hcheck, hbox, hsolves, ⟨pass, hpass, hsome, hleaves, hplain pass hpass⟩, hpoint,
    hstatus, hsame⟩

end Problem

end BoxDescent
