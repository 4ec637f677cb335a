import BoxDescent.Minimize
import BoxDescent.Proofs.Ordered
import BoxDescent.Proofs.Run.Passes
import BoxDescent.Proofs.Settings

/-!
# What a run accounts for

The trials of a run are the calls of its objective, in order, at points of the box.  The
result is what one of these calls has answered, and counts them all.
-/

namespace BoxDescent

variable {α : Type} [Scalar α] {n : Nat}

/-! ### Passes -/

/-- The iterate is `before`, or what one of the trials has answered. -/
def OneOf (before : Iterate α n) (ts : List (Trial α n)) (it : Iterate α n) : Prop :=
  it = before ∨ ∃ t ∈ ts, it = t.iterate ∧ t.eval.isFinite = true

namespace Problem

variable [Spaced α] [DenseSolver α] {p : Problem α n} {st : p.State}

/-- What the passes from a state have to account for: their calls follow those made before,
the result counts them, and it is the iterate of the state or what one of the calls has
answered. -/
structure PassesAccount (p : Problem α n) (st : p.State)
    (made : List (Pass α n p.settings.memory) × Result α n) : Prop where
  calls : Calls p.box p.objective (st.evals + 1) (made.1.flatMap fun pass => pass.search.trials)
  evals_eq : made.2.evals = st.evals + (made.1.flatMap fun pass => pass.search.trials).length
  pgNorm_eq : made.2.pgNorm = p.pgNorm made.2.point
  point : OneOf st.iterate (made.1.flatMap fun pass => pass.search.trials) made.2.point

theorem oneOf_of_accepted {t : Trial α n} {how : Acceptance}
    (h : (p.pass st).search.outcome = .accepted t how) :
    OneOf st.iterate (p.pass st).search.trials t.iterate := by
  rw [search_eq] at h ⊢
  obtain ⟨hmem, hfinite⟩ := Search.mem_of_accepted h
  exact .inr ⟨t, hmem, rfl, hfinite⟩

/-- The last pass ends at the iterate of its state or at one of its trials. -/
theorem oneOf_of_finishes {result : Result α n} (h : Finishes p st (p.pass st).search result) :
    OneOf st.iterate (p.pass st).search.trials result.point := by
  cases h with
  | smallGradient t how outcome => exact oneOf_of_accepted outcome
  | smallReduction t how outcome => exact oneOf_of_accepted outcome
  | iterationLimit t how outcome => exact oneOf_of_accepted outcome
  | noDescent slope outcome => exact .inl rfl
  | nonFiniteLine outcome => exact .inl rfl
  | budgetSpent best outcome =>
    cases best with
    | none => exact .inl rfl
    | some t =>
      rw [search_eq] at outcome ⊢
      obtain ⟨hmem, hfinite, -⟩ := Search.mem_of_stalled outcome
      exact .inr ⟨t, hmem, rfl, hfinite⟩

theorem oneOf_of_continues {next : p.State} (h : Continues p st (p.pass st).search next) :
    OneOf st.iterate (p.pass st).search.trials next.iterate := by
  cases h with
  | accepted t how outcome => exact oneOf_of_accepted outcome
  | retried failed => exact .inl rfl

omit [Spaced α] in
theorem evals_of_finishes {s : Search α n} {result : Result α n} (h : Finishes p st s result) :
    result.evals = st.evals + s.trials.length ∧ result.pgNorm = p.pgNorm result.point := by
  cases h <;> exact ⟨rfl, rfl⟩

omit [Spaced α] in
theorem evals_of_continues {s : Search α n} {next : p.State} (h : Continues p st s next) :
    next.evals = st.evals + s.trials.length := by
  cases h <;> rfl

theorem passes_account (st : p.State) : PassesAccount p st (p.passes st) := by
  refine passes_induction ?_ ?_ st
  · intro st result hfinish
    obtain ⟨hevals, hnorm⟩ := evals_of_finishes hfinish
    have hone : ([p.pass st].flatMap fun pass => pass.search.trials) =
        (p.pass st).search.trials := List.flatMap_singleton _ _
    rw [← hone] at hevals
    exact
      { calls := hone ▸ calls_search st
        evals_eq := hevals
        pgNorm_eq := hnorm
        point := hone ▸ oneOf_of_finishes hfinish }
  · intro st next hnext ih
    have hevals := evals_of_continues hnext
    obtain ⟨hcalls, htotal, hnorm, hpoint⟩ := ih
    refine ⟨?_, ?_, hnorm, ?_⟩
    · rw [List.flatMap_cons]
      apply (calls_search st).append
      rw [hevals, Nat.add_right_comm] at hcalls
      exact hcalls
    · rw [List.flatMap_cons, List.length_append, ← Nat.add_assoc, ← hevals]
      exact htotal
    · simp only [OneOf, List.flatMap_cons, List.mem_append]
      rcases hpoint with hstay | ⟨t, hmem, ht⟩
      · rcases oneOf_of_continues hnext with hsame | ⟨t, hmem, heq, hfinite⟩
        · exact .inl (hstay.trans hsame)
        · exact .inr ⟨t, .inl hmem, hstay.trans heq, hfinite⟩
      · exact .inr ⟨t, .inr hmem, ht⟩

end Problem

/-! ### Runs -/

/-- The calls of a run, and where its result comes from. -/
structure Run.Accounts [DenseSolver α] {cap : Nat} (box : Box α n) (objective : Objective α n)
    (run : Run α n cap) : Prop where
  /-- Every point at which the objective is called lies in the box. -/
  covered : ∀ t ∈ run.trials, box.Covers t.x
  /-- The trials are the calls, in order. -/
  answered : ∀ k (h : k < run.trials.length),
    run.trials[k].eval = objective.eval (k + 1) run.trials[k].x
  /-- The result is the answer of one of the calls. -/
  returned : ∃ k, ∃ h : k < run.trials.length,
    let answer := objective (k + 1) run.trials[k].x
    run.result.point.x = run.trials[k].x ∧ run.result.point.f = answer.1 ∧
      (answer.2.size = n → run.result.point.g.toArray = answer.2) ∧
      (answer.2.size ≠ n → run.result.point.g = Vector.replicate n Scalar.nan)
  evals_eq : run.result.evals = run.trials.length
  pgNorm_eq : run.result.pgNorm =
    box.projectedGradientNorm run.result.point.x run.result.point.g
  /-- It is finite unless the first call was not. -/
  finite : run.start.eval.isFinite = true →
    Scalar.isFinite run.result.point.f = true ∧
      ∀ i : Fin n, Scalar.isFinite run.result.point.g[i] = true

namespace Problem

variable [Spaced α] [DenseSolver α] (p : Problem α n) (x0 : Vector α n)

/-- The calls, the count and the result of a run, in terms of its trials. -/
structure RunAccount : Prop where
  calls : Calls p.box p.objective 1 (p.run x0).trials
  evals_eq : (p.run x0).result.evals = (p.run x0).trials.length
  pgNorm_eq : (p.run x0).result.pgNorm = p.pgNorm (p.run x0).result.point
  point : ∃ t ∈ (p.run x0).trials, (p.run x0).result.point = t.iterate ∧
    ((p.run x0).start.eval.isFinite = true → t.eval.isFinite = true)

theorem run_account : RunAccount p x0 := by
  have hfirst : Calls p.box p.objective 1 [p.firstTrial x0] :=
    ⟨⟨⟨x0, rfl⟩, rfl⟩, True.intro⟩
  cases hfinite : (p.firstTrial x0).eval.isFinite with
  | false =>
    have hrun := run_of_not_finite hfinite
    constructor <;> rw [hrun]
    · exact hfirst
    · rfl
    · rfl
    · exact ⟨p.firstTrial x0, List.mem_cons_self, rfl, id⟩
  | true =>
    cases hgrad : p.gradientIsSmall (p.firstTrial x0).iterate with
    | true =>
      have hrun := run_of_small hfinite hgrad
      constructor <;> rw [hrun]
      · exact hfirst
      · rfl
      · rfl
      · exact ⟨p.firstTrial x0, List.mem_cons_self, rfl, id⟩
    | false =>
      have hrun := run_of_passes hfinite hgrad
      obtain ⟨hcalls, hevals, hnorm, hpoint⟩ :=
        p.passes_account (p.initial (p.firstTrial x0).iterate)
      constructor <;> rw [hrun]
      · exact hfirst.append hcalls
      · exact hevals.trans (Nat.add_comm _ _)
      · exact hnorm
      · rcases hpoint with hstay | ⟨t, hmem, ht, htfinite⟩
        · exact ⟨p.firstTrial x0, List.mem_cons_self, hstay, id⟩
        · exact ⟨t, List.mem_cons_of_mem _ hmem, ht, fun _ => htfinite⟩

theorem accounts_run [OrderedScalar α] : (p.run x0).Accounts p.box p.objective := by
  obtain ⟨hcalls, hevals, hnorm, t, hmem, hpoint, hfinite⟩ := p.run_account x0
  have hanswered : ∀ k (h : k < (p.run x0).trials.length),
      (p.run x0).trials[k].eval = p.objective.eval (k + 1) (p.run x0).trials[k].x := by
    intro k hk
    rw [Nat.add_comm]
    exact (hcalls.getElem hk).2
  refine ⟨?_, hanswered, ?_, hevals, hnorm, ?_⟩
  · intro u hu
    obtain ⟨k, hk, rfl⟩ := List.getElem_of_mem hu
    obtain ⟨⟨y, hy⟩, -⟩ := hcalls.getElem hk
    rw [hy]
    exact Box.covers_project p.box y
  · obtain ⟨k, hk, rfl⟩ := List.getElem_of_mem hmem
    obtain ⟨hf, hright, hwrong⟩ :=
      Evaluation.eq_answer p.objective (k + 1) (p.run x0).trials[k].x
    rw [← hanswered k hk] at hf hright hwrong
    refine ⟨k, hk, ?_⟩
    rw [hpoint]
    exact ⟨rfl, hf, hright, hwrong⟩
  · intro hstart
    rw [hpoint]
    exact Evaluation.finite_of_isFinite (hfinite hstart)

end Problem

/-! ### Entry points -/

section

variable [Spaced α] [DenseSolver α] {settings : Settings α} {objective : Objective α n}
  {x0 : Vector α n} {run : Run α n settings.memory}

theorem minimizeWithin_eq_ok {box : Box α n} :
    minimizeWithin settings objective x0 box = .ok run ↔ settings.check = .ok () ∧ n ≠ 0 ∧
      run = Problem.run { settings := settings, objective := objective, box := box } x0 := by
  unfold minimizeWithin
  rw [Settings.bind_eq_ok]
  dsimp only
  by_cases hn : n = 0
  · rw [if_pos hn]
    exact iff_of_false (fun h => nomatch h.2) fun h => h.2.1 hn
  · rw [if_neg hn, dif_pos rfl]
    constructor
    · rintro ⟨hcheck, hrun⟩
      cases hrun
      exact ⟨hcheck, hn, rfl⟩
    · rintro ⟨hcheck, -, rfl⟩
      exact ⟨hcheck, rfl⟩

theorem minimize_eq_ok {pairs : Option (Array (α × α))} :
    minimize settings objective x0 pairs = .ok run ↔ ∃ box : Box α n,
      Box.ofPairs pairs n = .ok box ∧ minimizeWithin settings objective x0 box = .ok run := by
  unfold minimize
  rw [Settings.bind_eq_ok]
  cases hbox : Box.ofPairs pairs n with
  | error e =>
    refine iff_of_false (fun h => nomatch h.2) ?_
    rintro ⟨box, he, -⟩
    cases he
  | ok box =>
    constructor
    · intro h
      exact ⟨box, rfl, h.2⟩
    · rintro ⟨box', he, h⟩
      cases he
      exact ⟨(minimizeWithin_eq_ok.mp h).1, h⟩

theorem accounts_of_minimizeWithin [OrderedScalar α] {box : Box α n}
    (h : minimizeWithin settings objective x0 box = .ok run) : run.Accounts box objective := by
  obtain ⟨-, -, rfl⟩ := minimizeWithin_eq_ok.mp h
  exact Problem.accounts_run { settings := settings, objective := objective, box := box } x0

/-- Every minimization calls its objective only at points between the finite values given as
limits, counts its calls, and returns what one of them has answered, which is finite unless
the first answer was not. -/
theorem minimize_accounts [OrderedScalar α] (settings : Settings α) (objective : Objective α n)
    (x0 : Vector α n) :
    (∀ (pairs : Option (Array (α × α))) (run : Run α n settings.memory),
      minimize settings objective x0 pairs = .ok run →
        (∀ ps ∈ pairs, ∀ t ∈ run.trials, ∀ i : Fin n, ∀ limits ∈ ps[i.val]?,
          (Scalar.isFinite limits.1 = true → limits.1 ≤ t.x[i]) ∧
            (Scalar.isFinite limits.2 = true → t.x[i] ≤ limits.2)) ∧
        ∃ box, Box.ofPairs pairs n = .ok box ∧ run.Accounts box objective) ∧
    (∀ (box : Box α n) (run : Run α n settings.memory),
      minimizeWithin settings objective x0 box = .ok run → run.Accounts box objective) := by
  constructor
  · intro pairs run h
    obtain ⟨box, hbox, hrun⟩ := minimize_eq_ok.mp h
    have haccounts := accounts_of_minimizeWithin hrun
    refine ⟨?_, box, hbox, haccounts⟩
    intro ps hps t ht i limits hi
    rw [Option.mem_def.mp hps] at hbox
    obtain ⟨hlower, hupper⟩ := Box.limits_of_ofPairs hbox hi
    obtain ⟨hle, hge⟩ := haccounts.covered t ht i
    constructor
    · intro hfinite
      exact hle limits.1 (hlower.trans (if_pos hfinite))
    · intro hfinite
      exact hge limits.2 (hupper.trans (if_pos hfinite))
  · intro box run h
    exact accounts_of_minimizeWithin h

end

/-! ### A run on a half-line -/

section

open Extended

/-- One variable as its own value. -/
noncomputable def itself : Objective Extended 1 := fun _ x => (x.head, #[1])

/-- The numbers that are not negative. -/
noncomputable def ray : Box Extended 1 :=
  .ofFn (fun _ => .atLeast (finite 0)) fun _ =>
    Bound.valid_ofLimits (l := some (finite 0)) (u := none) (fun _ h => Option.some.inj h ▸ rfl)
      (fun _ h => nomatch h) rfl

theorem kind_ray (i : Fin 1) : ray.kind i = .atLeast (finite 0) := Box.kind_ofFn _ _ i

theorem ofPairs_ray : Box.ofPairs (some #[(finite 0, top)]) 1 = .ok ray := rfl

theorem departure_ray : Departure.of (.atLeast (finite 0)) (finite 1) (finite (-1)) = .moving := by
  have hinside : ¬finite 1 - finite 0 ≤ 0 := by
    rw [finite_sub]
    exact not_le.mpr (by norm_num : (0 : ℝ) < 1 - 0)
  have hturning : (finite (-1) == 0) = false := by
    rw [finite_beq_zero]
    norm_num
  simp [Departure.of, Bound.isFixed, Bound.isBounded, Bound.lower?, Bound.upper?, hinside, hturning]

theorem time_ray : Breakpoint.time? (.atLeast (finite 0)) (finite 1) (finite (-1)) =
    some (finite 1) := by
  have hdown : finite (-1) < 0 := finite_lt_zero.mpr (by norm_num)
  rw [Breakpoint.time?, if_pos hdown, Bound.lower?, Option.map_some, finite_sub, finite_neg,
    finite_div (by norm_num)]
  norm_num

/-- From 1 down to the limit. -/
noncomputable def rayPath : Path Extended 1 where
  start := #v[finite 1]
  velocity := #v[finite (-1)]
  held := #v[false]
  breakpoints := [⟨0, finite 1⟩]
  endless := false

theorem path_ray : Path.of ray #v[finite 1] #v[finite 1] = rayPath := by
  have hdeparture : ∀ i : Fin 1, Departure.of (ray.kind i) (#v[finite 1] : Vector Extended 1)[i]
      (-(#v[finite 1] : Vector Extended 1)[i]) = .moving := by
    intro i
    rw [kind_ray, Subsingleton.elim i 0]
    exact departure_ray
  have htime : ∀ i : Fin 1, Breakpoint.time? (ray.kind i) (#v[finite 1] : Vector Extended 1)[i]
      (-(#v[finite 1] : Vector Extended 1)[i]) = some (finite 1) := by
    intro i
    rw [kind_ray, Subsingleton.elim i 0]
    exact time_ray
  simp only [Path.of, hdeparture, htime]
  rfl

section

variable [DenseSolver Extended] (cap : Nat)

omit [DenseSolver Extended] in
theorem dot_rayPath : dot rayPath.velocity rayPath.velocity = finite 1 := by
  change finite 0 + finite (-1) * finite (-1) = finite 1
  rw [finite_mul, finite_add]
  norm_num

/-- The model has its minimum where the path ends. -/
theorem ahead_ray : (Walk.begin (Store.empty : Store Extended 1 cap) rayPath).ahead = finite 1 := by
  have hcurvature : (Walk.begin (Store.empty : Store Extended 1 cap) rayPath).curvature =
      finite 1 := by
    change finite 1 * dot rayPath.velocity rayPath.velocity - finite 0 = finite 1
    rw [dot_rayPath, finite_mul, finite_sub]
    norm_num
  have hslope : (Walk.begin (Store.empty : Store Extended 1 cap) rayPath).slope = finite (-1) := by
    change -dot rayPath.velocity rayPath.velocity = finite (-1)
    rw [dot_rayPath, finite_neg]
  change -(Walk.begin (Store.empty : Store Extended 1 cap) rayPath).slope /
    (Walk.begin (Store.empty : Store Extended 1 cap) rayPath).curvature = finite 1
  rw [hslope, hcurvature, finite_neg, finite_div one_ne_zero]
  norm_num

theorem of_ray :
    let cs := CauchySearch.of ray (Store.empty : Store Extended 1 cap) #v[finite 1] #v[finite 1]
    cs.xc = #v[finite 0] ∧ cs.free = [] := by
  intro cs
  let w := Walk.begin (Store.empty : Store Extended 1 cap) rayPath
  have hmoves : ¬(dot rayPath.velocity rayPath.velocity == 0) = true := by
    rw [dot_rayPath, finite_beq_zero]
    norm_num
  have hreach : ¬w.ahead < finite 1 - finite 0 := by
    rw [show w.ahead = finite 1 from ahead_ray cap, finite_sub, finite_lt]
    norm_num
  have hstop : Walk.stopAt ray rayPath 0 (finite (-1)) = finite 0 := by
    have hdown : ¬0 < finite (-1) := not_lt.mpr (by norm_num : (-1 : ℝ) ≤ 0)
    rw [Walk.stopAt, if_neg hdown, kind_ray]
    rfl
  let ended : Walk Extended 1 (Store.empty : Store Extended 1 cap).size :=
    { w.stopVariable ray rayPath 0 (finite 1 - finite 0) with ahead := finite 1 - finite 0 }
  have hturn : w.turn ray Store.empty rayPath ⟨0, finite 1⟩ [] = .finish ended :=
    (if_neg hreach).trans (if_pos rfl)
  have hrun : Walk.run ray Store.empty rayPath [⟨0, finite 1⟩] w = (ended, true) := by
    rw [Walk.run, hturn]
  have hcs : cs = CauchySearch.ofWalk ray Store.empty rayPath ended true := by
    change CauchySearch.of ray Store.empty #v[finite 1] #v[finite 1] = _
    rw [CauchySearch.of, path_ray]
    refine (if_neg hmoves).trans ?_
    exact congrArg (fun made => CauchySearch.ofWalk ray Store.empty rayPath made.1 made.2) hrun
  rw [hcs]
  refine ⟨?_, rfl⟩
  change #v[Walk.stopAt ray rayPath 0 (finite (-1))] = _
  rw [hstop]

end

noncomputable def rayProblem : Problem Extended 1 where
  settings := Settings.default
  objective := itself
  box := ray

namespace Problem

theorem firstTrial_rayProblem : rayProblem.firstTrial #v[finite 1] =
    { stp := 0
      x := #v[finite 1]
      eval := { f := finite 1, g := #v[finite 1], wrongLength := none } } := by
  have hclamp : (Bound.atLeast (finite 0)).clamp (finite 1) = finite 1 := by
    rw [Bound.clamp, finite_larger]
    norm_num
  have hproject : rayProblem.box.project #v[finite 1] = #v[finite 1] :=
    congrArg (fun a => #v[a]) hclamp
  rw [firstTrial, hproject]
  rfl

theorem gradientIsSmall_rayProblem :
    rayProblem.gradientIsSmall (rayProblem.firstTrial #v[finite 1]).iterate = false := by
  have hclip : (Bound.atLeast (finite 0)).clipSlope (finite 1) (finite 1) = finite 1 := by
    have hup : ¬finite 1 < 0 := not_lt.mpr (zero_le_one' ℝ)
    rw [Bound.clipSlope, if_neg hup]
    change Scalar.smaller (finite 1) (finite 1 - finite 0) = finite 1
    rw [finite_sub, finite_smaller, sub_zero, min_self]
  have hnorm : rayProblem.pgNorm { x := #v[finite 1], f := finite 1, g := #v[finite 1] } =
      finite 1 := by
    refine (congrArg (fun a => Scalar.larger 0 (Scalar.abs a)) hclip).trans ?_
    refine (finite_larger 0 |1|).trans ?_
    norm_num
  rw [firstTrial_rayProblem, Trial.iterate, gradientIsSmall, hnorm]
  apply decide_eq_false
  change ¬(1 : ℝ) ≤ 1e-5
  norm_num

variable [Spaced Extended] [DenseSolver Extended]

/-- The first search makes a trial. -/
theorem trials_rayProblem :
    let st := rayProblem.initial (rayProblem.firstTrial #v[finite 1]).iterate
    (rayProblem.pass st).search.trials ≠ [] := by
  obtain ⟨hxc, hfree⟩ := of_ray rayProblem.settings.memory
  rw [firstTrial_rayProblem]
  let st : rayProblem.State :=
    rayProblem.initial { x := #v[finite 1], f := finite 1, g := #v[finite 1] }
  have hxbar : (rayProblem.pass st).step.xbar = #v[finite 0] := by
    change (SubspaceStep.of ray Store.empty #v[finite 1] #v[finite 1]
      (CauchySearch.of ray Store.empty #v[finite 1] #v[finite 1]).toCauchyPoint).xbar = _
    rw [SubspaceStep.of_of_free_eq_nil hfree]
    exact hxc
  have hslope : (rayProblem.lineFrom st).slope < 0 := by
    change dot #v[finite 1] ((rayProblem.pass st).step.xbar - #v[finite 1]) < 0
    have hway : (#v[finite 0] : Vector Extended 1) - #v[finite 1] = #v[finite (-1)] := by
      refine Vector.ext fun i hi => ?_
      obtain rfl : i = 0 := Nat.lt_one_iff.mp hi
      rw [Vector.getElem_sub]
      change finite (0 - 1) = finite (-1)
      rw [zero_sub]
    rw [hxbar, hway]
    change finite 0 + finite 1 * finite (-1) < 0
    rw [finite_mul, finite_add, finite_lt_zero]
    norm_num
  change (rayProblem.pass st).search.trials ≠ []
  rw [search_eq]
  exact Search.trials_ne_nil hslope (Nat.succ_pos _)

end Problem

theorem minimize_accounts_of_ray :
    let _ : Spaced Extended := ⟨fun _ _ _ => false⟩
    let _ := DenseSolver.symmetric Extended
    ∃ run, minimize Settings.default itself #v[finite 1] (some #[(finite 0, top)]) = .ok run ∧
      minimizeWithin Settings.default itself #v[finite 1] ray = .ok run ∧ 2 ≤ run.trials.length ∧
      (∀ t ∈ run.trials, finite 0 ≤ t.x[(0 : Fin 1)]) ∧ run.result.evals = run.trials.length ∧
      Scalar.isFinite run.result.point.f = true ∧
      run.result.point.f = run.result.point.x.head ∧ run.result.point.g = #v[finite 1] ∧
      run.Accounts ray itself := by
  intro spaced solver
  let run := rayProblem.run #v[finite 1]
  have hsettings : (Settings.default : Settings Extended).check = .ok () :=
    Settings.check_eq_ok_iff.mpr Settings.sound_default_extended
  have hwithin : minimizeWithin Settings.default itself #v[finite 1] ray = .ok run :=
    minimizeWithin_eq_ok.mpr ⟨hsettings, one_ne_zero, rfl⟩
  have hrun : minimize Settings.default itself #v[finite 1] (some #[(finite 0, top)]) = .ok run :=
    minimize_eq_ok.mpr ⟨ray, ofPairs_ray, hwithin⟩
  have hfirst : (rayProblem.firstTrial #v[finite 1]).eval.isFinite = true := by
    have hgradient : allFinite (#v[finite 1] : Vector Extended 1) = true := by
      refine Vector.all_eq_true.mpr fun i hi => ?_
      obtain rfl : i = 0 := Nat.lt_one_iff.mp hi
      rfl
    rw [Problem.firstTrial_rayProblem]
    exact hgradient
  have hpasses := Problem.run_of_passes hfirst Problem.gradientIsSmall_rayProblem
  have hfinite : run.start.eval.isFinite = true := by
    simp only [run, hpasses]
    exact hfirst
  have hmore : 2 ≤ run.trials.length := by
    obtain ⟨t, ht⟩ := List.exists_mem_of_ne_nil _ Problem.trials_rayProblem
    simp only [run, hpasses]
    exact Nat.succ_le_succ
      (List.length_pos_of_mem (List.mem_flatMap.mpr ⟨_, Problem.mem_passes _, ht⟩))
  obtain ⟨hpairs, hbox⟩ := minimize_accounts Settings.default itself #v[finite 1]
  obtain ⟨hlimits, -⟩ := hpairs _ run hrun
  have haccounts := hbox ray run hwithin
  obtain ⟨k, hk, hx, hf, hg, -⟩ := haccounts.returned
  refine ⟨run, hrun, hwithin, hmore, fun t ht => (hlimits _ rfl t ht 0 _ rfl).1 rfl,
    haccounts.evals_eq, (haccounts.finite hfinite).1, ?_, ?_, haccounts⟩
  · rw [hf, hx]
    rfl
  · exact Vector.toArray_inj.mp (hg rfl)

end

end BoxDescent
