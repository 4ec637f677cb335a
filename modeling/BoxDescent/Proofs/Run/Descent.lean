import BoxDescent.Proofs.Cauchy.Stationary
import BoxDescent.Proofs.Run.Passes
import BoxDescent.Proofs.Settings
import BoxDescent.Proofs.Subspace.Descent

/-!
# Descent in a run

Every pass of a run starts at a point of the box at which the projected gradient is above
its tolerance, with a consistent store.  So without corrections its direction leads
downhill.
-/

namespace BoxDescent

variable [DenseSolver ℝ] {n : Nat}

namespace Problem

variable {p : Problem ℝ n}

/-- What holds of the state at the start of every pass. -/
structure Ready (p : Problem ℝ n) (st : p.State) : Prop where
  contains : p.box.contains st.iterate.x = true
  gradient : p.gradientIsSmall st.iterate = false
  store : st.store.Consistent

omit [DenseSolver ℝ] in
theorem projectedGradient_ne_zero (hsettings : p.settings.Sound) {it : Iterate ℝ n}
    (h : p.gradientIsSmall it = false) :
    p.box.projectedGradient it.x it.g ≠ Vector.replicate n 0 := by
  intro hzero
  have hnorm : p.pgNorm it = 0 := Box.projectedGradientNorm_eq_zero_iff.mpr hzero
  rw [gradientIsSmall, hnorm] at h
  exact of_decide_eq_false h (le_of_lt hsettings.gradientTolerance_pos)

theorem ready_initial (hsettings : p.settings.Sound) {x0 : Vector ℝ n}
    (hgrad : p.gradientIsSmall (p.firstTrial x0).iterate = false) :
    Ready p (p.initial (p.firstTrial x0).iterate) where
  contains := Box.contains_project x0
  gradient := hgrad
  store := Store.consistent_empty hsettings.memory_pos

variable [Spaced ℝ]

theorem Ready.next (hsettings : p.settings.Sound) {st next : p.State} (h : Ready p st)
    (hnext : Continues p st (p.pass st).search next) : Ready p next := by
  cases hnext with
  | accepted t how outcome gradient reduction room =>
    exact
      { contains := by
          obtain ⟨y, hy⟩ := project_of_accepted outcome
          rw [Trial.iterate, hy]
          exact Box.contains_project y
        gradient := gradient
        store := h.store.push _ _ }
  | retried failed corrections =>
    exact
      { contains := h.contains
        gradient := h.gradient
        store := Store.consistent_empty hsettings.memory_pos }

theorem ready_of_mem_passes (hsettings : p.settings.Sound) {x0 : Vector ℝ n}
    {pass : Pass ℝ n p.settings.memory} (h : pass ∈ (p.run x0).passes) :
    Ready p pass.entry ∧ pass = p.pass pass.entry := by
  exact run_invariant (Ready p) (fun _ => ready_initial hsettings)
    (fun _ _ => Ready.next hsettings) pass h

/-- From a point of the box at which the projected gradient is not zero, a step that does not
fall back and whose reduced system is solved exactly leads downhill, cut or not: the model is
not higher at its end point than at the Cauchy point, where it is lower than at the start.
So in a run a search made without corrections never meets a line that does not descend. -/
theorem descends_to_end_point [ExactFactor ℝ] :
    (∀ {n cap : Nat}, 0 < cap → ∀ (ops : List (Store.Operation ℝ n)) (box : Box ℝ n)
      (x g : Vector ℝ n), box.contains x = true →
        box.projectedGradient x g ≠ Vector.replicate n 0 →
          let store : Store ℝ n cap := Store.after ops
          let cp := (CauchySearch.of box store x g).toCauchyPoint
          let step := SubspaceStep.of box store x g cp
          let m := CauchySearch.modelChange store x g
          step.fallback = false →
            SubspaceStep.SolvedExactly store cp.free
              (SubspaceStep.reducedGradient store x g cp) →
              m step.xbar ≤ m cp.xc ∧ m cp.xc < m x ∧ dot g (step.direction x) < 0) ∧
    (∀ {n : Nat} (p : Problem ℝ n) (x0 : Vector ℝ n), p.settings.check = .ok () →
      ∀ pass ∈ (p.run x0).passes, pass.entry.store.isEmpty = true →
        ∀ slope, pass.search.outcome ≠ .notDescent slope) := by
  constructor
  · intro n cap hcap ops box x g hx hgrad store cp step m hfallback hexact
    exact SubspaceStep.descends (Store.consistent_after hcap ops) hx hgrad hfallback hexact
  · intro n p x0 hcheck pass hpass hempty slope hslope
    have hsettings := Settings.check_eq_ok_iff.mp hcheck
    obtain ⟨hready, hpassEq⟩ := ready_of_mem_passes hsettings hpass
    have hgrad := projectedGradient_ne_zero hsettings hready.gradient
    obtain ⟨-, -, hneg⟩ := SubspaceStep.descends hready.store hready.contains hgrad
      (SubspaceStep.fallback_of_isEmpty hempty _) (SubspaceStep.solvedExactly_of_isEmpty hempty _)
    rw [hpassEq, search_eq] at hslope
    exact Search.slope_of_notDescent hslope hneg

/-- One variable as its own value. -/
def identity : Objective ℝ 1 := fun _ x => (x.head, #[1])

/-- The sum of two variables, turned down. -/
def falling : Objective ℝ 2 := fun _ x => (-(x[(0 : Fin 2)] + x[(1 : Fin 2)]), #[-1, -1])

noncomputable def tiedProblem : Problem ℝ 2 where
  settings := Settings.default
  objective := falling
  box := tiedBox

section

omit [DenseSolver ℝ] [Spaced ℝ]

theorem iterate_tiedProblem : (tiedProblem.firstTrial #v[0, 0]).iterate =
    { x := #v[0, 0], f := -(0 + 0), g := #v[-1, -1] } := by
  rw [firstTrial, show tiedProblem.box.project #v[0, 0] = #v[0, 0] from
    Box.project_of_contains contains_tied]
  rfl

theorem projectedGradient_tied :
    tiedBox.projectedGradient #v[0, 0] #v[-1, -1] = #v[-(3 / 8), -(3 / 8)] := by
  have hclip : (Bound.atMost (3 / 8) : Bound ℝ).clipSlope 0 (-1) = -(3 / 8) := by
    norm_num [Bound.clipSlope, Bound.upper?, Scalar.larger_real]
  apply coords_injective
  funext i
  rw [coords_apply, Box.getElem_projectedGradient, kind_tiedBox]
  fin_cases i
  · exact hclip
  · exact hclip

theorem gradientIsSmall_tiedProblem :
    tiedProblem.gradientIsSmall (tiedProblem.firstTrial #v[0, 0]).iterate = false := by
  have hnorm : tiedBox.projectedGradientNorm #v[0, 0] #v[-1, -1] = 3 / 8 := by
    rw [Box.projectedGradientNorm, projectedGradient_tied]
    change Scalar.larger (Scalar.larger 0 |(-(3 / 8) : ℝ)|) |(-(3 / 8) : ℝ)| = 3 / 8
    norm_num [Scalar.larger_real, abs_of_pos]
  rw [iterate_tiedProblem, gradientIsSmall, pgNorm, tiedProblem, hnorm]
  apply decide_eq_false
  norm_num [Settings.default]

/-- With a pair the step goes back from the limit of the second variable, and its end point is
downhill; a run from the same point, with the same gradient there, makes its first search without
corrections. -/
theorem descends_to_end_point_behind_tie :
    let _ := DenseSolver.symmetric ℝ
    let _ : Spaced ℝ := ⟨fun _ a b => decide (a = b)⟩
    let store : Store ℝ 2 1 := Store.after [.offer #v[1, 1] #v[1, 3]]
    let x : Vector ℝ 2 := #v[0, 0]
    let g : Vector ℝ 2 := #v[-1, -1]
    let cp := (CauchySearch.of tiedBox store x g).toCauchyPoint
    let step := SubspaceStep.of tiedBox store x g cp
    let m := CauchySearch.modelChange store x g
    let run := tiedProblem.run x
    ExactFactor ℝ ∧ tiedBox.projectedGradient x g ≠ Vector.replicate 2 0 ∧
      step.fallback = false ∧
      SubspaceStep.SolvedExactly store cp.free (SubspaceStep.reducedGradient store x g cp) ∧
      step.xbar ≠ cp.xc ∧ m step.xbar ≤ m cp.xc ∧ m cp.xc < m x ∧ dot g (step.direction x) < 0 ∧
      tiedProblem.settings.check = .ok () ∧
      ∃ pass ∈ run.passes, pass.entry.store.isEmpty = true ∧
        ∀ slope, pass.search.outcome ≠ .notDescent slope := by
  intro solver spaced store x g cp step m run
  have hexact : ExactFactor ℝ := exactFactor_symmetric
  have hproposal : ExactProposal := exactProposal_symmetric
  have hcomplete : CompleteFactor := completeFactor_symmetric
  have hstore : store.Consistent := Store.consistent_after Nat.one_pos _
  have hsecant := dense_mulVec_tied
  have hgrad : tiedBox.projectedGradient x g ≠ Vector.replicate 2 0 := fun he =>
    velocity_tied_ne_zero ((Path.projectedGradient_eq_iff contains_tied).mp he)
  have hsolves : SubspaceStep.Solves store cp.free (SubspaceStep.reducedGradient store x g cp) :=
    SubspaceStep.solves_tied hstore.toTabulated pairs_tied (sides_tied hstore hsecant).2 _
  have hfallback : step.fallback = false := hsolves.fallback_eq
  obtain ⟨-, hback⟩ : _ ∧ step.xbar[(1 : Fin 2)] < cp.xc[(1 : Fin 2)] :=
    SubspaceStep.whole_tied hstore hsecant hfallback hsolves.solvedExactly
  have hmoves : step.xbar ≠ cp.xc := by
    intro he
    rw [he] at hback
    exact lt_irrefl _ hback
  obtain ⟨hstep, hrun⟩ := descends_to_end_point
  obtain ⟨hle, hlt, hneg⟩ := hstep Nat.one_pos [.offer #v[1, 1] #v[1, 3]] tiedBox x g
    contains_tied hgrad hfallback hsolves.solvedExactly
  have hcheck : tiedProblem.settings.check = .ok () :=
    Settings.check_eq_ok_iff.mpr Settings.sound_default_real
  have hfinite : (tiedProblem.firstTrial x).eval.isFinite = true :=
    (Evaluation.isFinite_real _).trans rfl
  have hfirst : tiedProblem.pass (tiedProblem.initial (tiedProblem.firstTrial x).iterate) ∈
      run.passes := by
    simp only [run, run_of_passes hfinite gradientIsSmall_tiedProblem]
    exact mem_passes _
  exact ⟨hexact, hgrad, hfallback, hsolves.solvedExactly, hmoves, hle, hlt, hneg, hcheck, _, hfirst,
    rfl, hrun tiedProblem x hcheck _ hfirst rfl⟩

end

end Problem

end BoxDescent
