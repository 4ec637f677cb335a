import BoxDescent.Proofs.Cauchy.Inside
import BoxDescent.Proofs.LineSearch.Steps
import BoxDescent.Proofs.Run.Descent

/-!
# Trials on the line

Every trial point is moved onto the box before it is evaluated.  With real scalars this moves
none: the end point of the direction is in the box, the longest step leads no further than the
box reaches, and every step of a search is at most the longest one.  So what a search sees is
the objective along the line.
-/

namespace BoxDescent

variable {n : Nat}

/-! ### Boxes without limits -/

theorem Box.contains_of_not_isConstrained {box : Box ℝ n} (h : box.isConstrained = false)
    (x : Vector ℝ n) : box.contains x = true := by
  rw [Box.contains_iff]
  intro i
  have hfree : (box.kind i).isBounded = false :=
    Bool.eq_false_iff.mpr (Vector.any_eq_false.mp h i i.isLt)
  cases hkind : box.kind i with
  | unbounded => exact Bound.admits_unbounded _
  | _ =>
    rw [hkind] at hfree
    cases hfree

/-! ### Functions with a gradient -/

/-- The objective answers every call with the value and the gradient of `F` at the point. -/
structure Objective.Differentiates (objective : Objective ℝ n) (F : (Fin n → ℝ) → ℝ) : Prop where
  value : ∀ k x, (objective.eval k x).f = F (coords x)
  gradient : ∀ k x, HasFDerivAt F
    (∑ i, coords (objective.eval k x).g i • (ContinuousLinearMap.proj i : (Fin n → ℝ) →L[ℝ] ℝ))
    (coords x)

/-- The slope along a line is the gradient times the direction. -/
theorem Objective.Differentiates.hasDerivAt {objective : Objective ℝ n} {F : (Fin n → ℝ) → ℝ}
    (h : objective.Differentiates F) (k : Nat) (x d : Vector ℝ n) (stp : ℝ) :
    HasDerivAt (fun a => F (coords x + a • coords d))
      (dot (objective.eval k (addScaled x stp d)).g d) stp := by
  have hline : HasDerivAt (fun a : ℝ => coords x + a • coords d) (coords d) stp := by
    simpa using ((hasDerivAt_id stp).smul_const (coords d)).const_add (coords x)
  have hgradient := h.gradient k (addScaled x stp d)
  rw [coords_addScaled] at hgradient
  refine (hgradient.comp_hasDerivAt stp hline).congr_deriv ?_
  simp [dot_eq, dotProduct]

namespace Problem

variable [Spaced ℝ] [DenseSolver ℝ] {p : Problem ℝ n}

/-! ### The longest step -/

omit [Spaced ℝ] [DenseSolver ℝ] in
theorem one_lt_bigStep : (1 : ℝ) < bigStep := by
  unfold bigStep
  norm_num

section

omit [Spaced ℝ] [DenseSolver ℝ]

variable {x d : Vector ℝ n} (hx : p.box.contains x = true)
  (hend : p.box.contains (x + d) = true)

include hx hend

theorem one_le_maxStep : 1 ≤ p.box.maxStep x d bigStep := by
  have hbig : (1 : ℝ) ≤ bigStep := le_of_lt one_lt_bigStep
  have hstep := Box.min_one_le_maxStep hx hend (le_trans zero_le_one hbig)
  rwa [min_eq_left hbig] at hstep

/-- That the longest step is not below one changes nothing. -/
theorem longestStep_eq (iterations : Nat) :
    p.longestStep iterations x d =
      if p.box.isConstrained then if iterations = 0 then 1 else p.box.maxStep x d bigStep
      else bigStep := by
  rw [longestStep, Scalar.larger_real, max_eq_left (one_le_maxStep hx hend)]

/-- In the first iteration the longest step is one, which the box reaches as well. -/
theorem contains_of_le_longestStep {iterations : Nat} {stp : ℝ} (h0 : 0 ≤ stp)
    (hmax : stp ≤ p.longestStep iterations x d) :
    p.box.contains (addScaled x stp d) = true := by
  cases hconstrained : p.box.isConstrained with
  | false => exact Box.contains_of_not_isConstrained hconstrained _
  | true =>
    have hle : stp ≤ p.box.maxStep x d bigStep := by
      rw [longestStep_eq hx hend, if_pos hconstrained] at hmax
      split at hmax
      · exact le_trans hmax (one_le_maxStep hx hend)
      · exact hmax
    have hbig : (0 : ℝ) ≤ bigStep := le_trans zero_le_one (le_of_lt one_lt_bigStep)
    have hcap := (Box.longestFor_maxStep hx hbig d).le_cap
    exact (Box.contains_addScaled_iff_le hx d h0 (le_trans hle hcap)).mpr hle

end

/-! ### The search of a pass -/

theorem contains_end {st : p.State} (hx : p.box.contains st.iterate.x = true) :
    p.box.contains (st.iterate.x + (p.lineFrom st).d) = true := by
  have hxbar : st.iterate.x + (p.lineFrom st).d = (p.pass st).step.xbar := by
    apply coords_injective
    change coords (st.iterate.x + ((p.pass st).step.xbar - st.iterate.x)) = _
    rw [coords_add, coords_sub]
    abel
  rw [hxbar]
  exact SubspaceStep.contains_xbar (CauchySearch.contains_xc hx st.store st.iterate.g)

omit [DenseSolver ℝ] [Spaced ℝ] in
theorem firstStep_nonneg (p : Problem ℝ n) (iterations : Nat) (d : Vector ℝ n) {stpmax : ℝ}
    (hmax : 0 ≤ stpmax) : 0 ≤ p.firstStep iterations d stpmax := by
  unfold firstStep
  split
  · rw [Scalar.smaller_real]
    exact le_min (one_div_nonneg.mpr (Real.sqrt_nonneg _)) hmax
  · exact zero_le_one

omit [DenseSolver ℝ] [Spaced ℝ] in
theorem longestStep_pos (p : Problem ℝ n) (iterations : Nat) (x d : Vector ℝ n) :
    0 < p.longestStep iterations x d := by
  unfold longestStep
  split
  · split
    · exact one_pos
    · rw [Scalar.larger_real]
      exact lt_of_lt_of_le one_pos (le_max_right _ 1)
  · exact lt_trans one_pos one_lt_bigStep

theorem point_of_mem {st : p.State} (hx : p.box.contains st.iterate.x = true) {t : Trial ℝ n}
    (ht : t ∈ (p.pass st).search.trials) :
    (0 ≤ t.stp ∧ t.stp ≤ (p.lineFrom st).stpmax) ∧
      p.box.contains (addScaled st.iterate.x t.stp (p.lineFrom st).d) = true ∧
        t.x = addScaled st.iterate.x t.stp (p.lineFrom st).d := by
  rw [search_eq] at ht
  have hmax : 0 ≤ (p.lineFrom st).stpmax := le_of_lt (p.longestStep_pos _ _ _)
  obtain ⟨hbetween, hpoint⟩ := Search.between_of_mem hmax (p.firstStep_nonneg _ _ hmax) ht
  have hinside := contains_of_le_longestStep hx (contains_end hx) hbetween.1 hbetween.2
  refine ⟨hbetween, hinside, ?_⟩
  rw [hpoint]
  exact Box.project_of_contains hinside

theorem eval_of_getElem {st : p.State} (hx : p.box.contains st.iterate.x = true) {i : Nat}
    (hi : i < (p.pass st).search.trials.length) :
    let t := (p.pass st).search.trials[i]
    t.eval =
      p.objective.eval (st.evals + 1 + i) (addScaled st.iterate.x t.stp (p.lineFrom st).d) := by
  intro t
  have heval := ((calls_search st).getElem hi).2
  rwa [(point_of_mem hx (List.getElem_mem hi)).2.2] at heval

/-! ### The start of a pass -/

/-- The iterate is a point of the box, with what the objective has answered there. -/
structure Answered (p : Problem ℝ n) (it : Iterate ℝ n) : Prop where
  contains : p.box.contains it.x = true
  answer : ∃ k, it.f = (p.objective.eval k it.x).f ∧ it.g = (p.objective.eval k it.x).g

theorem Answered.next {st next : p.State} (h : Answered p st.iterate)
    (hnext : Continues p st (p.pass st).search next) : Answered p next.iterate := by
  cases hnext with
  | accepted t how outcome =>
    have hmem : t ∈ (p.pass st).search.trials := by
      rw [search_eq] at outcome ⊢
      exact (Search.mem_of_accepted outcome).1
    obtain ⟨i, hi, rfl⟩ := List.getElem_of_mem hmem
    obtain ⟨⟨y, hy⟩, heval⟩ := (calls_search st).getElem hi
    refine ⟨?_, st.evals + 1 + i, ?_⟩
    · change p.box.contains ((p.pass st).search.trials[i]).x = true
      rw [hy]
      exact Box.contains_project y
    · change ((p.pass st).search.trials[i]).eval.f = _ ∧ ((p.pass st).search.trials[i]).eval.g = _
      rw [heval]
      exact ⟨rfl, rfl⟩
  | retried => exact h

omit [DenseSolver ℝ] [Spaced ℝ] in
theorem answered_firstTrial (x0 : Vector ℝ n) : Answered p (p.firstTrial x0).iterate where
  contains := Box.contains_project x0
  answer := ⟨1, rfl, rfl⟩

omit [DenseSolver ℝ] [Spaced ℝ] in
/-- Every line starts with the value and the slope of the function there. -/
theorem Answered.along {it : Iterate ℝ n} (h : Answered p it) {F : (Fin n → ℝ) → ℝ}
    (hF : p.objective.Differentiates F) (d : Vector ℝ n) :
    it.f = F (coords it.x + (0 : ℝ) • coords d) ∧
      HasDerivAt (fun a : ℝ => F (coords it.x + a • coords d)) (dot it.g d) 0 := by
  obtain ⟨k, hf, hg⟩ := h.answer
  have hstart : addScaled it.x 0 d = it.x := by
    apply coords_injective
    rw [coords_addScaled, zero_smul, add_zero]
  have hderiv := hF.hasDerivAt k it.x d 0
  rw [hstart, ← hg] at hderiv
  refine ⟨?_, hderiv⟩
  rw [hf, hF.value, zero_smul, add_zero]

/-! ### Whole runs -/

/-- In every pass the end point of the direction is in the box, so that the longest step is one
in the first iteration, and later as long as the box reaches.  Each trial is made on the line,
between the iterate and the longest step, where projecting changes nothing; and for a
differentiable function the values and slopes that the search sees are those along the line. -/
theorem trials_on_line (p : Problem ℝ n) (x0 : Vector ℝ n) :
    ∀ pass ∈ (p.run x0).passes,
      let st := pass.entry
      let x := st.iterate.x
      let d := pass.step.direction x
      let stpmax := p.longestStep st.iterations x d
      pass.search = p.searchLine st d ∧
      p.box.contains (x + d) = true ∧ 1 ≤ p.box.maxStep x d bigStep ∧
      stpmax = (if p.box.isConstrained then
        if st.iterations = 0 then 1 else p.box.maxStep x d bigStep else bigStep) ∧
      (∀ i, (hi : i < pass.search.trials.length) →
        let t := pass.search.trials[i]
        0 ≤ t.stp ∧ t.stp ≤ stpmax ∧ t.x = addScaled x t.stp d ∧
          p.box.project (addScaled x t.stp d) = addScaled x t.stp d ∧
          t.eval = p.objective.eval (st.evals + 1 + i) (addScaled x t.stp d)) ∧
      ∀ F, p.objective.Differentiates F →
        let φ := fun a => F (coords x + a • coords d)
        (st.iterate.f = φ 0 ∧ HasDerivAt φ (dot st.iterate.g d) 0) ∧
        ∀ t ∈ pass.search.trials, t.eval.f = φ t.stp ∧ HasDerivAt φ (dot t.eval.g d) t.stp := by
  intro pass hpass
  -- all else is read off one pass: only the place of the iterate is carried along the run
  obtain ⟨hstanding, hpassEq⟩ := run_invariant (fun st => Answered p st.iterate)
    (fun _ _ => answered_firstTrial x0) (fun _ _ => Answered.next) pass hpass
  obtain ⟨st, rfl⟩ : ∃ st, pass = p.pass st := ⟨pass.entry, hpassEq⟩
  intro _ x d stpmax
  have hx : p.box.contains x = true := hstanding.contains
  have hend : p.box.contains (x + d) = true := contains_end hx
  refine ⟨rfl, hend, one_le_maxStep hx hend, longestStep_eq hx hend _, ?_, ?_⟩
  · intro i hi t
    obtain ⟨⟨hnonneg, hmax⟩, hinside, hpoint⟩ := point_of_mem hx (List.getElem_mem hi)
    exact ⟨hnonneg, hmax, hpoint, Box.project_of_contains hinside, eval_of_getElem hx hi⟩
  · intro F hF φ
    refine ⟨hstanding.along hF d, fun t ht => ?_⟩
    obtain ⟨i, hi, rfl⟩ := List.getElem_of_mem ht
    have heval : ((p.pass st).search.trials[i]).eval = _ := eval_of_getElem hx hi
    rw [heval, hF.value, coords_addScaled]
    exact ⟨rfl, hF.hasDerivAt _ _ _ _⟩

/-- The numbers that are not negative. -/
noncomputable def halfLine : Box ℝ 1 := .ofFn (fun _ => .atLeast 0) fun _ => valid_atLeast 0

noncomputable def halfLineProblem : Problem ℝ 1 where
  settings := Settings.default
  objective := identity
  box := halfLine

section

omit [DenseSolver ℝ] [Spaced ℝ]

theorem kind_halfLine (i : Fin 1) : halfLine.kind i = .atLeast 0 := Box.kind_ofFn _ _ i

theorem contains_halfLine : halfLine.contains #v[3] = true := by
  rw [Box.contains_iff]
  intro i
  rw [kind_halfLine, Subsingleton.elim i 0]
  exact ⟨fun l hl => by cases hl; exact zero_le_three, fun u hu => nomatch hu⟩

theorem projectedGradient_halfLine : halfLine.projectedGradient #v[3] #v[1] = #v[1] := by
  apply eq_of_one_variable
  rw [coords_apply, Box.getElem_projectedGradient, kind_halfLine]
  show (if (1 : ℝ) < 0 then (1 : ℝ) else Scalar.smaller (1 : ℝ) (3 - 0)) = 1
  rw [if_neg (by norm_num), Scalar.smaller_real]
  norm_num

theorem differentiates_identity : Objective.Differentiates identity fun v => v 0 where
  value _ _ := rfl
  gradient k x := by
    have hslope : coords (identity.eval k x).g 0 = 1 := rfl
    rw [Fin.sum_univ_one, hslope, one_smul]
    exact (ContinuousLinearMap.proj (0 : Fin 1) : (Fin 1 → ℝ) →L[ℝ] ℝ).hasFDerivAt

theorem gradientIsSmall_halfLine :
    halfLineProblem.gradientIsSmall (halfLineProblem.firstTrial #v[3]).iterate = false := by
  have hproject : halfLineProblem.box.project #v[3] = #v[3] :=
    Box.project_of_contains contains_halfLine
  have hit : (halfLineProblem.firstTrial #v[3]).iterate = { x := #v[3], f := 3, g := #v[1] } := by
    rw [firstTrial, hproject]
    rfl
  have hnorm : halfLineProblem.pgNorm { x := #v[3], f := 3, g := #v[1] } = 1 := by
    change maxAbs (halfLine.projectedGradient #v[3] #v[1]) = 1
    rw [projectedGradient_halfLine]
    change Scalar.larger (0 : ℝ) |1| = 1
    rw [Scalar.larger_real, abs_one, max_eq_right zero_le_one]
  rw [hit, gradientIsSmall, hnorm]
  apply decide_eq_false
  norm_num [halfLineProblem, Settings.default]

theorem trials_on_line_of_half_line :
    let _ := DenseSolver.symmetric ℝ
    let _ : Spaced ℝ := ⟨fun _ a b => decide (a = b)⟩
    let p := halfLineProblem
    p.box.isConstrained = true ∧ p.objective.Differentiates (fun v => v 0) ∧
      ∃ pass ∈ (p.run #v[3]).passes, ∃ i, ∃ hi : i < pass.search.trials.length,
        let x := pass.entry.iterate.x
        let d := pass.step.direction x
        let t := pass.search.trials[i]
        1 ≤ p.box.maxStep x d bigStep ∧ 0 ≤ t.stp ∧ t.stp ≤ 1 ∧ t.x = addScaled x t.stp d ∧
          t.eval.f = (coords x + t.stp • coords d) 0 := by
  intro solver spaced p
  have hexact : ExactFactor ℝ := exactFactor_symmetric
  have hconstrained : p.box.isConstrained = true :=
    Vector.any_eq_true.mpr ⟨0, Nat.one_pos, congrArg Bound.isBounded (kind_halfLine 0)⟩
  have hlarge := gradientIsSmall_halfLine
  have hfinite : (p.firstTrial #v[3]).eval.isFinite = true :=
    (Evaluation.isFinite_real _).trans rfl
  have hpass : p.pass (p.initial (p.firstTrial #v[3]).iterate) ∈ (p.run #v[3]).passes := by
    rw [run_of_passes hfinite hlarge]
    exact mem_passes _
  have hready := (ready_of_mem_passes Settings.sound_default_real hpass).1
  have hgrad := projectedGradient_ne_zero Settings.sound_default_real hready.gradient
  obtain ⟨-, -, hneg⟩ := SubspaceStep.descends hready.store hready.contains hgrad
    (SubspaceStep.fallback_of_isEmpty rfl _) (SubspaceStep.solvedExactly_of_isEmpty rfl _)
  have htrial : 0 < (p.pass (p.initial (p.firstTrial #v[3]).iterate)).search.trials.length := by
    rw [List.length_pos_iff, search_eq]
    exact Search.trials_ne_nil hneg (Nat.succ_pos _)
  obtain ⟨-, -, hreach, hmax, htrials, hline⟩ := trials_on_line p #v[3] _ hpass
  obtain ⟨hnonneg, hle, hpoint, -, -⟩ := htrials 0 htrial
  have hvalue := ((hline _ differentiates_identity).2 _ (List.getElem_mem htrial)).1
  rw [hmax, if_pos hconstrained] at hle
  exact ⟨hconstrained, differentiates_identity, _, hpass, 0, htrial, hreach, hnonneg, hle, hpoint,
    hvalue⟩

end

end Problem

end BoxDescent
