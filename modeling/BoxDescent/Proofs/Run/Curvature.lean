import BoxDescent.Proofs.History.Admission
import BoxDescent.Proofs.LineSearch.Stages
import BoxDescent.Proofs.Run.Moves
import BoxDescent.Proofs.Run.OnLine

/-!
# The curvature of accepted steps

A step that satisfies the strong Wolfe conditions makes the slope along the line less steep.  As
its trial was made on the line, the pair that it offers to the store has curvature in proportion
to the step, so that only a very large change of the gradient can make the store refuse it.
-/

namespace BoxDescent

variable {n : Nat}

/-! ### Slopes -/

/-- Slopes that flatten by the curvature constant differ by a multiple of the steeper one. -/
theorem slope_gain {c slope after : ℝ} (hslope : slope < 0) (hflat : |after| ≤ c * -slope) :
    (1 - c) * |slope| ≤ after - slope := by
  have hafter : -(c * -slope) ≤ after := (abs_le.mp hflat).1
  rw [abs_of_neg hslope]
  linarith

/-- The product of a step along `d` with a change of the gradient is that of the change of slope. -/
theorem dot_step_change {x d g after : Vector ℝ n} (a : ℝ) :
    dot (addScaled x a d - x) (after - g) = a * (dot after d - dot g d) := by
  have hstep : coords (addScaled x a d - x) = a • coords d := by
    rw [coords_sub, coords_addScaled, add_sub_cancel_left]
  rw [dot_eq, dot_eq, dot_eq, hstep, coords_sub, smul_dotProduct, smul_eq_mul, dotProduct_sub,
    dotProduct_comm (coords d), dotProduct_comm (coords d)]

namespace Search

variable {α : Type} [Scalar α] [Spaced α] {line : Line α n} {p : SearchParams α}
  {objective : Objective α n} {calls : Nat} {stp : α} {t : Trial α n}

theorem flat_of_wolfe (h : (of line p objective calls stp).outcome = .accepted t .wolfe) :
    line.slope < 0 ∧ Scalar.abs (dot t.eval.g line.d) ≤ p.gtol * -line.slope := by
  obtain ⟨hslope, hmade, -⟩ := probed_of_accepted h
  obtain ⟨-, phase, -, -, haccept⟩ := stages_of_accepted hmade
  cases Verdict.accepts_of haccept with
  | wolfe decrease flat => exact ⟨hslope, flat⟩

end Search

namespace Problem

/-! ### The pair of a pass -/

section

variable {α : Type} [Scalar α] [Spaced α] [DenseSolver α] {p : Problem α n}

/-- Only what is accepted is offered, as the differences of points and gradients. -/
theorem admission_of_accepted {st : p.State} {t : Trial α n} {how : Acceptance}
    (h : (p.pass st).search.outcome = .accepted t how) {a : Admission α}
    (ha : (p.pass st).admission = some a) :
    a = (st.store.push (t.x - st.iterate.x) (t.eval.g - st.iterate.g)).2 := by
  change (p.afterSearch st (p.pass st).search).1 = some a at ha
  rw [afterSearch, h] at ha
  dsimp only [acceptTrial] at ha
  split at ha
  · cases ha
  · split at ha
    · cases ha
    · split at ha
      · exact (Option.some.inj ha).symm
      · exact (Option.some.inj ha).symm

end

variable [Spaced ℝ] [DenseSolver ℝ] {p : Problem ℝ n}

/-- The pair of a step accepted by the Wolfe conditions has curvature in proportion to it. -/
theorem curvature_of_wolfe {st : p.State} (hx : p.box.contains st.iterate.x = true)
    {t : Trial ℝ n} (h : (p.pass st).search.outcome = .accepted t .wolfe) :
    (p.lineFrom st).slope < 0 ∧ 0 ≤ t.stp ∧
      t.x = addScaled st.iterate.x t.stp (p.lineFrom st).d ∧
      t.stp * ((1 - p.settings.curvature) * |(p.lineFrom st).slope|) ≤
        dot (t.x - st.iterate.x) (t.eval.g - st.iterate.g) := by
  rw [search_eq] at h
  have hmem := (Search.mem_of_accepted h).1
  obtain ⟨hslope, hflat⟩ := Search.flat_of_wolfe h
  obtain ⟨⟨hnonneg, -⟩, -, hpoint⟩ := point_of_mem hx hmem
  have hgain := slope_gain hslope hflat
  refine ⟨hslope, hnonneg, hpoint, ?_⟩
  rw [hpoint, dot_step_change]
  exact mul_le_mul_of_nonneg_left hgain hnonneg

/-! ### Whole runs -/

/-- A step that a run accepts by the Wolfe conditions has curvature at least in proportion to its
length and to the slope, however many searches it took.  So its pair can be refused, but not for
a curvature that is not positive. -/
theorem wolfe_steps_have_curvature [CompleteFactor] (p : Problem ℝ n) (x0 : Vector ℝ n)
    (hcheck : p.settings.check = .ok ()) :
    ∀ pass ∈ (p.run x0).passes, ∀ t, pass.search.outcome = .accepted t .wolfe →
      let x := pass.entry.iterate.x
      let g := pass.entry.iterate.g
      let d := pass.step.direction x
      let s := t.x - x
      let y := t.eval.g - g
      let bound := (1 - p.settings.curvature) * t.stp * |dot g d|
      t.x = addScaled x t.stp d ∧ 0 ≤ bound ∧ bound ≤ dot s y ∧ (0 < t.stp → 0 < dot s y) ∧
      ∀ a, pass.admission = some a →
        a = (pass.entry.store.push s y).2 ∧
        (a.isAdmitted = false ↔ dot s y ≤ Scalar.epsilon * dot y y) ∧
        (a.isAdmitted = false → a = .refused (dot s y) (dot y y)) := by
  intro pass hpass t houtcome
  have hsettings := Settings.check_eq_ok_iff.mp hcheck
  obtain ⟨hready, hpassEq⟩ := ready_of_mem_passes hsettings hpass
  obtain ⟨st, rfl⟩ : ∃ st, pass = p.pass st := ⟨pass.entry, hpassEq⟩
  intro x g d s y bound
  obtain ⟨hslope, hnonneg, hpoint, hle⟩ := curvature_of_wolfe hready.contains houtcome
  have hroom : 0 < 1 - p.settings.curvature := sub_pos.mpr hsettings.curvature_lt
  have hsteep : 0 < |dot g d| := abs_pos.mpr (ne_of_lt hslope)
  have hbound : bound = t.stp * ((1 - p.settings.curvature) * |dot g d|) := by ring
  have hpos : 0 < (1 - p.settings.curvature) * |dot g d| := mul_pos hroom hsteep
  refine ⟨hpoint, ?_, ?_, fun hstp => ?_, fun a ha => ?_⟩
  · rw [hbound]
    exact mul_nonneg hnonneg hpos.le
  · rw [hbound]
    exact hle
  · exact lt_of_lt_of_le (mul_pos hstp hpos) hle
  · have hstore : st.store.Tabulated := hready.store.toTabulated
    have hpush : a = (st.store.push s y).2 := admission_of_accepted houtcome ha
    have hadmitted : a.isAdmitted = false ↔ dot s y ≤ Scalar.epsilon * dot y y := by
      rw [← not_lt, ← hstore.isAdmitted_push_iff s y, hpush, Bool.not_eq_true]
    refine ⟨hpush, hadmitted, fun hskipped => ?_⟩
    have hnot := not_lt.mpr (hadmitted.mp hskipped)
    rw [hpush, hstore.push_of_not_curvature hnot]

omit [Spaced ℝ] [DenseSolver ℝ] in
/-- The first step of this run is accepted by the Wolfe conditions. -/
theorem wolfe_steps_have_curvature_of_quartic :
    let _ := DenseSolver.symmetric ℝ
    let _ : Spaced ℝ := ⟨fun _ a b => decide (a = b)⟩
    let p := shortProblem
    CompleteFactor ∧ p.settings.check = .ok () ∧
      ∃ pass ∈ (p.run #v[2]).passes, ∃ t, pass.search.outcome = .accepted t .wolfe ∧
        let x := pass.entry.iterate.x
        let g := pass.entry.iterate.g
        let d := pass.step.direction x
        0 < t.stp ∧ (1 - p.settings.curvature) * t.stp * |dot g d| ≤ dot (t.x - x) (t.eval.g - g) ∧
          0 < dot (t.x - x) (t.eval.g - g) := by
  intro solver spaced p
  have hcomplete : CompleteFactor := completeFactor_symmetric
  have hexact : ExactFactor ℝ := exactFactor_symmetric
  have hcheck : p.settings.check = .ok () := Settings.check_eq_ok_iff.mpr sound_shortProblem
  have hcollapse : p.settings.bracketTolerance < 1 := by
    norm_num [p, shortProblem, Settings.default]
  obtain ⟨-, -, -, ⟨pass, hpass, t, haccepted⟩, -⟩ := run_quartic
  obtain ⟨-, -, hle, hpos, -⟩ := wolfe_steps_have_curvature p #v[2] hcheck pass hpass t haccepted
  have hstp : 0 < t.stp := by
    obtain ⟨hready, hpassEq⟩ := ready_of_mem_passes sound_shortProblem hpass
    rw [hpassEq] at haccepted
    exact (moves_of_accepted sound_shortProblem hcollapse hready haccepted).1
  exact ⟨hcomplete, hcheck, pass, hpass, t, haccepted, hstp, hle, hpos hstp⟩

end Problem

end BoxDescent
