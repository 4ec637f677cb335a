import BoxDescent.Proofs.Linear.Coordinates
import BoxDescent.Proofs.LineSearch.Ahead
import BoxDescent.Proofs.Projection

/-!
# Brackets that collapse at once

With a bracket tolerance of one or more, an interval that begins at the start counts as collapsed
however wide it is.  A first trial above the start then sends the search back to the start, and
the start is accepted as a step.
-/

namespace BoxDescent

variable {n : Nat} [Spaced ℝ] {line : Line ℝ n} {p : SearchParams ℝ}

/-! ### The first verdict -/

namespace Verdict

/-- A first trial above the start is followed by the start. -/
theorem next_of_higher (hslope : line.slope < 0) (hftol : 0 < p.ftol) (hxtol : 1 ≤ p.xtol)
    {t : Trial ℝ n} (hfinite : t.eval.isFinite = true) (hpos : 0 < t.stp)
    (hhigher : line.f0 < t.eval.f) (stp : ℝ) :
    ∃ b, Verdict.of line p (.interpolating (Bracket.begin line stp)) t =
        .next (.interpolating b) 0 ∧
      b.interval.bracketed = true ∧ b.stmin = 0 := by
  obtain ⟨b, step, hnext, hinterval, hmin, -, hstep⟩ :=
    next_of_above hslope hftol hfinite hpos hhigher stp
  -- the whole interval is not wider than its upper end
  have hcollapsed : ∀ c, Bracket.noRoom p 0 t.stp c = true := by
    intro c
    by_contra hroom
    rw [Bool.not_eq_true, Bracket.noRoom_eq_false_iff, sub_zero] at hroom
    exact absurd hroom.2.2 (not_lt.mpr (le_mul_of_one_le_left (le_of_lt hpos) hxtol))
  obtain ⟨c, hc⟩ := hstep
  rw [hcollapsed, if_pos rfl] at hc
  rw [hc] at hnext
  exact ⟨b, hnext, by rw [hinterval], hmin⟩

end Verdict

/-! ### The search -/

/-- Along a line on which the first trial is above the start, the search accepts the start. -/
theorem Search.accepted_at_start (hslope : line.slope < 0) (hftol : 0 < p.ftol) (hxtol : 1 ≤ p.xtol)
    (hevals : 2 ≤ p.maxEvals) (hstart : line.box.contains line.x = true)
    {objective : Objective ℝ n} {calls : Nat} {stp : ℝ} (hstp : 0 < stp) (hmax : 0 < line.stpmax)
    (hfirst : (line.trial objective (calls + 1) (min stp line.stpmax)).eval.isFinite = true)
    (hhigher : line.f0 < (line.trial objective (calls + 1) (min stp line.stpmax)).eval.f)
    (hsecond : (objective.eval (calls + 2) line.x).isFinite = true)
    (hvalue : (objective.eval (calls + 2) line.x).f = line.f0) :
    ∃ t how, (Search.of line p objective calls stp).outcome = .accepted t how ∧
      t.stp = 0 ∧ t.x = line.x ∧ t.eval = objective.eval (calls + 2) line.x := by
  have hpoint : line.point 0 = line.x := by
    have hstay : (Vector.ofFn fun i => line.x[i] + 0 * line.d[i] : Vector ℝ n) = line.x := by
      apply coords_injective
      rw [coords_ofFn]
      funext i
      rw [zero_mul, add_zero]
      rfl
    change line.box.project (Vector.ofFn fun i => line.x[i] + 0 * line.d[i]) = line.x
    rw [hstay, Box.project_of_contains hstart]
  obtain ⟨left, hleft⟩ : ∃ left, p.maxEvals = left + 2 := ⟨p.maxEvals - 2, by omega⟩
  obtain ⟨b, hnext, hbracketed, hstmin⟩ := Verdict.next_of_higher hslope hftol hxtol hfirst
    (lt_min hstp hmax) hhigher stp
  have htrial : (line.trial objective (calls + 2) 0).eval = objective.eval (calls + 2) line.x :=
    congrArg (objective.eval (calls + 2)) hpoint
  rw [← htrial] at hsecond hvalue
  -- back at the start the bracket cannot shrink
  obtain ⟨how, haccept⟩ :=
    Verdict.accept_at_edge hsecond hbracketed (ge_of_eq hstmin) (le_of_eq hvalue)
  refine ⟨line.trial objective (calls + 2) 0, how, ?_, rfl, hpoint, htrial⟩
  rw [of_descent hslope, probed, hleft, Scalar.smaller_real, probe, hnext]
  dsimp only
  rw [probe, haccept]

end BoxDescent
