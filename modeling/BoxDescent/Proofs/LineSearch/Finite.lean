import BoxDescent.Proofs.Extended
import BoxDescent.Proofs.LineSearch.Safeguards

/-!
# Steps that are numbers

A safeguarded step whose square roots and quotients all exist is computed among finite values: in
exact arithmetic with infinities it is the step that the real numbers give.
-/

namespace BoxDescent

open Extended

/-! ### Cubics -/

namespace Cubic

variable {drop gap w d dp : ℝ}

theorem finite_weight (hgap : gap ≠ 0) :
    weight (finite drop) (finite gap) (finite d) (finite dp) = finite (weight drop gap d dp) := by
  simp only [weight, finite_literal, finite_mul, finite_div hgap, finite_add]

theorem finite_size (w d dp : ℝ) :
    size (finite w) (finite d) (finite dp) = finite (size w d dp) := by
  rw [size_real]
  simp only [size, finite_abs, finite_larger]

theorem finite_discriminant (hsize : size w d dp ≠ 0) :
    discriminant (finite w) (finite d) (finite dp) = finite (discriminant w d dp) := by
  simp only [discriminant, finite_size, finite_div hsize, finite_mul, finite_sub]

theorem finite_root (hsize : size w d dp ≠ 0) (hreal : 0 ≤ discriminant w d dp) :
    root (finite w) (finite d) (finite dp) = finite (root w d dp) := by
  rw [root, finite_size, finite_discriminant hsize, finite_sqrt hreal]
  rfl

theorem root_undefined (hneg : discriminant w d dp < 0) :
    root (finite w) (finite d) (finite dp) = undefined := by
  have hsize : size w d dp ≠ 0 := by
    intro hzero
    have hvalue : discriminant w d dp = 0 := by
      show w / size w d dp * (w / size w d dp) - d / size w d dp * (dp / size w d dp) = 0
      rw [hzero, div_zero, div_zero, zero_mul, zero_mul, sub_self]
    exact absurd hneg (not_lt.mpr (ge_of_eq hvalue))
  rw [root, finite_size, finite_discriminant hsize, sqrt_of_neg hneg]
  rfl

theorem finite_clippedRoot (hsize : size w d dp ≠ 0) :
    clippedRoot (finite w) (finite d) (finite dp) = finite (clippedRoot w d dp) := by
  have hzero : (0 : Extended) = finite 0 := rfl
  rw [clippedRoot, finite_size, finite_discriminant hsize, hzero, finite_larger,
    finite_sqrt (le_max_right _ _), ← Scalar.larger_real]
  rfl

end Cubic

/-! ### Steps -/

/-- The point with its values among those that may be infinite. -/
@[reducible] def Endpoint.toExtended (e : Endpoint ℝ) : Endpoint Extended :=
  { stp := .finite e.stp, f := .finite e.f, dg := .finite e.dg }

@[reducible] def Interval.toExtended (iv : Interval ℝ) : Interval Extended :=
  { best := iv.best.toExtended, other := iv.other.toExtended, bracketed := iv.bracketed }

namespace Interval

variable {iv : Interval ℝ} {best trial : Endpoint ℝ} {lo hi : ℝ}

theorem trialCase_toExtended (hdg : best.dg ≠ 0) :
    trialCase best.toExtended trial.toExtended = trialCase best trial := by
  have hsigned : signedSlope best.toExtended trial.toExtended =
      .finite (signedSlope best trial) := by
    simp only [signedSlope, finite_abs, finite_div (abs_ne_zero.mpr hdg), finite_mul]
    rfl
  have hzero : signedSlope best.toExtended trial.toExtended < 0 ↔ signedSlope best trial < 0 := by
    rw [hsigned]
    exact finite_lt_zero
  by_cases hvalue : best.f < trial.f
  · rw [trialCase_of_higher hvalue]
    exact trialCase_of_higher hvalue
  by_cases hsign : signedSlope best trial < 0
  · rw [trialCase_of_opposite hvalue hsign]
    exact trialCase_of_opposite hvalue (hzero.mpr hsign)
  by_cases hflat : |trial.dg| < |best.dg|
  · rw [trialCase_of_flatter hvalue hsign hflat]
    exact trialCase_of_flatter hvalue (fun h => hsign (hzero.mp h)) hflat
  · rw [trialCase_of_steeper hvalue hsign hflat]
    exact trialCase_of_steeper hvalue (fun h => hsign (hzero.mp h)) hflat

theorem stepHigher_toExtended (hcase : trialCase iv.best trial = .higher) (h : iv.Computes trial) :
    stepHigher iv.best.toExtended trial.toExtended = .finite (stepHigher iv.best trial) := by
  have hradicands := h.radicands
  have hdivisors := h.divisors
  simp only [radicands, hcase, List.forall_mem_singleton] at hradicands
  simp only [divisors, hcase, List.forall_mem_cons, List.not_mem_nil, false_implies, implies_true,
    and_true] at hdivisors
  obtain ⟨-, hgap, hsize, hq, hsecant⟩ := hdivisors
  have htwo : (2.0 : ℝ) ≠ 0 := by norm_num
  unfold stepHigher
  simp only [finite_sub, Cubic.finite_weight hgap,
    Cubic.finite_root hsize hradicands, finite_neg, finite_ite finite_lt, finite_add, finite_mul,
    finite_div hq, finite_div hgap, finite_div hsecant, finite_literal, finite_div htwo,
    finite_abs]
  rfl

theorem stepOpposite_toExtended (hcase : trialCase iv.best trial = .opposite)
    (h : iv.Computes trial) :
    stepOpposite iv.best.toExtended trial.toExtended = .finite (stepOpposite iv.best trial) := by
  have hradicands := h.radicands
  have hdivisors := h.divisors
  simp only [radicands, hcase, List.forall_mem_singleton] at hradicands
  simp only [divisors, hcase, List.forall_mem_cons, List.not_mem_nil, false_implies, implies_true,
    and_true] at hdivisors
  obtain ⟨-, hgap, hsize, hq, hslopes⟩ := hdivisors
  unfold stepOpposite
  simp only [finite_sub, Cubic.finite_weight hgap,
    Cubic.finite_root hsize hradicands, finite_neg, finite_ite finite_lt, finite_add, finite_mul,
    finite_div hq, finite_div hslopes, finite_abs]
  rfl

theorem stepFlatter_toExtended (hcase : trialCase iv.best trial = .flatter)
    (h : iv.Computes trial) :
    iv.toExtended.stepFlatter trial.toExtended (.finite lo) (.finite hi) =
      .finite (iv.stepFlatter trial lo hi) := by
  have hdivisors := h.divisors
  simp only [divisors, hcase, List.forall_mem_cons, List.not_mem_nil, false_implies, implies_true,
    and_true] at hdivisors
  obtain ⟨-, hgap, hsize, hq, hslopes⟩ := hdivisors
  unfold stepFlatter
  simp only [finite_sub, Cubic.finite_weight hgap, Cubic.finite_clippedRoot hsize, finite_neg,
    finite_ite finite_lt, finite_add, finite_mul, finite_div hq, finite_div hslopes, finite_abs,
    finite_literal, finite_larger, finite_smaller, finite_beq_zero, finite_lt_zero,
    finite_ite Iff.rfl, Scalar.larger_real, Scalar.smaller_real]
  rfl

theorem stepSteeper_toExtended (hcase : trialCase iv.best trial = .steeper)
    (h : iv.Computes trial) :
    iv.toExtended.stepSteeper trial.toExtended (.finite lo) (.finite hi) =
      .finite (iv.stepSteeper trial lo hi) := by
  have hradicands := h.radicands
  have hdivisors := h.divisors
  unfold stepSteeper
  cases hbracketed : iv.bracketed with
  | true =>
    simp only [radicands, hcase, hbracketed, if_true, List.forall_mem_singleton] at hradicands
    simp only [divisors, hcase, hbracketed, if_true, List.forall_mem_cons, List.not_mem_nil,
      false_implies, implies_true, and_true] at hdivisors
    obtain ⟨-, hgap, hsize, hq⟩ := hdivisors
    have hreal := not_lt.mpr hradicands
    simp only [if_true, finite_sub, Cubic.finite_weight hgap, Cubic.finite_discriminant hsize,
      Cubic.finite_root hsize hradicands, finite_neg, finite_ite finite_lt, finite_add, finite_mul,
      finite_div hq, finite_lt_zero, if_neg hreal]
  | false =>
    simp only [Bool.false_eq_true, if_false, finite_ite finite_lt]

/-- A step that can be computed is computed among finite values. -/
theorem nextStep_toExtended (h : iv.Computes trial) :
    iv.toExtended.nextStep trial.toExtended (.finite lo) (.finite hi) =
      .finite (iv.nextStep trial lo hi) := by
  have hdg : iv.best.dg ≠ 0 := abs_ne_zero.mp (h.divisors _ List.mem_cons_self)
  have hsame : trialCase iv.toExtended.best trial.toExtended = trialCase iv.best trial :=
    trialCase_toExtended hdg
  unfold nextStep
  rw [hsame]
  cases hcase : trialCase iv.best trial with
  | higher => exact stepHigher_toExtended hcase h
  | opposite => exact stepOpposite_toExtended hcase h
  | flatter => exact stepFlatter_toExtended hcase h
  | steeper => exact stepSteeper_toExtended hcase h

/-- The square root of a negative discriminant spoils the step. -/
theorem nextStep_undefined (hdg : iv.best.dg ≠ 0) (hcase : trialCase iv.best trial = .steeper)
    (hbracketed : iv.bracketed = true) (hgap : iv.other.stp - trial.stp ≠ 0)
    (hneg : Cubic.discriminant
      (Cubic.weight (trial.f - iv.other.f) (iv.other.stp - trial.stp) iv.other.dg trial.dg)
      iv.other.dg trial.dg < 0) :
    iv.toExtended.nextStep trial.toExtended (.finite lo) (.finite hi) = .undefined := by
  have hroot := Cubic.root_undefined hneg
  have hsame : trialCase iv.toExtended.best trial.toExtended = .steeper :=
    (trialCase_toExtended hdg).trans hcase
  simp only [nextStep, hsame, stepSteeper, hbracketed, if_true, finite_sub,
    Cubic.finite_weight hgap, hroot, neg_undefined, ite_self, undefined_left, undefined_right]
  -- whether the test finds it or the root
  exact ite_self _

end Interval

end BoxDescent
