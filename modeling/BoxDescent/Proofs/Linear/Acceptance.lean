import BoxDescent.Proofs.Linear.Elimination
import BoxDescent.Proofs.Linear.Norms

/-!
# Acceptance of solutions

A proposed solution passes if it is not larger than the condition threshold admits and its
residual is small.  If the condition number of the matrix is within the threshold, the exact
solution passes for every right-hand side, since `|A⁻¹ b| ≤ |A⁻¹| |b|`.
-/

namespace BoxDescent

open Matrix
open scoped Matrix.Norms.Operator

variable {k : Nat}

theorem acceptsSolution_iff (a : Mat ℝ k k) (b : Vector ℝ k) (rcond : ℝ) (x : Vector ℝ k) :
    acceptsSolution a b rcond x = true ↔
      rcond * ‖a.toMatrix‖ * ‖coords x‖ ≤ ‖coords b‖ ∧
        ‖a.toMatrix *ᵥ coords x - coords b‖ ≤
          √Scalar.epsilon * (‖a.toMatrix‖ * ‖coords x‖ + ‖coords b‖) := by
  have hresidual : maxAbs (residual a x b) = ‖a.toMatrix *ᵥ coords x - coords b‖ := by
    rw [maxAbs_eq_norm, residual, coords_sub, coords_mulVec]
  simp only [acceptsSolution, allFinite_real, Bool.true_and, Bool.and_eq_true, Bool.not_eq_true',
    decide_eq_false_iff_not, not_lt, hresidual, maxAbs_eq_norm, Mat.rowSumNorm_eq_norm]
  rfl

theorem symmetricSolve_eq_some_iff [DenseSolver ℝ] {a : Mat ℝ k k} {b x : Vector ℝ k} {rcond : ℝ} :
    symmetricSolve a b rcond = some x ↔
      acceptsSolution a b rcond (DenseSolver.propose a b) = true ∧ DenseSolver.propose a b = x := by
  have hfinite : (Mat.allFinite a && allFinite b) = true := by
    rw [Mat.allFinite_real, allFinite_real, Bool.and_self]
  rw [symmetricSolve, if_pos hfinite]
  exact Option.ite_none_right_eq_some.trans (and_congr_right' Option.some_inj)

/-- The solution passes if the condition number does. -/
theorem accepts_of_condition {a : Mat ℝ k k} {b x : Vector ℝ k} {rcond : ℝ}
    (hdet : a.toMatrix.det ≠ 0) (hrcond : 0 < rcond)
    (hcond : ‖a.toMatrix‖ * ‖a.toMatrix⁻¹‖ ≤ 1 / rcond)
    (hx : a.toMatrix *ᵥ coords x = coords b) : acceptsSolution a b rcond x = true := by
  have hinverse : coords x = a.toMatrix⁻¹ *ᵥ coords b := by
    rw [← hx, mulVec_mulVec, nonsing_inv_mul _ (Ne.isUnit hdet), one_mulVec]
  rw [acceptsSolution_iff]
  constructor
  · have hscaled : rcond * (‖a.toMatrix‖ * ‖a.toMatrix⁻¹‖) ≤ 1 := by
      rw [le_div_iff₀ hrcond] at hcond
      linarith
    calc rcond * ‖a.toMatrix‖ * ‖coords x‖
        ≤ rcond * ‖a.toMatrix‖ * (‖a.toMatrix⁻¹‖ * ‖coords b‖) := by
          rw [hinverse]
          exact mul_le_mul_of_nonneg_left (linfty_opNorm_mulVec _ _) (by positivity)
      _ = rcond * (‖a.toMatrix‖ * ‖a.toMatrix⁻¹‖) * ‖coords b‖ := by ring
      _ ≤ 1 * ‖coords b‖ := mul_le_mul_of_nonneg_right hscaled (norm_nonneg _)
      _ = ‖coords b‖ := one_mul _
  · rw [hx, sub_self, norm_zero]
    positivity

/-- A solver that is exact is believed wherever the condition number is within the threshold, and
no solver is believed without the test. -/
theorem symmetricSolve_of_condition [DenseSolver ℝ] (a : Mat ℝ k k) (b : Vector ℝ k) (rcond : ℝ) :
    (ExactProposal → a.toMatrix.IsSymm → a.toMatrix.det ≠ 0 → 0 < rcond →
      ‖a.toMatrix‖ * ‖a.toMatrix⁻¹‖ ≤ 1 / rcond →
        (symmetricSolve a b rcond).map coords = some (a.toMatrix⁻¹ *ᵥ coords b)) ∧
    ∀ x, symmetricSolve a b rcond = some x ↔
      x = DenseSolver.propose a b ∧
        rcond * ‖a.toMatrix‖ * ‖coords x‖ ≤ ‖coords b‖ ∧
        ‖a.toMatrix *ᵥ coords x - coords b‖ ≤
          √Scalar.epsilon * (‖a.toMatrix‖ * ‖coords x‖ + ‖coords b‖) := by
  constructor
  · intro hexact hsymm hdet hrcond hcond
    have hsolves : a.toMatrix *ᵥ coords (DenseSolver.propose a b) = coords b := by
      rw [← coords_mulVec, hexact.mulVec_propose b hsymm hdet]
    have haccept := accepts_of_condition hdet hrcond hcond hsolves
    rw [symmetricSolve_eq_some_iff.mpr ⟨haccept, rfl⟩, Option.map_some, ← hsolves, mulVec_mulVec,
      nonsing_inv_mul _ (Ne.isUnit hdet), one_mulVec]
  · intro x
    rw [symmetricSolve_eq_some_iff]
    constructor
    · rintro ⟨haccept, rfl⟩
      exact ⟨rfl, (acceptsSolution_iff a b rcond _).mp haccept⟩
    · rintro ⟨rfl, haccept⟩
      exact ⟨(acceptsSolution_iff a b rcond _).mpr haccept, rfl⟩

/-! ### A matrix at its condition number -/

/-- An indefinite matrix with norm 3, whose inverse has norm 1. -/
noncomputable def indefinite : Mat ℝ 2 2 := #v[#v[1, 2], #v[2, 1]]

theorem toMatrix_indefinite : indefinite.toMatrix = !![1, 2; 2, 1] := by
  ext i j
  fin_cases i <;> fin_cases j <;> rfl

theorem inv_indefinite : indefinite.toMatrix⁻¹ = !![-1 / 3, 2 / 3; 2 / 3, -1 / 3] := by
  apply inv_eq_right_inv
  rw [toMatrix_indefinite]
  ext i j
  fin_cases i <;> fin_cases j <;> norm_num [Matrix.mul_apply, Fin.sum_univ_two]

theorem condition_indefinite :
    ‖indefinite.toMatrix‖ * ‖indefinite.toMatrix⁻¹‖ ≤ 1 / (1 / 3) := by
  have hnorm : ‖indefinite.toMatrix‖ ≤ 3 := by
    rw [norm_matrix_le_iff, toMatrix_indefinite]
    norm_num [Fin.forall_fin_two, Fin.sum_univ_two]
  have hinverse : ‖indefinite.toMatrix⁻¹‖ ≤ 1 := by
    rw [norm_matrix_le_iff, inv_indefinite]
    norm_num [Fin.forall_fin_two, Fin.sum_univ_two, abs_div]
  calc ‖indefinite.toMatrix‖ * ‖indefinite.toMatrix⁻¹‖ ≤ 3 * 1 :=
        mul_le_mul hnorm hinverse (norm_nonneg _) zero_le_three
    _ = 1 / (1 / 3) := by norm_num

theorem symmetricSolve_of_condition_three :
    let _ := DenseSolver.symmetric ℝ
    let b : Vector ℝ 2 := #v[1, -1]
    let x : Vector ℝ 2 := #v[-1, 1]
    ExactProposal ∧ indefinite.toMatrix.IsSymm ∧ indefinite.toMatrix.det ≠ 0 ∧ (0 : ℝ) < 1 / 3 ∧
      ‖indefinite.toMatrix‖ * ‖indefinite.toMatrix⁻¹‖ ≤ 1 / (1 / 3) ∧
      symmetricSolve indefinite b (1 / 3) = some x ∧
      1 / 3 * ‖indefinite.toMatrix‖ * ‖coords x‖ ≤ ‖coords b‖ := by
  intro solver b x
  have hexact : ExactProposal := exactProposal_symmetric
  have hsymm : indefinite.toMatrix.IsSymm := by
    rw [toMatrix_indefinite]
    apply IsSymm.ext
    intro i j
    fin_cases i <;> fin_cases j <;> rfl
  have hdet : indefinite.toMatrix.det ≠ 0 := by
    rw [toMatrix_indefinite, det_fin_two_of]
    norm_num
  have hrcond : (0 : ℝ) < 1 / 3 := one_div_pos.mpr zero_lt_three
  obtain ⟨hsolved, honly⟩ := symmetricSolve_of_condition indefinite b (1 / 3)
  have hsome := hsolved hexact hsymm hdet hrcond condition_indefinite
  have hx : symmetricSolve indefinite b (1 / 3) = some x := by
    obtain ⟨v, hv, hcoords⟩ := Option.map_eq_some_iff.mp hsome
    rw [hv]
    apply congrArg some
    apply coords_injective
    rw [hcoords, inv_indefinite]
    funext i
    fin_cases i <;> norm_num [mulVec, dotProduct, coords, b, x, Fin.sum_univ_two]
  exact ⟨hexact, hsymm, hdet, hrcond, condition_indefinite, hx, ((honly x).mp hx).2.1⟩

end BoxDescent
