import BoxDescent.Proofs.Linear.Coordinates

/-!
# Norms

The largest absolute value of an entry is the norm of a vector, and the largest sum of absolute
values along a row is the norm of a matrix as an operator for it.  Both are folds with `larger`.
A fold of that kind is at most what its start and each of its terms are at most.
-/

namespace BoxDescent

open Matrix
open scoped Matrix.Norms.Operator

variable {m n : Nat}

theorem foldl_larger_le_iff {β : Type} (f : β → ℝ) (l : List β) (a c : ℝ) :
    l.foldl (fun acc e => Scalar.larger acc (f e)) a ≤ c ↔ a ≤ c ∧ ∀ e ∈ l, f e ≤ c := by
  induction l generalizing a with
  | nil => simp
  | cons e l ih =>
    rw [List.foldl_cons, ih, Scalar.larger_real, max_le_iff, List.forall_mem_cons, and_assoc]

theorem vector_foldl_larger_le_iff {β : Type} (f : β → ℝ) (v : Vector β n) (a c : ℝ) :
    v.foldl (fun acc e => Scalar.larger acc (f e)) a ≤ c ↔ a ≤ c ∧ ∀ i, f (coords v i) ≤ c := by
  rw [← Vector.foldl_toList, foldl_larger_le_iff]
  apply and_congr_right'
  constructor
  · intro h i
    exact h _ (Vector.mem_toList_iff.mpr (Vector.getElem_mem i.isLt))
  · intro h e he
    obtain ⟨i, hi, rfl⟩ := Vector.getElem_of_mem (Vector.mem_toList_iff.mp he)
    exact h ⟨i, hi⟩

/-! ### Vectors -/

theorem maxAbs_eq_norm (v : Vector ℝ n) : maxAbs v = ‖coords v‖ := by
  apply eq_of_forall_ge_iff
  intro c
  refine (vector_foldl_larger_le_iff _ v 0 c).trans ⟨?_, ?_⟩
  · rintro ⟨h0, h⟩
    exact (pi_norm_le_iff_of_nonneg h0).mpr h
  · intro h
    exact ⟨le_trans (norm_nonneg _) h, fun i => le_trans (norm_le_pi_norm (coords v) i) h⟩

theorem maxAbs_eq_zero_iff {v : Vector ℝ n} : maxAbs v = 0 ↔ coords v = 0 := by
  rw [maxAbs_eq_norm, norm_eq_zero]

/-! ### Matrices -/

theorem norm_matrix_le_iff (a : Matrix (Fin m) (Fin n) ℝ) (c : ℝ) :
    ‖a‖ ≤ c ↔ 0 ≤ c ∧ ∀ i, ∑ j, |a i j| ≤ c := by
  have hrow : ∀ i, ((∑ j, ‖a i j‖₊ : NNReal) : ℝ) = ∑ j, |a i j| := by
    intro i
    rw [NNReal.coe_sum]
    rfl
  rw [linfty_opNorm_def]
  constructor
  · intro h
    refine ⟨le_trans (NNReal.coe_nonneg _) h, fun i => le_trans ?_ h⟩
    rw [← hrow, NNReal.coe_le_coe]
    exact Finset.le_sup (f := fun i => ∑ j, ‖a i j‖₊) (Finset.mem_univ i)
  · rintro ⟨h0, h⟩
    lift c to NNReal using h0
    rw [NNReal.coe_le_coe, Finset.sup_le_iff]
    intro i _
    rw [← NNReal.coe_le_coe, hrow]
    exact h i

theorem Mat.rowSumNorm_eq_norm (a : Mat ℝ m n) : a.rowSumNorm = ‖a.toMatrix‖ := by
  apply eq_of_forall_ge_iff
  intro c
  rw [rowSumNorm, vector_foldl_larger_le_iff, norm_matrix_le_iff]
  simp only [sum_eq]
  rfl

end BoxDescent
