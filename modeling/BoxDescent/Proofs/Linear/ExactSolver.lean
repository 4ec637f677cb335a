import BoxDescent.Proofs.Linear.Coordinates
import BoxDescent.Linear.DiagonalPivoting

/-!
# Exact factorizations

What the curvature history asks of a factorization in exact arithmetic: that it solves
its system, and that every positive definite matrix has one.  The Cholesky factorization
has both properties over the real numbers.  With `r` the root of the first entry of a
matrix `A`, `c` its first column divided by `r`, and `R` what remains once `c * cᵀ` is
taken away,

    x · A x = (r * x₀ + c · x')² + x' · R x',

so `R` is positive definite if `A` is.
-/

namespace BoxDescent

open Matrix

/-- Factors solve the symmetric systems of which they are made. -/
class ExactFactor (α : Type) [Scalar α] [DenseSolver α] : Prop where
  mulVec_solve : ∀ {k : Nat} {a : Mat α k k} {f : DenseSolver.Factor α k} (b : Vector α k),
    a.toMatrix.IsSymm → DenseSolver.factor a = some f →
      Mat.mulVec a (DenseSolver.solve f b) = b

/-- Positive definite matrices have a factor. -/
class CompleteFactor [DenseSolver ℝ] : Prop where
  isSome_factor : ∀ {k : Nat} {a : Mat ℝ k k}, a.toMatrix.PosDef →
    (DenseSolver.factor a).isSome = true

namespace Cholesky

variable {k : Nat}

/-- The root of the first entry. -/
noncomputable def leadPivot (a : Mat ℝ (k + 1) (k + 1)) : ℝ := Real.sqrt (a.toMatrix 0 0)

/-- The first column below the diagonal, divided by the pivot. -/
noncomputable def leadColumn (a : Mat ℝ (k + 1) (k + 1)) : Vector ℝ k :=
  Vector.ofFn fun i => a.toMatrix i.succ 0 * (1 / leadPivot a)

noncomputable def remainder (a : Mat ℝ (k + 1) (k + 1)) : Mat ℝ k k :=
  Mat.ofFn fun i j => a.toMatrix i.succ j.succ - (leadColumn a)[i] * (leadColumn a)[j]

theorem ofLower?_succ (a : Mat ℝ (k + 1) (k + 1)) :
    ofLower? a = if 0 < a.toMatrix 0 0 then
      (ofLower? (remainder a)).map (cons (leadPivot a) (leadColumn a)) else none := rfl

variable {a : Mat ℝ (k + 1) (k + 1)}

theorem leadPivot_pos (h : 0 < a.toMatrix 0 0) : 0 < leadPivot a := Real.sqrt_pos.mpr h

theorem leadPivot_sq (h : 0 < a.toMatrix 0 0) : leadPivot a * leadPivot a = a.toMatrix 0 0 :=
  Real.mul_self_sqrt (le_of_lt h)

theorem toMatrix_succ_zero (h : 0 < a.toMatrix 0 0) (i : Fin k) :
    a.toMatrix i.succ 0 = leadPivot a * coords (leadColumn a) i := by
  have hr := leadPivot_pos h
  simp only [leadColumn, coords_ofFn]
  field_simp

theorem toMatrix_zero_succ (h : 0 < a.toMatrix 0 0) (hs : a.toMatrix.IsSymm) (j : Fin k) :
    a.toMatrix 0 j.succ = leadPivot a * coords (leadColumn a) j := by
  rw [← hs.apply 0 j.succ]
  exact toMatrix_succ_zero h j

theorem toMatrix_succ_succ (i j : Fin k) :
    a.toMatrix i.succ j.succ =
      (remainder a).toMatrix i j + coords (leadColumn a) i * coords (leadColumn a) j := by
  simp [remainder, coords_apply]

theorem isSymm_remainder (hs : a.toMatrix.IsSymm) : (remainder a).toMatrix.IsSymm := by
  apply IsSymm.ext
  intro i j
  simp only [remainder, Mat.toMatrix_ofFn, of_apply, hs.apply]
  ring

/-- The product of a symmetric matrix with a vector, in the first entry. -/
theorem mulVec_zero_cons (h : 0 < a.toMatrix 0 0) (hs : a.toMatrix.IsSymm) (x : ℝ)
    (y : Fin k → ℝ) :
    (a.toMatrix *ᵥ Fin.cons x y) 0 =
      leadPivot a * (leadPivot a * x + coords (leadColumn a) ⬝ᵥ y) := by
  simp only [mulVec, dotProduct, Fin.sum_univ_succ, Fin.cons_zero, Fin.cons_succ,
    toMatrix_zero_succ h hs, ← leadPivot_sq h, mul_add, Finset.mul_sum, mul_assoc]

/-- The product of a matrix with a vector, beyond the first entry. -/
theorem mulVec_succ_cons (h : 0 < a.toMatrix 0 0) (x : ℝ) (y : Fin k → ℝ) (i : Fin k) :
    (a.toMatrix *ᵥ Fin.cons x y) i.succ =
      coords (leadColumn a) i * (leadPivot a * x + coords (leadColumn a) ⬝ᵥ y) +
        ((remainder a).toMatrix *ᵥ y) i := by
  simp only [mulVec, dotProduct, Fin.sum_univ_succ, Fin.cons_zero, Fin.cons_succ,
    toMatrix_succ_zero h, toMatrix_succ_succ, add_mul, mul_add, Finset.mul_sum,
    Finset.sum_add_distrib, mul_assoc]
  ring

theorem dotProduct_mulVec_cons (h : 0 < a.toMatrix 0 0) (hs : a.toMatrix.IsSymm) (x : ℝ)
    (y : Fin k → ℝ) :
    (Fin.cons x y : Fin (k + 1) → ℝ) ⬝ᵥ a.toMatrix *ᵥ Fin.cons x y =
      (leadPivot a * x + coords (leadColumn a) ⬝ᵥ y) ^ 2 +
        y ⬝ᵥ (remainder a).toMatrix *ᵥ y := by
  rw [dotProduct, Fin.sum_univ_succ, mulVec_zero_cons h hs]
  simp only [mulVec_succ_cons h, Fin.cons_zero, Fin.cons_succ, mul_add, Finset.sum_add_distrib]
  have hsum : ∀ t : ℝ, ∑ i, y i * (coords (leadColumn a) i * t) =
      coords (leadColumn a) ⬝ᵥ y * t := by
    intro t
    rw [dotProduct, Finset.sum_mul]
    exact Finset.sum_congr rfl fun i _ => by ring
  rw [hsum, hsum]
  change _ + (_ + y ⬝ᵥ (remainder a).toMatrix *ᵥ y) = _
  ring

/-! ### Solution -/

theorem coords_solve_cons (pivot : ℝ) (column : Vector ℝ k) (rest : Cholesky ℝ k)
    (b : Vector ℝ (k + 1)) :
    let first := b[(0 : Fin (k + 1))] * (1 / pivot)
    let tail := solve rest (Vector.ofFn fun i => b[i.succ] - first * column[i])
    coords (solve (cons pivot column rest) b) =
      Fin.cons ((first - coords column ⬝ᵥ coords tail) * (1 / pivot)) (coords tail) := by
  intro first tail
  funext i
  simp only [solve, coords_ofFn, lessDot_eq]
  cases i using Fin.cases with
  | zero => rfl
  | succ j => rfl

theorem mulVec_solve {k : Nat} {a : Mat ℝ k k} {f : Cholesky ℝ k} (b : Vector ℝ k)
    (hs : a.toMatrix.IsSymm) (h : ofLower? a = some f) :
    a.toMatrix *ᵥ coords (solve f b) = coords b := by
  induction k with
  | zero => exact Subsingleton.elim _ _
  | succ k ih =>
    rw [ofLower?_succ] at h
    split at h
    · rename_i hpos
      obtain ⟨rest, hrest, rfl⟩ := Option.map_eq_some_iff.mp h
      have hr := leadPivot_pos hpos
      have htail := ih (Vector.ofFn fun i =>
        b[i.succ] - b[(0 : Fin (k + 1))] * (1 / leadPivot a) * (leadColumn a)[i])
        (isSymm_remainder hs) hrest
      funext i
      rw [coords_solve_cons]
      cases i using Fin.cases with
      | zero =>
        rw [mulVec_zero_cons hpos hs, coords_apply]
        field_simp
        ring
      | succ i =>
        rw [mulVec_succ_cons hpos, htail, coords_ofFn]
        simp only [coords_apply]
        field_simp
        ring
    · cases h

/-! ### Existence -/

theorem posDef_remainder (h : a.toMatrix.PosDef) : (remainder a).toMatrix.PosDef := by
  have hpos : 0 < a.toMatrix 0 0 := h.diag_pos
  rw [posDef_iff_real] at h ⊢
  refine ⟨isSymm_remainder h.1, ?_⟩
  intro y hy
  -- The first entry of the extended vector makes the square vanish.
  have hq := h.2 (Fin.cons (-(coords (leadColumn a) ⬝ᵥ y) / leadPivot a) y) (by
    intro hzero
    apply hy
    funext j
    exact congrFun hzero j.succ)
  rw [dotProduct_mulVec_cons hpos h.1] at hq
  have hr := leadPivot_pos hpos
  have hsq : leadPivot a * (-(coords (leadColumn a) ⬝ᵥ y) / leadPivot a) +
      coords (leadColumn a) ⬝ᵥ y = 0 := by
    field_simp
    ring
  rw [hsq] at hq
  simpa using hq

theorem isSome_ofLower? {k : Nat} {a : Mat ℝ k k} (h : a.toMatrix.PosDef) :
    (ofLower? a).isSome = true := by
  induction k with
  | zero => rfl
  | succ k ih =>
    have hpos : 0 < a.toMatrix 0 0 := h.diag_pos
    rw [ofLower?_succ, if_pos hpos, Option.isSome_map]
    exact ih (posDef_remainder h)

end Cholesky

theorem Mat.allFinite_real {m n : Nat} (a : Mat ℝ m n) : Mat.allFinite a = true := by
  simp [Mat.allFinite]

theorem exactFactor_symmetric : @ExactFactor ℝ _ (DenseSolver.symmetric ℝ) := by
  let _ := DenseSolver.symmetric ℝ
  constructor
  intro k a f b hs h
  have hl : Cholesky.ofLower? a = some f := by
    have he : Cholesky.ofMat? a = some f := h
    rwa [Cholesky.ofMat?, if_pos (Mat.allFinite_real a)] at he
  apply coords_injective
  rw [coords_mulVec]
  exact Cholesky.mulVec_solve b hs hl

theorem completeFactor_symmetric : @CompleteFactor (DenseSolver.symmetric ℝ) := by
  let _ := DenseSolver.symmetric ℝ
  constructor
  intro k a h
  change (Cholesky.ofMat? a).isSome = true
  rw [Cholesky.ofMat?, if_pos (Mat.allFinite_real a)]
  exact Cholesky.isSome_ofLower? h

end BoxDescent
