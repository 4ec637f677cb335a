import BoxDescent.Proofs.Linear.ExactSolver
import BoxDescent.Proofs.Bfgs.Compact
import BoxDescent.Proofs.History.Consistency

/-!
# The matrix that a store factorizes

With real scalars the matrix `theta * Sᵀ S + L * D⁻¹ * Lᵀ` of a store is symmetric and
positive definite, also if the steps depend on one another: where its form vanishes at
`x`, both `S x` and `Lᵀ x` vanish, and then row after row of `Yᵀ S x = 0` leaves only the
diagonal entry `s i · y i`, which is positive.  A factor of this matrix solves the system
with the four blocks `-D`, `Lᵀ`, `L` and `theta * Sᵀ S`.
-/

namespace BoxDescent

open Matrix

/-- Where the products with a square matrix and with its strict lower triangle vanish, so
does the vector, if the diagonal has no zero. -/
theorem eq_zero_of_triangle {k : Nat} {a : Fin k → Fin k → ℝ} {x : Fin k → ℝ}
    (hfull : ∀ l, ∑ i, x i * a i l = 0)
    (hlower : ∀ l, ∑ i, x i * (if l < i then a i l else 0) = 0) (hdiag : ∀ l, a l l ≠ 0) :
    x = 0 := by
  funext l
  induction l using WellFoundedLT.induction with
  | ind l ih =>
    have hterm : ∀ i, x i * a i l =
        (if i = l then x l * a l l else 0) + x i * (if l < i then a i l else 0) := by
      intro i
      rcases lt_trichotomy i l with h | h | h
      · have hx : x i = 0 := ih i h
        rw [hx, if_neg (ne_of_lt h)]
        ring
      · rw [h, if_pos rfl, if_neg (lt_irrefl l)]
        ring
      · rw [if_pos h, if_neg (ne_of_gt h)]
        ring
    have hsum := hfull l
    rw [Finset.sum_congr rfl fun i _ => hterm i, Finset.sum_add_distrib, hlower l, add_zero,
      Finset.sum_ite_eq' Finset.univ l, if_pos (Finset.mem_univ l)] at hsum
    exact (mul_eq_zero.mp hsum).resolve_right (hdiag l)

namespace Store

variable [DenseSolver ℝ] {n cap : Nat}

def steps (store : Store ℝ n cap) (j : Fin store.size) : Fin n → ℝ := coords (store.pair j).s

def changes (store : Store ℝ n cap) (j : Fin store.size) : Fin n → ℝ := coords (store.pair j).y

/-- The matrix with the steps as its rows, `Sᵀ`. -/
def stepRows (store : Store ℝ n cap) : Matrix (Fin store.size) (Fin n) ℝ := of store.steps

/-- The diagonal of `Sᵀ Y`. -/
def curvatures (store : Store ℝ n cap) (j : Fin store.size) : ℝ :=
  store.steps j ⬝ᵥ store.changes j

/-- The strict lower triangle of `Sᵀ Y`. -/
noncomputable def lower (store : Store ℝ n cap) : Matrix (Fin store.size) (Fin store.size) ℝ :=
  of fun i j => if j < i then store.steps i ⬝ᵥ store.changes j else 0

omit [DenseSolver ℝ] in
theorem hasCurvature_real {sy yy : ℝ} :
    hasCurvature sy yy = true ↔ Scalar.epsilon * yy < sy := by
  simp [hasCurvature]

omit [DenseSolver ℝ] in
theorem Admissible.dot_pos {c : Correction ℝ n} (h : Admissible c) : 0 < dot c.s c.y := by
  have hlt := hasCurvature_real.mp h.curvature
  have hnn : 0 ≤ Scalar.epsilon * dot c.y c.y :=
    mul_nonneg (le_of_lt Scalar.epsilon_pos) (dot_self_nonneg c.y)
  linarith

omit [DenseSolver ℝ] in
theorem Admissible.dot_change_pos {c : Correction ℝ n} (h : Admissible c) : 0 < dot c.y c.y := by
  have hpos := h.dot_pos
  apply lt_of_le_of_ne (dot_self_nonneg c.y)
  intro hzero
  rw [dot_eq, dot_self_eq_zero.mp hzero.symm, dotProduct_zero] at hpos
  exact lt_irrefl 0 hpos

variable {store : Store ℝ n cap}

namespace Tabulated

theorem ss_eq_steps (h : store.Tabulated) (i j : Fin store.size) :
    store.ss i j = store.steps i ⬝ᵥ store.steps j := by
  rw [h.ss_eq, dot_eq]
  rfl

theorem sy_eq_steps (h : store.Tabulated) (i j : Fin store.size) :
    store.sy i j = store.steps i ⬝ᵥ store.changes j := by
  rw [h.sy_eq, dot_eq]
  rfl

theorem curvature_pos (h : store.Tabulated) (j : Fin store.size) :
    0 < store.steps j ⬝ᵥ store.changes j := by
  have hpos := (h.admissible _ (h.pair_mem j)).dot_pos
  rw [dot_eq] at hpos
  exact hpos

theorem theta_pos (h : store.Tabulated) : 0 < store.theta := by
  rw [h.theta_eq, scaling]
  cases hlast : store.pairs.getLast? with
  | none => exact one_pos
  | some c =>
    have hc := h.admissible c (List.mem_of_getLast? hlast)
    exact div_pos hc.dot_change_pos hc.dot_pos

/-! ### Definiteness -/

theorem gramEntry_eq (h : store.Tabulated) (i j : Fin store.size) :
    store.gramEntry i j = store.theta * (store.steps i ⬝ᵥ store.steps j) +
      ∑ l, if l < j then (store.steps i ⬝ᵥ store.changes l) *
        (store.steps j ⬝ᵥ store.changes l) / (store.steps l ⬝ᵥ store.changes l) else 0 := by
  have hstep : ∀ (acc : ℝ) (l : Fin store.size),
      (if l < j then acc + store.sy i l * store.sy j l / store.sy l l else acc) =
        acc + if l < j then (store.steps i ⬝ᵥ store.changes l) *
          (store.steps j ⬝ᵥ store.changes l) / (store.steps l ⬝ᵥ store.changes l) else 0 := by
    intro acc l
    rw [h.sy_eq_steps, h.sy_eq_steps, h.sy_eq_steps]
    split
    · rfl
    · exact (add_zero acc).symm
  rw [gramEntry, h.ss_eq_steps]
  simp only [hstep]
  exact foldl_add _ _

theorem toMatrix_gramMatrix (h : store.Tabulated) :
    store.gramMatrix.toMatrix = store.theta • (store.stepRows * store.stepRowsᵀ) +
      store.lower * diagonal store.curvatures⁻¹ * store.lowerᵀ := by
  ext i j
  rw [gramMatrix, Mat.toMatrix_ofFn, of_apply, Matrix.add_apply, Matrix.smul_apply, mul_apply',
    mul_apply]
  simp only [mul_diagonal, transpose_apply, smul_eq_mul, Pi.inv_apply, lower, of_apply]
  split
  · rename_i hle
    rw [h.gramEntry_eq]
    congr 1
    apply Finset.sum_congr rfl
    intro l _
    by_cases hl : l < j
    · rw [if_pos hl, if_pos hl, if_pos (lt_of_lt_of_le hl hle), curvatures]
      ring
    · simp only [if_neg hl, mul_zero]
  · rename_i hle
    rw [h.gramEntry_eq, dotProduct_comm]
    congr 1
    apply Finset.sum_congr rfl
    intro l _
    by_cases hl : l < i
    · rw [if_pos hl, if_pos hl, if_pos (lt_trans hl (not_le.mp hle)), curvatures]
      ring
    · simp only [if_neg hl, zero_mul]

theorem isSymm_gramMatrix (h : store.Tabulated) : store.gramMatrix.toMatrix.IsSymm := by
  rw [h.toMatrix_gramMatrix]
  apply IsSymm.add
  · rw [IsSymm, transpose_smul, transpose_mul, transpose_transpose]
  · rw [IsSymm, transpose_mul, transpose_mul, transpose_transpose, diagonal_transpose,
      Matrix.mul_assoc]

theorem gramMatrix_mulVec (h : store.Tabulated) (x : Fin store.size → ℝ) :
    store.gramMatrix.toMatrix *ᵥ x =
      store.theta • store.stepRows *ᵥ (store.stepRowsᵀ *ᵥ x) +
        store.lower *ᵥ (store.curvatures⁻¹ * store.lowerᵀ *ᵥ x) := by
  have hdiag : diagonal store.curvatures⁻¹ *ᵥ (store.lowerᵀ *ᵥ x) =
      store.curvatures⁻¹ * store.lowerᵀ *ᵥ x := by
    funext l
    exact mulVec_diagonal _ _ _
  rw [h.toMatrix_gramMatrix, add_mulVec, smul_mulVec, ← mulVec_mulVec, ← mulVec_mulVec,
    ← mulVec_mulVec, hdiag]

theorem dotProduct_gramMatrix_mulVec (h : store.Tabulated) (x : Fin store.size → ℝ) :
    x ⬝ᵥ store.gramMatrix.toMatrix *ᵥ x =
      store.theta * (store.stepRowsᵀ *ᵥ x ⬝ᵥ store.stepRowsᵀ *ᵥ x) +
        ∑ l, (store.lowerᵀ *ᵥ x) l ^ 2 / store.curvatures l := by
  rw [h.gramMatrix_mulVec, dotProduct_add, dotProduct_smul, dotProduct_mulVec x store.stepRows,
    dotProduct_mulVec x store.lower, ← mulVec_transpose, ← mulVec_transpose, smul_eq_mul]
  congr 1
  apply Finset.sum_congr rfl
  intro l _
  rw [Pi.mul_apply, Pi.inv_apply]
  ring

/-- Where neither the steps nor the triangle see a vector, it is zero. -/
theorem eq_zero_of_products (h : store.Tabulated) {x : Fin store.size → ℝ}
    (hsteps : store.stepRowsᵀ *ᵥ x = 0) (hlower : store.lowerᵀ *ᵥ x = 0) : x = 0 := by
  refine eq_zero_of_triangle (a := fun i l => store.steps i ⬝ᵥ store.changes l) ?_ ?_ ?_
  · intro l
    have hl := congrArg (fun z => z ⬝ᵥ store.changes l) hsteps
    rw [mulVec_transpose, zero_dotProduct, ← dotProduct_mulVec] at hl
    exact hl
  · intro l
    have hl := congrFun hlower l
    rw [mulVec_transpose] at hl
    exact hl
  · intro l
    exact ne_of_gt (h.curvature_pos l)

theorem posDef_gramMatrix (h : store.Tabulated) : store.gramMatrix.toMatrix.PosDef := by
  rw [posDef_iff_real]
  refine ⟨h.isSymm_gramMatrix, ?_⟩
  intro x hx
  have htheta := h.theta_pos
  rw [h.dotProduct_gramMatrix_mulVec]
  have hterm : ∀ l, 0 ≤ (store.lowerᵀ *ᵥ x) l ^ 2 / store.curvatures l := by
    intro l
    exact div_nonneg (sq_nonneg _) (le_of_lt (h.curvature_pos l))
  by_cases hz : store.stepRowsᵀ *ᵥ x = 0
  · have hw : ∃ l, (store.lowerᵀ *ᵥ x) l ≠ 0 := by
      by_contra hnone
      apply hx
      apply h.eq_zero_of_products hz
      funext l
      exact not_not.mp fun hl => hnone ⟨l, hl⟩
    obtain ⟨l, hl⟩ := hw
    have hpos : 0 < ∑ l, (store.lowerᵀ *ᵥ x) l ^ 2 / store.curvatures l := by
      refine Finset.sum_pos' (fun l _ => hterm l) ⟨l, Finset.mem_univ l, ?_⟩
      exact div_pos (by positivity) (h.curvature_pos l)
    rw [hz, zero_dotProduct, mul_zero, zero_add]
    exact hpos
  · have hpos : 0 < store.stepRowsᵀ *ᵥ x ⬝ᵥ store.stepRowsᵀ *ᵥ x := by
      apply lt_of_le_of_ne
      · exact Finset.sum_nonneg fun i _ => mul_self_nonneg _
      · intro hzero
        exact hz (dotProduct_self_eq_zero.mp hzero.symm)
    have hsum := Finset.sum_nonneg fun l (_ : l ∈ Finset.univ) => hterm l
    have hmul := mul_pos htheta hpos
    linarith

/-! ### The block system -/

theorem lower_mulVec (x : Fin store.size → ℝ) (i : Fin store.size) :
    (store.lower *ᵥ x) i =
      ∑ j, if j < i then (store.steps i ⬝ᵥ store.changes j) * x j else 0 := by
  change ∑ j, store.lower i j * x j = _
  simp only [lower, of_apply, ite_mul, zero_mul]

theorem lower_transpose_mulVec (x : Fin store.size → ℝ) (j : Fin store.size) :
    (store.lowerᵀ *ᵥ x) j =
      ∑ i, if j < i then (store.steps i ⬝ᵥ store.changes j) * x i else 0 := by
  change ∑ i, store.lower i j * x i = _
  simp only [lower, of_apply, ite_mul, zero_mul]

theorem stepRows_mulVec (x : Fin store.size → ℝ) (i : Fin store.size) :
    (store.theta • store.stepRows *ᵥ (store.stepRowsᵀ *ᵥ x)) i =
      ∑ j, store.theta * (store.steps i ⬝ᵥ store.steps j) * x j := by
  rw [mulVec_mulVec, Pi.smul_apply, smul_eq_mul]
  change store.theta * ∑ j, (store.stepRows * store.stepRowsᵀ) i j * x j = _
  rw [Finset.mul_sum]
  exact Finset.sum_congr rfl fun j _ => (mul_assoc _ _ _).symm

/-- The block system of a store, with the triangle and the steps as matrices. -/
theorem middle_iff {uy us py ps : Fin store.size → ℝ} :
    Bfgs.Middle store.theta store.steps store.changes uy us py ps ↔
      store.lowerᵀ *ᵥ ps - store.curvatures * py = uy ∧
        store.lower *ᵥ py + store.theta • store.stepRows *ᵥ (store.stepRowsᵀ *ᵥ ps) = us := by
  constructor
  · intro h
    constructor
    · funext j
      rw [Pi.sub_apply, lower_transpose_mulVec]
      exact h.upper j
    · funext i
      rw [Pi.add_apply, lower_mulVec, stepRows_mulVec]
      exact h.lower i
  · rintro ⟨hupper, hlower⟩
    constructor
    · intro j
      have hj := congrFun hupper j
      rw [Pi.sub_apply, lower_transpose_mulVec] at hj
      exact hj
    · intro i
      have hi := congrFun hlower i
      rw [Pi.add_apply, lower_mulVec, stepRows_mulVec] at hi
      exact hi

/-- The product with `M` through the matrices of the store. -/
theorem middleTimes_parts (h : store.Tabulated) {f : DenseSolver.Factor ℝ store.size}
    (hf : store.factor = some f) (v : Compact ℝ store.size) :
    ∃ right : Vector ℝ store.size,
      coords right = coords v.sPart + store.lower *ᵥ (store.curvatures⁻¹ * coords v.yPart) ∧
      coords (store.middleTimes v).sPart = coords (DenseSolver.solve f right) ∧
      coords (store.middleTimes v).yPart = store.curvatures⁻¹ *
        (store.lowerᵀ *ᵥ coords (DenseSolver.solve f right) - coords v.yPart) := by
  refine ⟨Vector.ofFn fun i => v.sPart[i] + BoxDescent.sum fun j =>
    if j < i then store.sy i j * v.yPart[j] / store.sy j j else 0, ?_, ?_, ?_⟩
  · funext i
    rw [coords_ofFn, sum_eq, Pi.add_apply, lower_mulVec]
    congr 1
    apply Finset.sum_congr rfl
    intro j _
    rw [h.sy_eq_steps, h.sy_eq_steps, Pi.mul_apply, Pi.inv_apply, curvatures, coords_apply]
    split
    · ring
    · rfl
  · simp only [middleTimes, hf, Compact.sPart_ofParts]
  · simp only [middleTimes, hf, Compact.yPart_ofParts, coords_ofFn, sum_eq, h.sy_eq_steps]
    funext j
    rw [Pi.mul_apply, Pi.inv_apply, Pi.sub_apply, lower_transpose_mulVec, curvatures,
      div_eq_inv_mul]
    rfl

/-- Elimination through the diagonal: the product with `M` solves the block system. -/
theorem middle_of_factor [ExactFactor ℝ] (h : store.Tabulated)
    {f : DenseSolver.Factor ℝ store.size} (hf : store.factor = some f)
    (hgram : DenseSolver.factor store.gramMatrix = some f) (v : Compact ℝ store.size) :
    Bfgs.Middle store.theta store.steps store.changes (coords v.yPart) (coords v.sPart)
      (coords (store.middleTimes v).yPart) (coords (store.middleTimes v).sPart) := by
  obtain ⟨right, hright, hs, hy⟩ := h.middleTimes_parts hf v
  have hsolve := congrArg coords (ExactFactor.mulVec_solve right h.isSymm_gramMatrix hgram)
  have hcancel : ∀ w : Fin store.size → ℝ, store.curvatures * (store.curvatures⁻¹ * w) = w := by
    intro w
    funext j
    have hj : store.curvatures j ≠ 0 := ne_of_gt (h.curvature_pos j)
    exact mul_inv_cancel_left₀ hj (w j)
  rw [coords_mulVec, h.gramMatrix_mulVec, hright] at hsolve
  rw [middle_iff, hs, hy, hcancel]
  constructor
  · abel
  · rw [mul_sub, mulVec_sub, sub_add_eq_add_sub, add_comm, hsolve]
    abel

end Tabulated

end Store

end BoxDescent
