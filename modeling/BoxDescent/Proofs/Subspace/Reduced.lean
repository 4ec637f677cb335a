import BoxDescent.Proofs.History.Middle
import BoxDescent.SubspaceStep

/-!
# The reduced system

On a list of free variables the matrix of a store is `B_F = theta * I - W_F * M * W_Fᵀ`.
It is definite because `B` is.  A vector that `M⁻¹ - W_Fᵀ W_F / theta` takes to zero
gives one that `B_F` takes to zero, so the reduced system is nonsingular; and the step
made of its solution solves the system with `B_F`.
-/

namespace BoxDescent

open Matrix

/-! ### Vectors on some variables -/

section

variable {n : Nat} {free : List (Fin n)}

/-- A vector on the listed variables as one on all variables, zero on the others. -/
noncomputable def scatter (free : List (Fin n)) (v : Vector ℝ free.length) : Vector ℝ n :=
  Vector.ofFn fun i => ∑ j : Fin free.length, if free.get j = i then v[j] else 0

theorem coords_scatter (v : Vector ℝ free.length) (i : Fin n) :
    coords (scatter free v) i = ∑ j, if free.get j = i then coords v j else 0 := by
  rw [scatter, coords_ofFn]
  rfl

theorem dotProduct_scatter (u : Fin n → ℝ) (v : Vector ℝ free.length) :
    u ⬝ᵥ coords (scatter free v) = ∑ j, u (free.get j) * coords v j := by
  have hterm : ∀ i, u i * coords (scatter free v) i =
      ∑ j, if free.get j = i then u (free.get j) * coords v j else 0 := by
    intro i
    rw [coords_scatter, Finset.mul_sum]
    apply Finset.sum_congr rfl
    intro j _
    split
    · rename_i hj
      rw [hj]
    · exact mul_zero _
  rw [dotProduct, Finset.sum_congr rfl fun i _ => hterm i, Finset.sum_comm]
  simp only [Finset.sum_ite_eq, Finset.mem_univ, if_true]

theorem coords_scatter_get (h : free.Nodup) (v : Vector ℝ free.length) (j : Fin free.length) :
    coords (scatter free v) (free.get j) = coords v j := by
  have hinj := List.nodup_iff_injective_get.mp h
  rw [coords_scatter]
  simp only [hinj.eq_iff, Finset.sum_ite_eq', Finset.mem_univ, if_true]

theorem coords_scatter_of_not_mem {i : Fin n} (h : i ∉ free) (v : Vector ℝ free.length) :
    coords (scatter free v) i = 0 := by
  rw [coords_scatter]
  apply Finset.sum_eq_zero
  intro j _
  apply if_neg
  intro he
  exact h (he ▸ List.get_mem free j)

end

/-! ### Stored matrices -/

namespace Mat

variable {m k : Nat}

theorem coords_transposeMulVec (a : Mat ℝ m k) (y : Vector ℝ m) :
    coords (transposeMulVec a y) = a.toMatrixᵀ *ᵥ coords y := by
  rw [transposeMulVec, coords_ofFn]
  funext j
  rw [sum_eq]
  rfl

theorem toMatrix_gram (a : Mat ℝ m k) : (gram a).toMatrix = a.toMatrixᵀ * a.toMatrix := by
  ext i j
  simp only [gram, toMatrix_ofFn, of_apply, sum_eq]
  rfl

theorem toMatrix_sub (a b : Mat ℝ m k) : (a - b).toMatrix = a.toMatrix - b.toMatrix := by
  ext i j
  simp [toMatrix]

theorem toMatrix_divide (a : Mat ℝ m k) (t : ℝ) :
    toMatrix (a.map fun row => divide row t) = t⁻¹ • a.toMatrix := by
  ext i j
  simp [toMatrix, divide, div_eq_inv_mul]

end Mat

namespace SubspaceStep

variable [DenseSolver ℝ] {n cap : Nat} {store : Store ℝ n cap} {free : List (Fin n)}

/-- The rows of `W` for the free variables. -/
noncomputable def freeRows (store : Store ℝ n cap) (free : List (Fin n)) :
    Mat ℝ free.length (store.size + store.size) := store.wRows (freeVector free)

theorem getElem_freeRows (j : Fin free.length) :
    (freeRows store free)[j] = store.wRow (free.get j) := by
  simp [freeRows, Store.wRows, freeVector]

/-- Products with the chosen rows are entries of products with `W`. -/
theorem coords_mulVec_freeRows (q : Compact ℝ store.size) (j : Fin free.length) :
    coords (Mat.mulVec (freeRows store free) q) j = coords (store.wTimes q) (free.get j) := by
  have hdot := Store.dotProduct_wTimes (unit (free.get j)) q
  rw [unit, coords_ofFn, single_dotProduct, one_mul] at hdot
  rw [hdot, coords_apply, Mat.getElem_mulVec, getElem_freeRows, ← Store.wTranspose_unit]
  rfl

/-- The transposed product is the one with `W` of the vector spread out. -/
theorem transposeMulVec_freeRows (v : Vector ℝ free.length) :
    Mat.transposeMulVec (freeRows store free) v = store.wTranspose (scatter free v) := by
  apply coords_injective
  apply dotProduct_eq
  intro q
  have hleft : coords (Mat.transposeMulVec (freeRows store free) v) ⬝ᵥ q =
      coords v ⬝ᵥ coords (Mat.mulVec (freeRows store free) (Vector.ofFn q)) := by
    rw [Mat.coords_transposeMulVec, coords_mulVec, coords_ofFn, mulVec_transpose,
      dotProduct_mulVec]
  have hright := Store.dotProduct_wTimes (scatter free v)
    (Vector.ofFn q : Compact ℝ store.size)
  rw [dot_eq, coords_ofFn] at hright
  rw [hleft, ← hright, dotProduct_comm (coords (scatter free v)), dotProduct_scatter, dotProduct]
  apply Finset.sum_congr rfl
  intro j _
  rw [coords_mulVec_freeRows, mul_comm]

theorem coords_reducedSystem_mulVec (q : Compact ℝ store.size) :
    coords (Mat.mulVec (reducedSystem store (freeRows store free)) q) =
      coords (store.middleInverseTimes q) - store.theta⁻¹ •
        coords (Mat.transposeMulVec (freeRows store free)
          (Mat.mulVec (freeRows store free) q)) := by
  rw [coords_mulVec, reducedSystem, Mat.toMatrix_sub, Mat.toMatrix_divide, Mat.toMatrix_gram,
    sub_mulVec, smul_mulVec, ← mulVec_mulVec, Store.middleInverseTimes, coords_mulVec,
    Mat.coords_transposeMulVec, coords_mulVec]

/-- The product with `B` on the free variables. -/
theorem applyForward_scatter (hfree : free.Nodup) (v : Vector ℝ free.length)
    (j : Fin free.length) :
    coords (store.applyForward (scatter free v)) (free.get j) = store.theta * coords v j -
      coords (Mat.mulVec (freeRows store free)
        (store.middleTimes (Mat.transposeMulVec (freeRows store free) v))) j := by
  rw [transposeMulVec_freeRows, coords_mulVec_freeRows, ← coords_scatter_get hfree]
  cases hempty : store.isEmpty with
  | true =>
    have hzero : coords (store.wTimes (store.middleTimes (store.wTranspose (scatter free v))))
        (free.get j) = 0 := by
      rw [← coords_mulVec_freeRows, coords_apply, Mat.getElem_mulVec]
      exact Store.dot_of_isEmpty hempty _ _
    rw [hzero, sub_zero, Store.coords_applyForward_of_empty hempty]
    rfl
  | false =>
    rw [Store.coords_applyForward hempty]
    rfl

/-- The step that is made of a solution `q` of the reduced system. -/
noncomputable def newtonStep (store : Store ℝ n cap) (free : List (Fin n))
    (r : Vector ℝ free.length) (q : Compact ℝ store.size) : Vector ℝ free.length :=
  divide r store.theta +
    divide (Mat.mulVec (freeRows store free) q) (store.theta * store.theta)

theorem coords_newtonStep (r : Vector ℝ free.length) (q : Compact ℝ store.size) :
    coords (newtonStep store free r q) = store.theta⁻¹ • coords r +
      (store.theta * store.theta)⁻¹ • coords (Mat.mulVec (freeRows store free) q) := by
  rw [newtonStep, coords_add, coords_divide, coords_divide]

/-- A solution `q` gives `Wᵀ` of its step as `M⁻¹ (q / theta)`. -/
theorem transposeMulVec_newtonStep {r : Vector ℝ free.length} {q : Compact ℝ store.size}
    (hq : Mat.mulVec (reducedSystem store (freeRows store free)) q =
      Mat.transposeMulVec (freeRows store free) r) :
    Mat.transposeMulVec (freeRows store free) (newtonStep store free r q) =
      store.middleInverseTimes (divide q store.theta) := by
  have hsystem := congrArg coords hq
  rw [coords_reducedSystem_mulVec, sub_eq_iff_eq_add, Mat.coords_transposeMulVec,
    Mat.coords_transposeMulVec] at hsystem
  apply coords_injective
  rw [Store.middleInverseTimes, coords_mulVec, coords_divide, mulVec_smul, ← coords_mulVec]
  change _ = store.theta⁻¹ • coords (store.middleInverseTimes q)
  rw [hsystem, Mat.coords_transposeMulVec, coords_newtonStep, mulVec_add, mulVec_smul,
    mulVec_smul, smul_add, smul_smul, mul_inv]

section

variable [ExactFactor ℝ] (hstore : store.Consistent) (hfree : free.Nodup)

include hstore hfree

/-- The step made of a solution of the reduced system solves the system with `B_F`. -/
theorem applyForward_newtonStep {r : Vector ℝ free.length} {q : Compact ℝ store.size}
    (hq : Mat.mulVec (reducedSystem store (freeRows store free)) q =
      Mat.transposeMulVec (freeRows store free) r) (j : Fin free.length) :
    coords (store.applyForward (scatter free (newtonStep store free r q))) (free.get j) =
      coords r j := by
  have htheta : store.theta ≠ 0 := ne_of_gt hstore.theta_pos
  rw [applyForward_scatter hfree, transposeMulVec_newtonStep hq,
    hstore.middleTimes_middleInverse, coords_newtonStep, coords_mulVec _ (divide q store.theta),
    coords_divide, mulVec_smul, ← coords_mulVec]
  simp only [Pi.add_apply, Pi.smul_apply, smul_eq_mul]
  field_simp
  ring

/-- The form of `B_F` is positive. -/
theorem dotProduct_applyForward_pos {v : Vector ℝ free.length} (hv : coords v ≠ 0) :
    0 < ∑ j, coords (store.applyForward (scatter free v)) (free.get j) * coords v j := by
  rw [← dotProduct_scatter, dotProduct_comm, hstore.applyForward_eq]
  apply (posDef_iff_real.mp hstore.posDef_dense).2
  intro hzero
  apply hv
  funext j
  rw [← coords_scatter_get hfree v j, hzero]
  rfl

/-- The matrix of the reduced system is nonsingular. -/
theorem isUnit_reducedSystem :
    IsUnit (reducedSystem store (freeRows store free)).toMatrix := by
  have hkernel : ∀ q : Compact ℝ store.size,
      Mat.mulVec (reducedSystem store (freeRows store free)) q = Vector.replicate _ 0 →
        coords q = 0 := by
    intro q hq
    have htheta : store.theta ≠ 0 := ne_of_gt hstore.theta_pos
    have hzero : Mat.transposeMulVec (freeRows store free) (Vector.replicate _ 0) =
        Vector.replicate _ 0 := by
      apply coords_injective
      rw [Mat.coords_transposeMulVec, coords_replicate, coords_replicate]
      exact mulVec_zero _
    -- `B_F` takes the step made of `q` to zero, and it is definite
    have hstep : coords (newtonStep store free (Vector.replicate _ 0) q) = 0 := by
      by_contra hne
      have hpos := dotProduct_applyForward_pos hstore hfree hne
      simp only [applyForward_newtonStep hstore hfree (hq.trans hzero.symm), coords_replicate,
        zero_mul, Finset.sum_const_zero, lt_irrefl] at hpos
    have hinner := congrArg coords (transposeMulVec_newtonStep (hq.trans hzero.symm))
    rw [Mat.coords_transposeMulVec, hstep, mulVec_zero, Store.middleInverseTimes, coords_mulVec,
      coords_divide, mulVec_smul, eq_comm, smul_eq_zero_iff_right (inv_ne_zero htheta)] at hinner
    exact mulVec_injective_of_isUnit hstore.isUnit_middleInverse
      (hinner.trans (mulVec_zero _).symm)
  rw [← mulVec_injective_iff_isUnit]
  intro p q hpq
  have hsub := hkernel (Vector.ofFn (p - q)) (by
    apply coords_injective
    rw [coords_mulVec, coords_ofFn, mulVec_sub, coords_replicate]
    exact sub_eq_zero.mpr hpq)
  rw [coords_ofFn] at hsub
  exact sub_eq_zero.mp hsub

end

end SubspaceStep

end BoxDescent
