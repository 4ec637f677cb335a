import BoxDescent.Proofs.Linear.Acceptance
import BoxDescent.Proofs.Subspace.Cut

/-!
# Solved reduced systems

A reduced system without corrections asks for nothing.  One with corrections is solved by an exact
solver if its condition number is within the threshold.  The system of a single pair has two
unknowns, and a matrix `A` of that size with entries up to `c` has a condition number of at most
`(2 c)² / |det A|`.
-/

namespace BoxDescent

open Matrix
open scoped Matrix.Norms.Operator

/-! ### Condition numbers of small matrices -/

section

variable {A : Matrix (Fin 2) (Fin 2) ℝ} {c : ℝ} (hc : ∀ i j, |A i j| ≤ c)

include hc

theorem norm_le_of_two : ‖A‖ ≤ c + c := by
  have hnonneg : 0 ≤ c := le_trans (abs_nonneg _) (hc 0 0)
  rw [norm_matrix_le_iff]
  refine ⟨add_nonneg hnonneg hnonneg, fun i => ?_⟩
  rw [Fin.sum_univ_two]
  exact add_le_add (hc i 0) (hc i 1)

theorem condition_of_two : ‖A‖ * ‖A⁻¹‖ ≤ (c + c) ^ 2 / |A.det| := by
  have hadjugate : ∀ i j, |A.adjugate i j| ≤ c := by
    intro i j
    rw [adjugate_fin_two]
    fin_cases i <;> fin_cases j
    · exact hc 1 1
    · exact (abs_neg _).trans_le (hc 0 1)
    · exact (abs_neg _).trans_le (hc 1 0)
    · exact hc 0 0
  have hinverse : ‖A⁻¹‖ ≤ (c + c) / |A.det| := by
    rw [inv_def, Ring.inverse_eq_inv', norm_smul, norm_inv, Real.norm_eq_abs, inv_mul_eq_div]
    exact div_le_div_of_nonneg_right (norm_le_of_two hadjugate) (abs_nonneg _)
  calc ‖A‖ * ‖A⁻¹‖ ≤ (c + c) * ((c + c) / |A.det|) :=
        mul_le_mul (norm_le_of_two hc) hinverse (norm_nonneg _)
          (le_trans (norm_nonneg _) (norm_le_of_two hc))
    _ = (c + c) ^ 2 / |A.det| := by rw [← mul_div_assoc, sq]

end

/-- A matrix of four blocks of one entry each. -/
theorem condition_of_blocks {k : Nat} (hk : k = 1) (j : Fin k)
    {A : Matrix (Fin (k + k)) (Fin (k + k)) ℝ} {c d : ℝ} (hc : ∀ row col, |A row col| ≤ c)
    (hdet : A (Fin.castAdd k j) (Fin.castAdd k j) * A (Fin.natAdd k j) (Fin.natAdd k j) -
      A (Fin.castAdd k j) (Fin.natAdd k j) * A (Fin.natAdd k j) (Fin.castAdd k j) = d) :
    A.det = d ∧ ‖A‖ * ‖A⁻¹‖ ≤ (c + c) ^ 2 / |d| := by
  subst hk
  rw [Subsingleton.elim j 0] at hdet
  have hvalue : A.det = d := (det_fin_two A).trans hdet
  exact ⟨hvalue, hvalue ▸ condition_of_two hc⟩

variable [DenseSolver ℝ] {n cap : Nat} {store : Store ℝ n cap}

theorem Store.Tabulated.of_single (h : store.Tabulated) {s y : Vector ℝ n}
    (hpairs : store.pairs = [correction s y]) :
    store.size = 1 ∧ (∀ j, store.pair j = correction s y) ∧ store.theta = dot y y / dot s y := by
  refine ⟨?_, fun j => ?_, ?_⟩
  · rw [← length_pairs, hpairs]
    rfl
  · have hmem := h.pair_mem j
    rw [hpairs] at hmem
    exact List.mem_singleton.mp hmem
  · rw [h.theta_eq, hpairs]
    rfl

theorem Store.isEmpty_of_single {c : Correction ℝ n} (hpairs : store.pairs = [c]) :
    store.isEmpty = false := by
  rw [isEmpty, ← length_pairs, hpairs]
  rfl

namespace SubspaceStep

variable {box : Box ℝ n} {x g : Vector ℝ n} {free : List (Fin n)} {r : Vector ℝ free.length}

/-! ### Exact solutions -/

/-- If the reduced system for `r` has an accepted solution, that solves it. -/
def SolvedExactly (store : Store ℝ n cap) (free : List (Fin n)) (r : Vector ℝ free.length) :
    Prop :=
  let wf := store.wRows (freeVector free)
  ∀ q, symmetricSolve (reducedSystem store wf) (Mat.transposeMulVec wf r) conditionLimit = some q →
    Mat.mulVec (reducedSystem store wf) q = Mat.transposeMulVec wf r

/-- The reduced system for `r`, where there are corrections to make one of, has its exact
solution accepted. -/
def Solves (store : Store ℝ n cap) (free : List (Fin n)) (r : Vector ℝ free.length) : Prop :=
  let wf := store.wRows (freeVector free)
  store.isEmpty = false →
    ∃ q,
      symmetricSolve (reducedSystem store wf) (Mat.transposeMulVec wf r) conditionLimit = some q ∧
      Mat.mulVec (reducedSystem store wf) q = Mat.transposeMulVec wf r

/-! Without corrections there is nothing to solve. -/

theorem solvedExactly_of_isEmpty (h : store.isEmpty = true) {free : List (Fin n)}
    (r : Vector ℝ free.length) : SolvedExactly store free r := by
  intro q _
  exact Store.compact_eq_of_isEmpty h _ _

theorem fallback_of_isEmpty (h : store.isEmpty = true) (cp : CauchyPoint ℝ n store.size) :
    (of box store x g cp).fallback = false := by
  by_cases hfree : cp.free = []
  · rw [of_of_free_eq_nil hfree]
    rfl
  · rw [of_eq _ _ _ _ _ hfree, fallback, Bool.or_false]
    simp only [newton?, h, if_true, Option.isNone_some]

theorem Solves.solvedExactly (h : Solves store free r) : SolvedExactly store free r := by
  cases hempty : store.isEmpty with
  | true => exact solvedExactly_of_isEmpty hempty r
  | false =>
    obtain ⟨q, hq, hexact⟩ := h hempty
    intro q' hq'
    cases hq.symm.trans hq'
    exact hexact

theorem Solves.fallback_eq {box : Box ℝ n} {cp : CauchyPoint ℝ n store.size}
    (h : Solves store cp.free (reducedGradient store x g cp)) :
    (of box store x g cp).fallback = false := by
  cases hempty : store.isEmpty with
  | true => exact fallback_of_isEmpty hempty cp
  | false =>
    obtain ⟨q, hq, -⟩ := h hempty
    by_cases hfree : cp.free = []
    · rw [of_of_free_eq_nil hfree]
      rfl
    · rw [of_eq _ _ _ _ _ hfree, fallback, Bool.or_false]
      simp only [newton?, hempty, Bool.false_eq_true, if_false, hq, Option.map_some,
        Option.isNone_some]

/-! ### The matrix of the system -/

theorem reducedSystem_apply (row col : Fin (store.size + store.size)) :
    (reducedSystem store (freeRows store free)).toMatrix row col =
      store.middleInverse.toMatrix row col - store.theta⁻¹ *
        (free.map fun i => coords (store.wRow i) row * coords (store.wRow i) col).sum := by
  have hrow : ∀ f, (freeRows store free).toMatrix f = coords (store.wRow (free.get f)) := by
    intro f
    funext q
    rw [← getElem_freeRows]
    rfl
  rw [reducedSystem, Mat.toMatrix_sub, Mat.toMatrix_divide, Mat.toMatrix_gram, Matrix.sub_apply,
    Matrix.smul_apply, smul_eq_mul, mul_apply, ← Fin.sum_univ_fun_getElem]
  simp only [transpose_apply, hrow]
  rfl

theorem coords_wRow_castAdd (i : Fin n) (j : Fin store.size) :
    coords (store.wRow i) (Fin.castAdd store.size j) = store.changes j i := by
  rw [Compact.coords_castAdd, Store.wRow, Compact.yPart_ofParts, coords_ofFn]
  rfl

theorem coords_wRow_natAdd (i : Fin n) (j : Fin store.size) :
    coords (store.wRow i) (Fin.natAdd store.size j) = store.theta * store.steps j i := by
  rw [Compact.coords_natAdd, Store.wRow, Compact.sPart_ofParts, coords_ofFn]
  rfl

theorem isSymm_reducedSystem (h : store.Tabulated) :
    (reducedSystem store (freeRows store free)).toMatrix.IsSymm := by
  apply IsSymm.ext
  intro row col
  rw [reducedSystem_apply, reducedSystem_apply, h.isSymm_middleInverse.apply]
  simp only [mul_comm]

/-- A solver that is exact solves every reduced system within the condition threshold. -/
theorem solves_of_condition [ExactProposal] (h : store.Tabulated)
    (hdet : (reducedSystem store (freeRows store free)).toMatrix.det ≠ 0)
    (hcond : ‖(reducedSystem store (freeRows store free)).toMatrix‖ *
      ‖(reducedSystem store (freeRows store free)).toMatrix⁻¹‖ ≤ 1 / conditionLimit)
    (r : Vector ℝ free.length) : Solves store free r := by
  intro _
  let wf := freeRows store free
  have hlimit : (0 : ℝ) < conditionLimit := by norm_num [conditionLimit]
  have hsolves := ExactProposal.mulVec_propose (Mat.transposeMulVec wf r)
    (isSymm_reducedSystem h) hdet
  have hcoords := congrArg coords hsolves
  rw [coords_mulVec] at hcoords
  have haccepts := accepts_of_condition hdet hlimit hcond hcoords
  exact ⟨_, symmetricSolve_eq_some_iff.mpr ⟨haccepts, rfl⟩, hsolves⟩

/-- The sums are over the free variables. -/
theorem solves_of_single [ExactProposal] (h : store.Tabulated) {s y : Vector ℝ n}
    (hpairs : store.pairs = [Store.correction s y]) {t u v w c : ℝ} (ht : dot y y / dot s y = t)
    (hu : dot s y + t⁻¹ * (free.map fun i => y[i] * y[i]).sum = u)
    (hv : (free.map fun i => y[i] * s[i]).sum = v)
    (hw : t * (dot s s - (free.map fun i => s[i] * s[i]).sum) = w)
    (huc : |u| ≤ c) (hvc : |v| ≤ c) (hwc : |w| ≤ c) (hdet : 0 < u * w + v ^ 2)
    (hcond : (c + c) ^ 2 / (u * w + v ^ 2) ≤ 1 / conditionLimit) (r : Vector ℝ free.length) :
    Solves store free r := by
  obtain ⟨hsize, hpair, htheta⟩ := h.of_single hpairs
  rw [ht] at htheta
  have hpos : t ≠ 0 := htheta ▸ ne_of_gt h.theta_pos
  let j : Fin store.size := Fin.cast hsize.symm 0
  have hy : ∀ i, coords (store.wRow i) (Fin.castAdd store.size j) = y[i] := by
    intro i
    rw [coords_wRow_castAdd, Store.changes, hpair]
    rfl
  have hs : ∀ i, coords (store.wRow i) (Fin.natAdd store.size j) = t * s[i] := by
    intro i
    rw [coords_wRow_natAdd, Store.steps, hpair, htheta]
    rfl
  have hyy : (reducedSystem store (freeRows store free)).toMatrix (Fin.castAdd _ j)
      (Fin.castAdd _ j) = -u := by
    rw [reducedSystem_apply, Store.toMatrix_middleInverse, ← hu, htheta]
    simp only [of_apply, Fin.addCases_left, if_true, hy, h.sy_eq, hpair, Store.correction]
    ring
  have hys : (reducedSystem store (freeRows store free)).toMatrix (Fin.castAdd _ j)
      (Fin.natAdd _ j) = -v := by
    rw [reducedSystem_apply, Store.toMatrix_middleInverse, ← hv, htheta]
    simp only [of_apply, Fin.addCases_left, Fin.addCases_right, lt_irrefl, if_false, hy, hs,
      mul_left_comm _ t, List.sum_map_mul_left, mul_inv_cancel_left₀ hpos, zero_sub]
  have hss : (reducedSystem store (freeRows store free)).toMatrix (Fin.natAdd _ j)
      (Fin.natAdd _ j) = w := by
    rw [reducedSystem_apply, Store.toMatrix_middleInverse, ← hw, htheta]
    simp only [of_apply, Fin.addCases_right, hs, h.ss_eq, hpair, Store.correction, mul_assoc,
      mul_left_comm _ t, List.sum_map_mul_left, mul_inv_cancel_left₀ hpos, mul_sub]
  have hsy := ((isSymm_reducedSystem h).apply (Fin.castAdd _ j) (Fin.natAdd _ j)).trans hys
  have hsingle : Subsingleton (Fin store.size) := by
    rw [hsize]
    infer_instance
  have hentries : ∀ row col,
      |(reducedSystem store (freeRows store free)).toMatrix row col| ≤ c := by
    intro row col
    cases row using Fin.addCases with
    | left i =>
      rw [hsingle.elim i j]
      cases col using Fin.addCases with
      | left i' =>
        rw [hsingle.elim i' j, hyy, abs_neg]
        exact huc
      | right i' =>
        rw [hsingle.elim i' j, hys, abs_neg]
        exact hvc
    | right i =>
      rw [hsingle.elim i j]
      cases col using Fin.addCases with
      | left i' =>
        rw [hsingle.elim i' j, hsy, abs_neg]
        exact hvc
      | right i' =>
        rw [hsingle.elim i' j, hss]
        exact hwc
  obtain ⟨hvalue, hbound⟩ := condition_of_blocks hsize j hentries (d := -(u * w + v ^ 2)) (by
    rw [hyy, hys, hsy, hss]
    ring)
  rw [abs_neg, abs_of_pos hdet] at hbound
  exact solves_of_condition h (hvalue ▸ neg_ne_zero.mpr (ne_of_gt hdet)) (hbound.trans hcond) r

end SubspaceStep

end BoxDescent
