import BoxDescent.Proofs.Cauchy.Model

/-!
# The middle matrix

`middleInverse` is the matrix of the block system that `middleTimes` solves.  So it is
nonsingular, and the two products undo each other: `middleTimes` multiplies by a symmetric
matrix, the inverse of `middleInverse`.
-/

namespace BoxDescent

open Matrix

/-! ### Halves of a compact vector -/

namespace Compact

variable {k : Nat}

theorem coords_castAdd (q : Compact ℝ k) (j : Fin k) :
    coords q (Fin.castAdd k j) = coords q.yPart j := by
  rw [yPart, coords_ofFn]
  rfl

theorem coords_natAdd (q : Compact ℝ k) (j : Fin k) :
    coords q (Fin.natAdd k j) = coords q.sPart j := by
  rw [sPart, coords_ofFn]
  rfl

/-- A product with a compact vector, half by half. -/
theorem mulVec_parts {m : Nat} (a : Matrix (Fin m) (Fin (k + k)) ℝ) (q : Compact ℝ k)
    (i : Fin m) : (a *ᵥ coords q) i =
      ∑ j, a i (Fin.castAdd k j) * coords q.yPart j +
        ∑ j, a i (Fin.natAdd k j) * coords q.sPart j := by
  have hsum : (a *ᵥ coords q) i = ∑ l, a i l * coords q l := rfl
  rw [hsum, Fin.sum_univ_add]
  simp only [coords_castAdd, coords_natAdd]

theorem ext_parts {p q : Compact ℝ k} (hy : coords p.yPart = coords q.yPart)
    (hs : coords p.sPart = coords q.sPart) : p = q := by
  apply coords_injective
  funext i
  cases i using Fin.addCases with
  | left j => rw [coords_castAdd, coords_castAdd, hy]
  | right j => rw [coords_natAdd, coords_natAdd, hs]

end Compact

namespace Store

variable [DenseSolver ℝ] {n cap : Nat} {store : Store ℝ n cap}

/-- The product with `M⁻¹`. -/
noncomputable def middleInverseTimes (store : Store ℝ n cap) (q : Compact ℝ store.size) :
    Compact ℝ store.size := Mat.mulVec store.middleInverse q

theorem toMatrix_middleInverse (store : Store ℝ n cap) :
    store.middleInverse.toMatrix = of fun row col =>
      Fin.addCases
        (fun i => Fin.addCases (fun j => if i = j then -store.sy i i else 0)
          (fun j => if i < j then store.sy j i else 0) col)
        (fun i => Fin.addCases (fun j => if j < i then store.sy i j else 0)
          (fun j => store.theta * store.ss i j) col) row := by
  ext row col
  simp only [middleInverse, Mat.toMatrix_ofFn]

/-- The vectors `q` and `M⁻¹ q` are related by the block system. -/
theorem Tabulated.middle_middleInverse (h : store.Tabulated) (q : Compact ℝ store.size) :
    Bfgs.Middle store.theta store.steps store.changes
      (coords (store.middleInverseTimes q).yPart) (coords (store.middleInverseTimes q).sPart)
      (coords q.yPart) (coords q.sPart) := by
  have hprod : coords (store.middleInverseTimes q) =
      store.middleInverse.toMatrix *ᵥ coords q := coords_mulVec _ _
  constructor
  · intro j
    rw [← Compact.coords_castAdd (store.middleInverseTimes q), hprod, Compact.mulVec_parts,
      toMatrix_middleInverse]
    simp only [of_apply, Fin.addCases_left, Fin.addCases_right, h.sy_eq_steps, ite_mul, zero_mul,
      neg_mul, Finset.sum_ite_eq, Finset.mem_univ, if_true]
    ring
  · intro i
    rw [← Compact.coords_natAdd (store.middleInverseTimes q), hprod, Compact.mulVec_parts,
      toMatrix_middleInverse]
    simp only [of_apply, Fin.addCases_left, Fin.addCases_right, h.sy_eq_steps, h.ss_eq_steps,
      ite_mul, zero_mul]

omit [DenseSolver ℝ] in
/-- The block system has one right-hand side for each vector. -/
theorem middle_unique {k : Nat} {theta : ℝ} {s y : Fin k → Fin n → ℝ}
    {uy us uy' us' py ps : Fin k → ℝ} (h : Bfgs.Middle theta s y uy us py ps)
    (h' : Bfgs.Middle theta s y uy' us' py ps) : uy = uy' ∧ us = us' := by
  constructor
  · funext j
    rw [← h.upper j, ← h'.upper j]
  · funext i
    rw [← h.lower i, ← h'.lower i]

theorem size_pos_of_isEmpty (h : store.isEmpty = false) : 0 < store.size := by
  rw [isEmpty, beq_eq_false_iff_ne] at h
  omega

namespace Consistent

variable [ExactFactor ℝ]

theorem middleInverse_middleTimes (h : store.Consistent) (v : Compact ℝ store.size) :
    store.middleInverseTimes (store.middleTimes v) = v := by
  cases hempty : store.isEmpty with
  | true => exact compact_eq_of_isEmpty hempty _ _
  | false =>
    obtain ⟨f, hf, hgram⟩ := h.factor_eq (size_pos_of_isEmpty hempty)
    obtain ⟨hy, hs⟩ := middle_unique (h.middle_middleInverse (store.middleTimes v))
      (h.middle_of_factor hf hgram v)
    exact Compact.ext_parts hy hs

theorem isUnit_middleInverse (h : store.Consistent) : IsUnit store.middleInverse.toMatrix := by
  rw [← mulVec_surjective_iff_isUnit]
  intro b
  refine ⟨coords (store.middleTimes (Vector.ofFn b)), ?_⟩
  have hright := congrArg coords (h.middleInverse_middleTimes (Vector.ofFn b))
  rw [coords_ofFn] at hright
  exact (coords_mulVec _ _).symm.trans hright

theorem middleTimes_middleInverse (h : store.Consistent) (q : Compact ℝ store.size) :
    store.middleTimes (store.middleInverseTimes q) = q := by
  apply coords_injective
  apply mulVec_injective_of_isUnit h.isUnit_middleInverse
  have hright := congrArg coords (h.middleInverse_middleTimes (store.middleInverseTimes q))
  exact ((coords_mulVec _ _).symm.trans hright).trans (coords_mulVec _ _)

theorem coords_middleTimes (h : store.Consistent) (v : Compact ℝ store.size) :
    coords (store.middleTimes v) = store.middleInverse.toMatrix⁻¹ *ᵥ coords v := by
  have hdet := (isUnit_iff_isUnit_det _).mp h.isUnit_middleInverse
  have hright : store.middleInverse.toMatrix *ᵥ coords (store.middleTimes v) = coords v :=
    (coords_mulVec _ _).symm.trans (congrArg coords (h.middleInverse_middleTimes v))
  rw [← hright, mulVec_mulVec, nonsing_inv_mul _ hdet, one_mulVec]

theorem middleTimes_addScaled (h : store.Consistent) (u v : Compact ℝ store.size) (a : ℝ) :
    store.middleTimes (addScaled u a v) =
      addScaled (store.middleTimes u) a (store.middleTimes v) := by
  apply coords_injective
  rw [h.coords_middleTimes, coords_addScaled, coords_addScaled, mulVec_add, mulVec_smul,
    h.coords_middleTimes, h.coords_middleTimes]

end Consistent

theorem Tabulated.isSymm_middleInverse (h : store.Tabulated) :
    store.middleInverse.toMatrix.IsSymm := by
  apply IsSymm.ext
  intro row col
  rw [toMatrix_middleInverse, of_apply, of_apply]
  cases row using Fin.addCases with
  | left i =>
    cases col using Fin.addCases with
    | left j =>
      simp only [Fin.addCases_left]
      by_cases hij : i = j
      · rw [hij]
      · rw [if_neg hij, if_neg (Ne.symm hij)]
    | right j => simp only [Fin.addCases_left, Fin.addCases_right]
  | right i =>
    cases col using Fin.addCases with
    | left j => simp only [Fin.addCases_left, Fin.addCases_right]
    | right j =>
      simp only [Fin.addCases_right]
      rw [h.ss_eq_steps, h.ss_eq_steps, dotProduct_comm]

section

variable [ExactFactor ℝ]

/-- Both vectors are products with `M⁻¹`, which goes from one side to the other. -/
theorem Consistent.dot_middleTimes_comm (h : store.Consistent) (u v : Compact ℝ store.size) :
    dot u (store.middleTimes v) = dot v (store.middleTimes u) := by
  have hu := h.middleInverse_middleTimes u
  have hv := h.middleInverse_middleTimes v
  have hprod : ∀ q, coords (store.middleInverseTimes q) =
      store.middleInverse.toMatrix *ᵥ coords q := fun q => coords_mulVec _ q
  calc dot u (store.middleTimes v)
      = store.middleInverse.toMatrix *ᵥ coords (store.middleTimes u) ⬝ᵥ
          coords (store.middleTimes v) := by rw [dot_eq, ← hprod, hu]
    _ = coords (store.middleTimes u) ⬝ᵥ
          store.middleInverse.toMatrix *ᵥ coords (store.middleTimes v) :=
        (dotProduct_mulVec_symm h.isSymm_middleInverse _ _).symm
    _ = dot v (store.middleTimes u) := by rw [← hprod, hv, dotProduct_comm, dot_eq]

/-- After any operations `middleInverse` is nonsingular and `middleTimes` is the product with
its inverse: each undoes the other, and `middleTimes` is linear and symmetric. -/
theorem middleTimes_inverts (hcap : 0 < cap) (ops : List (Operation ℝ n)) :
    let store : Store ℝ n cap := after ops
    IsUnit store.middleInverse.toMatrix ∧
      (∀ v, coords (store.middleTimes v) = store.middleInverse.toMatrix⁻¹ *ᵥ coords v) ∧
      (∀ v : Compact ℝ store.size,
        Mat.mulVec store.middleInverse (store.middleTimes v) = v) ∧
      (∀ v : Compact ℝ store.size,
        store.middleTimes (Mat.mulVec store.middleInverse v) = v) ∧
      (∀ (u v : Compact ℝ store.size) (a : ℝ), store.middleTimes (addScaled u a v) =
        addScaled (store.middleTimes u) a (store.middleTimes v)) ∧
      (∀ u v : Compact ℝ store.size,
        dot u (store.middleTimes v) = dot v (store.middleTimes u)) := by
  intro store
  have h : store.Consistent := consistent_after hcap ops
  exact ⟨h.isUnit_middleInverse, h.coords_middleTimes, h.middleInverse_middleTimes,
    h.middleTimes_middleInverse, h.middleTimes_addScaled, h.dot_middleTimes_comm⟩

end

omit [DenseSolver ℝ] in
/-- Two pairs for which `Sᵀ Y` is not symmetric. -/
theorem middleTimes_inverts_of_two_pairs :
    let _ := DenseSolver.symmetric ℝ
    let store : Store ℝ 2 2 := after [.offer #v[1, 0] #v[2, 1], .offer #v[0, 1] #v[0, 3]]
    ExactFactor ℝ ∧ 0 < 2 ∧ store.size = 2 ∧
      dot (#v[1, 0] : Vector ℝ 2) #v[0, 3] ≠ dot (#v[0, 1] : Vector ℝ 2) #v[2, 1] ∧
      IsUnit store.middleInverse.toMatrix ∧
      (∀ v, Mat.mulVec store.middleInverse (store.middleTimes v) = v) ∧
      (∀ v, store.middleTimes (Mat.mulVec store.middleInverse v) = v) := by
  intro solver store
  have hexact : ExactFactor ℝ := exactFactor_symmetric
  have hcomplete : CompleteFactor := completeFactor_symmetric
  have hsize : store.size = 2 := by
    have hadmitted : admitted ([(#v[1, 0], #v[2, 1]), (#v[0, 1], #v[0, 3])].map
        fun p => .offer p.1 p.2) = [(#v[1, 0], #v[2, 1]), (#v[0, 1], #v[0, 3])] := by
      apply admitted_offers
      intro p hp
      simp only [List.mem_cons, List.not_mem_nil, or_false] at hp
      rcases hp with rfl | rfl
      · norm_num [dot, BoxDescent.sum, Fin.foldl_succ, Scalar.epsilon]
      · norm_num [dot, BoxDescent.sum, Fin.foldl_succ, Scalar.epsilon]
    have hafter := pairs_after Nat.two_pos
      ([(#v[1, 0], #v[2, 1]), (#v[0, 1], #v[0, 3])].map fun p => .offer p.1 p.2)
    rw [hadmitted] at hafter
    exact (length_pairs store).symm.trans (congrArg List.length hafter)
  have hasym : dot (#v[1, 0] : Vector ℝ 2) #v[0, 3] ≠ dot (#v[0, 1] : Vector ℝ 2) #v[2, 1] := by
    norm_num [dot, BoxDescent.sum, Fin.foldl_succ]
  obtain ⟨hunit, -, hright, hleft, -, -⟩ := middleTimes_inverts Nat.two_pos
    [.offer #v[1, 0] #v[2, 1], .offer #v[0, 1] #v[0, 3]]
  exact ⟨hexact, Nat.two_pos, hsize, hasym, hunit, hright, hleft⟩

end Store

end BoxDescent
