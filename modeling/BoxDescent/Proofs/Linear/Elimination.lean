import BoxDescent.Proofs.Linear.ExactSolver

/-!
# Elimination with diagonal pivots

Over the real numbers elimination with diagonal pivots solves every symmetric system with a
nonsingular matrix.  With `p` the pivot, `f` the column below it divided by `p`, and `R` what
remains once `p * f * fᵀ` is taken away,

    (A x)₀ = p * (x₀ + f · x'),    (A x)' = (A x)₀ * f + R x',

and likewise with a pair of pivots in place of `p`.  A pivot is never zero, and a pair has an
entry beside the diagonal that is larger than both entries on it.
-/

namespace BoxDescent

open Matrix

variable {k : Nat}

/-! ### Exchanges -/

namespace Mat

theorem toMatrix_exchange (a : Mat ℝ k k) (i j : Fin k) :
    (a.exchange i j).toMatrix = a.toMatrix.submatrix (Equiv.swap i j) (Equiv.swap i j) := by
  have hrow : ∀ p, coords (a.exchange i j) p = (coords a (Equiv.swap i j p)).swap i j := by
    intro p
    rw [exchange, coords_map, coords_swap]
    rfl
  ext p q
  change coords (coords (a.exchange i j) p) q = _
  rw [hrow, coords_swap]
  rfl

theorem fromLower_of_isSymm {a : Mat ℝ k k} (h : a.toMatrix.IsSymm) : fromLower a = a := by
  apply coords_injective
  funext i
  apply coords_injective
  funext j
  rw [coords_apply, coords_apply, fromLower, getElem_ofFn]
  split
  · rfl
  · exact h.apply i j

end Mat

/-- A symmetric matrix whose systems have one solution at most. -/
structure Regular (a : Matrix (Fin k) (Fin k) ℝ) : Prop where
  symm : a.IsSymm
  kernel : ∀ x, a *ᵥ x = 0 → x = 0

namespace Regular

variable {a : Matrix (Fin k) (Fin k) ℝ}

theorem of_det_ne_zero (hs : a.IsSymm) (h : a.det ≠ 0) : Regular a :=
  ⟨hs, fun _ => eq_zero_of_mulVec_eq_zero h⟩

theorem submatrix (h : Regular a) (e : Equiv.Perm (Fin k)) : Regular (a.submatrix e e) where
  symm := h.symm.submatrix e
  kernel x hx := by
    rw [submatrix_mulVec_equiv] at hx
    have hzero : a *ᵥ (x ∘ e.symm) = 0 := by
      funext i
      have hi := congrFun hx (e.symm i)
      rw [Function.comp_apply, e.apply_symm_apply] at hi
      exact hi
    have hx0 := h.kernel _ hzero
    funext i
    have hi := congrFun hx0 (e i)
    rw [Function.comp_apply, e.symm_apply_apply] at hi
    exact hi

theorem exchange {a : Mat ℝ k k} (h : Regular a.toMatrix) (i j : Fin k) :
    Regular (a.exchange i j).toMatrix := by
  rw [Mat.toMatrix_exchange]
  exact h.submatrix (Equiv.swap i j)

/-- No column vanishes. -/
theorem exists_ne_zero (h : Regular a) (j : Fin k) : ∃ i, a i j ≠ 0 := by
  by_contra hall
  push Not at hall
  have hcol : a *ᵥ Pi.single j 1 = 0 := by
    funext i
    rw [mulVec_single_one]
    exact hall i
  have hone := congrFun (h.kernel _ hcol) j
  rw [Pi.single_eq_same] at hone
  exact one_ne_zero hone

end Regular

/-- A solution of the system with rows and columns exchanged, exchanged back. -/
theorem mulVec_swap_of_exchange {a : Mat ℝ k k} {b : Vector ℝ k} {x : Fin k → ℝ} {i j : Fin k}
    (h : (a.exchange i j).toMatrix *ᵥ x = coords (b.swap i j i.isLt j.isLt)) :
    a.toMatrix *ᵥ (x ∘ Equiv.swap i j) = coords b := by
  rw [Mat.toMatrix_exchange, submatrix_mulVec_equiv, Equiv.symm_swap, coords_swap] at h
  exact (Equiv.swap i j).surjective.injective_comp_right h

namespace DiagonalPivoting

/-! ### Single pivots -/

section

variable {a : Matrix (Fin (k + 1)) (Fin (k + 1)) ℝ}

/-- The multiples of the first row that are taken away from the others. -/
noncomputable def factor (a : Matrix (Fin (k + 1)) (Fin (k + 1)) ℝ) (i : Fin k) : ℝ :=
  a i.succ 0 * (1 / a 0 0)

/-- What remains of a matrix. -/
noncomputable def rest (a : Matrix (Fin (k + 1)) (Fin (k + 1)) ℝ) : Matrix (Fin k) (Fin k) ℝ :=
  Matrix.of fun i j => a i.succ j.succ - factor a i * a j.succ 0

/-- What remains of a right-hand side. -/
noncomputable def sideRest (a : Matrix (Fin (k + 1)) (Fin (k + 1)) ℝ) (b : Fin (k + 1) → ℝ)
    (i : Fin k) : ℝ :=
  b i.succ - factor a i * b 0

/-- The first variable, put in front of the others. -/
noncomputable def extend (a : Matrix (Fin (k + 1)) (Fin (k + 1)) ℝ) (b : Fin (k + 1) → ℝ)
    (y : Fin k → ℝ) : Fin (k + 1) → ℝ :=
  Fin.cons (b 0 * (1 / a 0 0) - factor a ⬝ᵥ y) y

theorem mulVec_zero_single (hs : a.IsSymm) (hp : a 0 0 ≠ 0) (x : ℝ) (y : Fin k → ℝ) :
    (a *ᵥ Fin.cons x y) 0 = a 0 0 * (x + factor a ⬝ᵥ y) := by
  have hrow : ∀ j : Fin k, a 0 j.succ = a 0 0 * factor a j := by
    intro j
    rw [← hs.apply 0 j.succ, factor]
    field_simp
  simp only [mulVec, dotProduct, Fin.sum_univ_succ, Fin.cons_zero, Fin.cons_succ, hrow, mul_add,
    Finset.mul_sum, mul_assoc]

theorem mulVec_succ_single (hs : a.IsSymm) (hp : a 0 0 ≠ 0) (x : ℝ) (y : Fin k → ℝ) (i : Fin k) :
    (a *ᵥ Fin.cons x y) i.succ = factor a i * (a *ᵥ Fin.cons x y) 0 + (rest a *ᵥ y) i := by
  have hfirst : a i.succ 0 = factor a i * a 0 0 := by
    rw [factor]
    field_simp
  have hentry : ∀ j : Fin k, a i.succ j.succ = factor a i * a 0 j.succ + rest a i j := by
    intro j
    rw [rest, of_apply, hs.apply 0 j.succ]
    ring
  simp only [mulVec, dotProduct, Fin.sum_univ_succ, Fin.cons_zero, Fin.cons_succ, hfirst, hentry,
    add_mul, mul_add, Finset.mul_sum, Finset.sum_add_distrib, mul_assoc]
  ring

theorem regular_rest (h : Regular a) (hp : a 0 0 ≠ 0) : Regular (rest a) where
  symm := by
    apply IsSymm.ext
    intro i j
    simp only [rest, of_apply, factor, h.symm.apply]
    ring
  kernel y hy := by
    have hzero : a *ᵥ Fin.cons (-(factor a ⬝ᵥ y)) y = 0 := by
      have hfirst : (a *ᵥ Fin.cons (-(factor a ⬝ᵥ y)) y) 0 = 0 := by
        rw [mulVec_zero_single h.symm hp, neg_add_cancel, mul_zero]
      funext i
      cases i using Fin.cases with
      | zero => exact hfirst
      | succ i =>
        rw [mulVec_succ_single h.symm hp, hfirst, hy, mul_zero, zero_add]
        rfl
    funext i
    exact congrFun (h.kernel _ hzero) i.succ

/-- The solution from the one of what remains. -/
theorem mulVec_extend (hs : a.IsSymm) (hp : a 0 0 ≠ 0) {b : Fin (k + 1) → ℝ} {y : Fin k → ℝ}
    (hy : rest a *ᵥ y = sideRest a b) : a *ᵥ extend a b y = b := by
  have hfirst : (a *ᵥ extend a b y) 0 = b 0 := by
    rw [extend, mulVec_zero_single hs hp, sub_add_cancel]
    field_simp
  funext i
  cases i using Fin.cases with
  | zero => exact hfirst
  | succ i =>
    rw [extend] at hfirst ⊢
    rw [mulVec_succ_single hs hp, hfirst, hy]
    exact add_sub_cancel _ _

end

/-! ### Double pivots -/

theorem solvePair_solves {d e f : ℝ} (he : e ≠ 0) (hdet : d * f - e ^ 2 ≠ 0) (u v : ℝ) :
    d * (solvePair d e f u v).1 + e * (solvePair d e f u v).2 = u ∧
      e * (solvePair d e f u v).1 + f * (solvePair d e f u v).2 = v := by
  have hdet' : f * d - e ^ 2 ≠ 0 := by
    rw [mul_comm]
    exact hdet
  simp only [solvePair]
  constructor
  · field_simp
    ring
  · field_simp
    ring

/-- The first two variables can be eliminated together. -/
structure PairPivot (a : Matrix (Fin (k + 2)) (Fin (k + 2)) ℝ) : Prop where
  symm : a.IsSymm
  beside : a 1 0 ≠ 0
  det : a 0 0 * a 1 1 - a 1 0 ^ 2 ≠ 0

/-- The multiples of the first two rows that are taken away from the others. -/
noncomputable def factors (a : Matrix (Fin (k + 2)) (Fin (k + 2)) ℝ) (i : Fin k) : ℝ × ℝ :=
  solvePair (a 0 0) (a 1 0) (a 1 1) (a i.succ.succ 0) (a i.succ.succ 1)

/-- What remains behind both. -/
noncomputable def restBehind (a : Matrix (Fin (k + 2)) (Fin (k + 2)) ℝ) :
    Matrix (Fin k) (Fin k) ℝ :=
  Matrix.of fun i j => a i.succ.succ j.succ.succ - (factors a i).1 * a j.succ.succ 0
    - (factors a i).2 * a j.succ.succ 1

noncomputable def sideBehind (a : Matrix (Fin (k + 2)) (Fin (k + 2)) ℝ) (b : Fin (k + 2) → ℝ)
    (i : Fin k) : ℝ :=
  b i.succ.succ - (factors a i).1 * b 0 - (factors a i).2 * b 1

/-- The first two variables, put in front of the others. -/
noncomputable def extendPair (a : Matrix (Fin (k + 2)) (Fin (k + 2)) ℝ) (b : Fin (k + 2) → ℝ)
    (z : Fin k → ℝ) : Fin (k + 2) → ℝ :=
  let own := solvePair (a 0 0) (a 1 0) (a 1 1) (b 0) (b 1)
  Fin.cons (own.1 - ∑ j, (factors a j).1 * z j) (Fin.cons (own.2 - ∑ j, (factors a j).2 * z j) z)

section

variable {a : Matrix (Fin (k + 2)) (Fin (k + 2)) ℝ} (h : PairPivot a)

include h

theorem PairPivot.column_zero (i : Fin k) :
    a i.succ.succ 0 = a 0 0 * (factors a i).1 + a 1 0 * (factors a i).2 :=
  (solvePair_solves h.beside h.det _ _).1.symm

theorem PairPivot.column_one (i : Fin k) :
    a i.succ.succ 1 = a 1 0 * (factors a i).1 + a 1 1 * (factors a i).2 :=
  (solvePair_solves h.beside h.det _ _).2.symm

theorem PairPivot.mulVec_zero (x y : ℝ) (z : Fin k → ℝ) :
    (a *ᵥ Fin.cons x (Fin.cons y z)) 0 =
      a 0 0 * (x + ∑ j, (factors a j).1 * z j) + a 1 0 * (y + ∑ j, (factors a j).2 * z j) := by
  have hrow : ∀ j : Fin k, a 0 j.succ.succ = a 0 0 * (factors a j).1 + a 1 0 * (factors a j).2 := by
    intro j
    rw [← h.symm.apply 0 j.succ.succ, h.column_zero]
  simp only [mulVec, dotProduct, Fin.sum_univ_succ, Fin.cons_zero, Fin.cons_succ,
    Fin.succ_zero_eq_one, hrow, ← h.symm.apply 0 1, add_mul, mul_add, Finset.mul_sum,
    Finset.sum_add_distrib, mul_assoc]
  ring

theorem PairPivot.mulVec_one (x y : ℝ) (z : Fin k → ℝ) :
    (a *ᵥ Fin.cons x (Fin.cons y z)) 1 =
      a 1 0 * (x + ∑ j, (factors a j).1 * z j) + a 1 1 * (y + ∑ j, (factors a j).2 * z j) := by
  have hrow : ∀ j : Fin k, a 1 j.succ.succ = a 1 0 * (factors a j).1 + a 1 1 * (factors a j).2 := by
    intro j
    rw [← h.symm.apply 1 j.succ.succ, h.column_one]
  simp only [mulVec, dotProduct, Fin.sum_univ_succ, Fin.cons_zero, Fin.cons_succ,
    Fin.succ_zero_eq_one, hrow, add_mul, mul_add, Finset.mul_sum, Finset.sum_add_distrib, mul_assoc]
  ring

theorem PairPivot.mulVec_succ (x y : ℝ) (z : Fin k → ℝ) (i : Fin k) :
    (a *ᵥ Fin.cons x (Fin.cons y z)) i.succ.succ =
      (factors a i).1 * (a *ᵥ Fin.cons x (Fin.cons y z)) 0 +
        (factors a i).2 * (a *ᵥ Fin.cons x (Fin.cons y z)) 1 + (restBehind a *ᵥ z) i := by
  have hentry : ∀ j : Fin k, a i.succ.succ j.succ.succ =
      (factors a i).1 * a 0 j.succ.succ + (factors a i).2 * a 1 j.succ.succ +
        restBehind a i j := by
    intro j
    rw [restBehind, of_apply, h.symm.apply 0 j.succ.succ, h.symm.apply 1 j.succ.succ]
    ring
  simp only [mulVec, dotProduct, Fin.sum_univ_succ, Fin.cons_zero, Fin.cons_succ,
    Fin.succ_zero_eq_one, hentry, h.column_zero i, h.column_one i, ← h.symm.apply 0 1, add_mul,
    mul_add, Finset.mul_sum, Finset.sum_add_distrib, mul_assoc]
  ring

theorem PairPivot.regular_rest (hreg : Regular a) : Regular (restBehind a) where
  symm := by
    apply IsSymm.ext
    intro i j
    -- the two products taken away make a form in both columns that is symmetric
    have hform : (factors a j).1 * a i.succ.succ 0 + (factors a j).2 * a i.succ.succ 1 =
        (factors a i).1 * a j.succ.succ 0 + (factors a i).2 * a j.succ.succ 1 := by
      rw [h.column_zero i, h.column_one i, h.column_zero j, h.column_one j]
      ring
    simp only [restBehind, of_apply, h.symm.apply i.succ.succ j.succ.succ]
    linarith
  kernel z hz := by
    obtain ⟨x, hx⟩ : ∃ x, x = -∑ j, (factors a j).1 * z j := ⟨_, rfl⟩
    obtain ⟨y, hy⟩ : ∃ y, y = -∑ j, (factors a j).2 * z j := ⟨_, rfl⟩
    have hzero : (a *ᵥ Fin.cons x (Fin.cons y z)) 0 = 0 := by
      rw [h.mulVec_zero, hx, hy, neg_add_cancel, neg_add_cancel, mul_zero, mul_zero, add_zero]
    have hone : (a *ᵥ Fin.cons x (Fin.cons y z)) 1 = 0 := by
      rw [h.mulVec_one, hx, hy, neg_add_cancel, neg_add_cancel, mul_zero, mul_zero, add_zero]
    have hall : a *ᵥ Fin.cons x (Fin.cons y z) = 0 := by
      funext i
      cases i using Fin.cases with
      | zero => exact hzero
      | succ i =>
        cases i using Fin.cases with
        | zero => exact hone
        | succ i =>
          rw [h.mulVec_succ, hzero, hone, hz, mul_zero, mul_zero, add_zero, zero_add]
          rfl
    funext i
    exact congrFun (hreg.kernel _ hall) i.succ.succ

theorem PairPivot.mulVec_extendPair {b : Fin (k + 2) → ℝ} {z : Fin k → ℝ}
    (hz : restBehind a *ᵥ z = sideBehind a b) : a *ᵥ extendPair a b z = b := by
  obtain ⟨own, hown⟩ : ∃ own, own = solvePair (a 0 0) (a 1 0) (a 1 1) (b 0) (b 1) := ⟨_, rfl⟩
  obtain ⟨hfirst, hsecond⟩ := solvePair_solves h.beside h.det (b 0) (b 1)
  obtain ⟨x, hx⟩ : ∃ x, x = own.1 - ∑ j, (factors a j).1 * z j := ⟨_, rfl⟩
  obtain ⟨y, hy⟩ : ∃ y, y = own.2 - ∑ j, (factors a j).2 * z j := ⟨_, rfl⟩
  rw [← hown] at hfirst hsecond
  rw [extendPair, ← hown, ← hx, ← hy]
  have hzero : (a *ᵥ Fin.cons x (Fin.cons y z)) 0 = b 0 := by
    rw [h.mulVec_zero, hx, hy, sub_add_cancel, sub_add_cancel]
    exact hfirst
  have hone : (a *ᵥ Fin.cons x (Fin.cons y z)) 1 = b 1 := by
    rw [h.mulVec_one, hx, hy, sub_add_cancel, sub_add_cancel]
    exact hsecond
  funext i
  cases i using Fin.cases with
  | zero => exact hzero
  | succ i =>
    cases i using Fin.cases with
    | zero => exact hone
    | succ i =>
      rw [h.mulVec_succ, hzero, hone, hz, sideBehind]
      ring

end

/-! ### Choice of the pivot -/

theorem abs_le_largestDiagonal (a : Mat ℝ (k + 1) (k + 1)) (i : Fin (k + 1)) :
    |a.toMatrix i i| ≤ |a.toMatrix (largestDiagonal a) (largestDiagonal a)| := by
  suffices hfold : ∀ i : Fin (k + 1), i.val < k + 1 →
      |a.toMatrix i i| ≤ |a.toMatrix (largestDiagonal a) (largestDiagonal a)| from
    hfold i i.isLt
  refine foldl_invariant
    (fun m best => ∀ i : Fin (k + 1), i.val < m → |a.toMatrix i i| ≤ |a.toMatrix best best|)
    (fun i hi => absurd hi (Nat.not_lt_zero _)) ?_
  intro m best hbest i hi
  split
  · rename_i hlt
    rcases Nat.lt_succ_iff_lt_or_eq.mp hi with him | him
    · exact le_trans (hbest i him) (le_of_lt hlt)
    · rw [Fin.ext him]
  · rename_i hnlt
    rcases Nat.lt_succ_iff_lt_or_eq.mp hi with him | him
    · exact hbest i him
    · rw [Fin.ext him]
      exact not_lt.mp hnlt

/-- What is found for the first `m` rows of column `r`: nothing, if all entries beside the
diagonal are zero, or the row of the largest one with its size. -/
structure Found (a : Mat ℝ k k) (r : Fin k) (m : Nat) (p : Fin k × ℝ) : Prop where
  le : ∀ i : Fin k, i.val < m → i ≠ r → |a.toMatrix i r| ≤ p.2
  cases : p = (r, 0) ∨ (p.1 ≠ r ∧ 0 < p.2 ∧ p.2 = |a.toMatrix p.1 r|)

theorem found_largestBeside (a : Mat ℝ k k) (r : Fin k) : Found a r k (largestBeside a r) := by
  refine foldl_invariant (Found a r)
    ⟨fun i hi => absurd hi (Nat.not_lt_zero _), .inl rfl⟩ ?_
  intro m p h
  dsimp only
  split
  · rename_i hmore
    obtain ⟨hne, hlt⟩ := hmore
    have hpos : 0 ≤ p.2 := by
      rcases h.cases with he | ⟨-, hpos, -⟩
      · rw [he]
      · exact le_of_lt hpos
    refine ⟨?_, .inr ⟨hne, lt_of_le_of_lt hpos hlt, rfl⟩⟩
    intro i hi hir
    rcases Nat.lt_succ_iff_lt_or_eq.mp hi with him | him
    · exact le_trans (h.le i him hir) (le_of_lt hlt)
    · rw [Fin.ext him]
      exact le_rfl
  · rename_i hless
    refine ⟨?_, h.cases⟩
    intro i hi hir
    rcases Nat.lt_succ_iff_lt_or_eq.mp hi with him | him
    · exact h.le i him hir
    · have him' : i = m := Fin.ext him
      rw [him'] at hir ⊢
      exact not_lt.mp fun hlt => hless ⟨hir, hlt⟩

theorem Found.abs_le {a : Mat ℝ k k} {r i : Fin k} {p : Fin k × ℝ} (h : Found a r k p)
    (hi : i ≠ r) : |a.toMatrix i r| ≤ p.2 := h.le i i.isLt hi

theorem threshold_pos : (0 : ℝ) < threshold := by
  have hroot : 0 ≤ Real.sqrt 17.0 := Real.sqrt_nonneg _
  change 0 < (1 + Real.sqrt 17.0) * 0.125
  positivity

theorem threshold_lt_one : (threshold : ℝ) < 1 := by
  have hroot : Real.sqrt 17.0 < 7 := by
    rw [Real.sqrt_lt' (by norm_num)]
    norm_num
  change (1 + Real.sqrt 17.0) * 0.125 < 1
  linarith

theorem choose_eq (a : Mat ℝ (k + 1) (k + 1)) :
    choose a =
      let r := largestDiagonal a
      let p := largestBeside a r
      if p.1 = r ∨ threshold * p.2 ≤ |a.toMatrix r r| ∨
          threshold * p.2 * (p.2 / (largestBeside a p.1).2) ≤ |a.toMatrix r r| then .single r
      else .double r p.1 := rfl

/-- A pivot that is used by itself is not zero. -/
theorem ne_zero_of_single {a : Mat ℝ (k + 1) (k + 1)} {r : Fin (k + 1)} (h : Regular a.toMatrix)
    (hr : choose a = .single r) : a.toMatrix r r ≠ 0 := by
  rw [choose_eq] at hr
  dsimp only at hr
  split at hr
  · rename_i hsingle
    obtain rfl : largestDiagonal a = r := Pivot.single.inj hr
    have hfound := found_largestBeside a (largestDiagonal a)
    revert hsingle hfound
    generalize largestDiagonal a = r
    generalize largestBeside a r = p
    intro hsingle hfound hzero
    rw [hzero, abs_zero] at hsingle
    rcases hfound.cases with hnone | ⟨hne, hpos, habs⟩
    · -- then the whole column would be zero
      obtain ⟨i, hi⟩ := h.exists_ne_zero r
      have hir : i ≠ r := fun he => hi (by rw [he]; exact hzero)
      have hle := hfound.abs_le hir
      rw [hnone] at hle
      exact hi (abs_nonpos_iff.mp hle)
    · have hbeyond := (found_largestBeside a p.1).abs_le (i := r) (Ne.symm hne)
      rw [h.symm.apply p.1 r, ← habs] at hbeyond
      have hshare : 0 < threshold * p.2 := mul_pos threshold_pos hpos
      have hratio : 0 < p.2 / (largestBeside a p.1).2 := div_pos hpos (lt_of_lt_of_le hpos hbeyond)
      rcases hsingle with hs | hs | hs
      · exact hne hs
      · exact absurd hs (not_le.mpr hshare)
      · exact absurd hs (not_le.mpr (mul_pos hshare hratio))
  · cases hr

/-- An entry beside the diagonal larger than both diagonal entries decides the determinant. -/
theorem det_ne_zero_of_dominant {d e f : ℝ} (hf : |f| ≤ |d|) (hd : |d| < |e|) :
    d * f - e ^ 2 ≠ 0 := by
  have hproduct : |d * f| < e ^ 2 := by
    calc |d * f| = |d| * |f| := abs_mul d f
      _ ≤ |d| * |d| := mul_le_mul_of_nonneg_left hf (abs_nonneg d)
      _ = |d| ^ 2 := (sq |d|).symm
      _ < |e| ^ 2 := pow_lt_pow_left₀ hd (abs_nonneg d) two_ne_zero
      _ = e ^ 2 := sq_abs e
  have hle := le_abs_self (d * f)
  linarith

/-- Of a pair of pivots the entry beside the diagonal dominates. -/
theorem double_pivot {a : Mat ℝ (k + 1) (k + 1)} {r s : Fin (k + 1)}
    (hr : choose a = .double r s) :
    s ≠ r ∧ a.toMatrix s r ≠ 0 ∧ a.toMatrix r r * a.toMatrix s s - a.toMatrix s r ^ 2 ≠ 0 := by
  rw [choose_eq] at hr
  dsimp only at hr
  split at hr
  · cases hr
  · rename_i hdouble
    obtain ⟨rfl, rfl⟩ := Pivot.double.inj hr
    have hfound := found_largestBeside a (largestDiagonal a)
    have hlargest := abs_le_largestDiagonal a (largestBeside a (largestDiagonal a)).1
    push Not at hdouble
    obtain ⟨hne, hown, -⟩ := hdouble
    obtain ⟨-, hpos, habs⟩ := hfound.cases.resolve_left fun he => hne (congrArg Prod.fst he)
    refine ⟨hne, abs_pos.mp (habs ▸ hpos), det_ne_zero_of_dominant hlargest ?_⟩
    rw [← habs]
    exact lt_trans hown (mul_lt_of_lt_one_left hpos threshold_lt_one)

/-! ### What a pivot leaves -/

/-- With a single pivot a system with one variable less is left. -/
theorem solve_of_single {a : Mat ℝ (k + 2) (k + 2)} (b : Vector ℝ (k + 2)) {r : Fin (k + 2)}
    (hr : choose a = .single r) :
    let b' := b.swap 0 r (k + 1).succ_pos r.isLt
    ∃ (c : Mat ℝ (k + 1) (k + 1)) (v : Vector ℝ (k + 1)),
      c.toMatrix = rest (a.exchange 0 r).toMatrix ∧
        coords v = sideRest (a.exchange 0 r).toMatrix (coords b') ∧
        coords (solve a b) =
          extend (a.exchange 0 r).toMatrix (coords b') (coords (solve c v)) ∘
            Equiv.swap 0 r := by
  intro side
  rw [solve, hr]
  dsimp -zeta only
  lift_lets
  intro a' b' inverse factor' rest' right tail head x
  have hfactor : coords factor' = factor a'.toMatrix := coords_ofFn _
  refine ⟨rest', right, ?_, ?_, ?_⟩
  · rw [Mat.toMatrix_ofFn]
    ext i j
    rw [of_apply, ← coords_apply factor', hfactor]
    rfl
  · rw [coords_ofFn]
    funext i
    rw [← coords_apply factor', hfactor]
    rfl
  · have hhead : head =
        coords b' 0 * (1 / a'.toMatrix 0 0) - factor a'.toMatrix ⬝ᵥ coords tail := by
      rw [← hfactor]
      exact lessDot_eq _ _ _
    have hx : coords x = Fin.cons head (coords tail) := coords_ofFn _
    rw [hhead] at hx
    exact (coords_swap x 0 r).trans (congrArg (· ∘ Equiv.swap 0 r) hx)

/-- With a pair of pivots a system with two variables less is left. -/
theorem solve_of_double {a : Mat ℝ (k + 2) (k + 2)} (b : Vector ℝ (k + 2)) {r s : Fin (k + 2)}
    (hrs : choose a = .double r s) :
    let a' := (a.exchange 0 r).exchange 1 (afterExchange r s)
    let b' := (b.swap 0 r (k + 1).succ_pos r.isLt).swap 1 (afterExchange r s) k.one_lt_succ_succ
      (afterExchange r s).isLt
    ∃ (c : Mat ℝ k k) (v : Vector ℝ k),
      c.toMatrix = restBehind a'.toMatrix ∧ coords v = sideBehind a'.toMatrix (coords b') ∧
        coords (solve a b) = extendPair a'.toMatrix (coords b') (coords (solve c v)) ∘
          Equiv.swap 1 (afterExchange r s) ∘ Equiv.swap 0 r := by
  intro exchanged side
  rw [solve, hrs]
  dsimp -zeta only
  lift_lets
  intro s' a' b' pair factor' rest' right tail own first second x
  have hfactor : coords factor' = factors a'.toMatrix := coords_ofFn _
  refine ⟨rest', right, ?_, ?_, ?_⟩
  · rw [Mat.toMatrix_ofFn]
    ext i j
    rw [of_apply, ← coords_apply factor', hfactor]
    rfl
  · rw [coords_ofFn]
    funext i
    rw [← coords_apply factor', hfactor]
    rfl
  · have hfirst : first = own.1 - ∑ j, (factors a'.toMatrix j).1 * coords tail j := by
      refine (lessDot_eq _ _ _).trans ?_
      rw [coords_map, hfactor]
      rfl
    have hsecond : second = own.2 - ∑ j, (factors a'.toMatrix j).2 * coords tail j := by
      refine (lessDot_eq _ _ _).trans ?_
      rw [coords_map, hfactor]
      rfl
    have hx : coords x = Fin.cons first (Fin.cons second (coords tail)) := coords_ofFn _
    rw [hfirst, hsecond] at hx
    refine (coords_swap (x.swap 1 s') 0 r).trans ?_
    exact congrArg (· ∘ Equiv.swap 0 r)
      ((coords_swap x 1 s').trans (congrArg (· ∘ Equiv.swap 1 s') hx))

/-! ### Solution -/

theorem afterExchange_ne_zero {r s : Fin (k + 1)} (h : s ≠ r) : afterExchange r s ≠ 0 := by
  unfold afterExchange
  split
  · rename_i hs
    exact fun hr => h (hs.trans hr.symm)
  · assumption

/-- The index where `s` is found leads back to `s`. -/
theorem swap_afterExchange {r s : Fin (k + 1)} (h : s ≠ r) :
    Equiv.swap 0 r (afterExchange r s) = s := by
  unfold afterExchange
  split
  · rename_i hs
    rw [Equiv.swap_apply_right, hs]
  · rename_i hs
    exact Equiv.swap_apply_of_ne_of_ne hs h

theorem pairPivot_of_double {a : Mat ℝ (k + 2) (k + 2)} {r s : Fin (k + 2)}
    (h : Regular a.toMatrix) (hrs : choose a = .double r s) :
    PairPivot ((a.exchange 0 r).exchange 1 (afterExchange r s)).toMatrix := by
  obtain ⟨hne, hbeside, hdet⟩ := double_pivot hrs
  have hentry : ∀ i j, ((a.exchange 0 r).exchange 1 (afterExchange r s)).toMatrix i j =
      a.toMatrix (Equiv.swap 0 r (Equiv.swap 1 (afterExchange r s) i))
        (Equiv.swap 0 r (Equiv.swap 1 (afterExchange r s) j)) := by
    intro i j
    rw [Mat.toMatrix_exchange, Mat.toMatrix_exchange]
    rfl
  have hzero : Equiv.swap 0 r (Equiv.swap 1 (afterExchange r s) 0) = r := by
    rw [Equiv.swap_apply_of_ne_of_ne zero_ne_one (Ne.symm (afterExchange_ne_zero hne)),
      Equiv.swap_apply_left]
  have hone : Equiv.swap 0 r (Equiv.swap 1 (afterExchange r s) 1) = s := by
    rw [Equiv.swap_apply_left, swap_afterExchange hne]
  constructor
  · exact ((h.exchange 0 r).exchange 1 (afterExchange r s)).symm
  · rw [hentry, hzero, hone]
    exact hbeside
  · rw [hentry, hentry, hentry, hzero, hone]
    exact hdet

/-- Elimination solves every symmetric system that has one solution at most. -/
theorem mulVec_solve {k : Nat} {a : Mat ℝ k k} (b : Vector ℝ k) (h : Regular a.toMatrix) :
    a.toMatrix *ᵥ coords (solve a b) = coords b := by
  induction k using Nat.strong_induction_on with
  | _ k ih =>
    match k with
    | 0 => exact Subsingleton.elim _ _
    | 1 =>
      obtain ⟨i, hi⟩ := h.exists_ne_zero 0
      rw [Subsingleton.elim i 0] at hi
      funext i
      rw [mulVec, dotProduct, Fin.sum_univ_one, Subsingleton.elim i 0, solve, coords_map]
      change a.toMatrix 0 0 * (coords b 0 * (1 / a.toMatrix 0 0)) = coords b 0
      field_simp
    | k + 2 =>
      cases hchoice : choose a with
      | single r =>
        obtain ⟨c, v, hc, hv, hx⟩ := solve_of_single b hchoice
        have hreg : Regular (a.exchange 0 r).toMatrix := h.exchange 0 r
        have hp : (a.exchange 0 r).toMatrix 0 0 ≠ 0 := by
          rw [Mat.toMatrix_exchange, submatrix_apply, Equiv.swap_apply_left]
          exact ne_zero_of_single h hchoice
        have htail := ih (k + 1) (by omega) v (hc ▸ regular_rest hreg hp)
        rw [hc, hv] at htail
        rw [hx]
        exact mulVec_swap_of_exchange (mulVec_extend hreg.symm hp htail)
      | double r s =>
        obtain ⟨c, v, hc, hv, hx⟩ := solve_of_double b hchoice
        have hreg := (h.exchange 0 r).exchange 1 (afterExchange r s)
        have hpivot := pairPivot_of_double h hchoice
        have htail := ih k (by omega) v (hc ▸ hpivot.regular_rest hreg)
        rw [hc, hv] at htail
        rw [hx]
        exact mulVec_swap_of_exchange
          (mulVec_swap_of_exchange (hpivot.mulVec_extendPair htail))

end DiagonalPivoting

/-- What is proposed solves every symmetric system with a nonsingular matrix. -/
class ExactProposal [DenseSolver ℝ] : Prop where
  mulVec_propose : ∀ {k : Nat} {a : Mat ℝ k k} (b : Vector ℝ k), a.toMatrix.IsSymm →
    a.toMatrix.det ≠ 0 → Mat.mulVec a (DenseSolver.propose a b) = b

theorem exactProposal_symmetric : @ExactProposal (DenseSolver.symmetric ℝ) := by
  let _ := DenseSolver.symmetric ℝ
  constructor
  intro k a b hs hdet
  apply coords_injective
  rw [coords_mulVec]
  change a.toMatrix *ᵥ coords (DiagonalPivoting.solve (Mat.fromLower a) b) = coords b
  rw [Mat.fromLower_of_isSymm hs]
  exact DiagonalPivoting.mulVec_solve b (.of_det_ne_zero hs hdet)

end BoxDescent
