import BoxDescent.Proofs.History.Forward

/-!
# The model on a segment

For a symmetric matrix `B` the model `g · s + 1/2 * s · B s` of a step `s` is a parabola
along every direction.  When a variable stops, the direction loses one coordinate; slope
and curvature change by terms that the compact products `Wᵀ s` and `Wᵀ d` determine, since
`u · B v = theta * u · v - Wᵀ u · M (Wᵀ v)`.
-/

namespace BoxDescent

open Matrix

/-! ### Parabolas -/

namespace Model

variable {n : Nat} {B : Matrix (Fin n) (Fin n) ℝ}

/-- The change of the model by a step. -/
noncomputable def value (B : Matrix (Fin n) (Fin n) ℝ) (g s : Fin n → ℝ) : ℝ :=
  g ⬝ᵥ s + 1 / 2 * (s ⬝ᵥ B *ᵥ s)

/-- The first derivative after the step `s`, along `d`. -/
def slope (B : Matrix (Fin n) (Fin n) ℝ) (g s d : Fin n → ℝ) : ℝ := d ⬝ᵥ (g + B *ᵥ s)

/-- The second derivative along `d`. -/
def curvature (B : Matrix (Fin n) (Fin n) ℝ) (d : Fin n → ℝ) : ℝ := d ⬝ᵥ B *ᵥ d

variable {g s d : Fin n → ℝ}

theorem slope_add_smul (t : ℝ) :
    slope B g (s + t • d) d = slope B g s d + t * curvature B d := by
  rw [slope, slope, curvature, mulVec_add, mulVec_smul, ← add_assoc, dotProduct_add,
    dotProduct_smul, smul_eq_mul]

theorem value_add_smul (hB : B.IsSymm) (t : ℝ) :
    value B g (s + t • d) =
      value B g s + (t * slope B g s d + t ^ 2 / 2 * curvature B d) := by
  have hcross : s ⬝ᵥ B *ᵥ d = d ⬝ᵥ B *ᵥ s := by
    rw [dotProduct_mulVec_symm hB, dotProduct_comm]
  simp only [value, slope, curvature, mulVec_add, mulVec_smul, dotProduct_add, add_dotProduct,
    dotProduct_smul, smul_dotProduct, smul_eq_mul, hcross, dotProduct_comm g d]
  ring

/-- A parabola decreases until an upper estimate of its derivative vanishes. -/
theorem parabola_lt {a a' c c' δ r t : ℝ} (ha : a ≤ a') (hc : c ≤ c') (hpos : 0 < c')
    (hend : a' + δ * c' ≤ 0) (hr : 0 ≤ r) (hrt : r < t) (ht : t ≤ δ) :
    t * a + t ^ 2 / 2 * c < r * a + r ^ 2 / 2 * c := by
  have hmid : (r + t) / 2 < δ := by linarith
  have hcurv : (r + t) / 2 * c ≤ (r + t) / 2 * c' :=
    mul_le_mul_of_nonneg_left hc (by linarith)
  have hlast : (r + t) / 2 * c' < δ * c' := mul_lt_mul_of_pos_right hmid hpos
  have hneg : a + (r + t) / 2 * c < 0 := by linarith
  have hdiff : t * a + t ^ 2 / 2 * c - (r * a + r ^ 2 / 2 * c) =
      (t - r) * (a + (r + t) / 2 * c) := by ring
  have hprod : (t - r) * (a + (r + t) / 2 * c) < 0 :=
    mul_neg_of_pos_of_neg (by linarith) hneg
  linarith

theorem slope_stop (i : Fin n) (v : ℝ) :
    slope B g s (d - v • Pi.single i 1) = slope B g s d - v * (g i + (B *ᵥ s) i) := by
  rw [slope, slope, sub_dotProduct, smul_dotProduct, single_dotProduct, one_mul, smul_eq_mul,
    Pi.add_apply]

theorem curvature_stop (hB : B.IsSymm) (i : Fin n) (v : ℝ) :
    curvature B (d - v • Pi.single i 1) =
      curvature B d - 2 * v * (B *ᵥ d) i + v * v * (B *ᵥ Pi.single i 1) i := by
  have hcross : d ⬝ᵥ B *ᵥ Pi.single i 1 = (B *ᵥ d) i := by
    rw [dotProduct_mulVec_symm hB, dotProduct_single, mul_one]
  simp only [curvature, mulVec_sub, mulVec_smul, dotProduct_sub, sub_dotProduct, dotProduct_smul,
    smul_dotProduct, smul_eq_mul, hcross, single_dotProduct, one_mul]
  ring

end Model

/-! ### Compact products -/

section

variable {n k : Nat}

theorem coords_set_zero (v : Vector ℝ n) (i : Fin n) :
    coords (v.set i 0 i.isLt) = coords v - v[i] • Pi.single i 1 := by
  rw [coords_set]
  funext j
  rw [Pi.sub_apply, Pi.smul_apply, smul_eq_mul]
  by_cases h : j = i
  · rw [h, Function.update_self, Pi.single_eq_same, coords_apply, mul_one, sub_self]
  · rw [Function.update_of_ne h, Pi.single_eq_of_ne h, mul_zero, sub_zero]

theorem coords_ofParts (u v : Vector ℝ k) :
    coords (Compact.ofParts u v) = Fin.append (coords u) (coords v) := by
  funext i
  cases i using Fin.addCases with
  | left j =>
    rw [Fin.append_left]
    simp [Compact.ofParts, coords]
  | right j =>
    rw [Fin.append_right]
    simp [Compact.ofParts, coords]

theorem dot_ofParts (u v : Vector ℝ k) (q : Compact ℝ k) :
    dot (Compact.ofParts u v) q = dot u q.yPart + dot v q.sPart := by
  rw [dot_eq, dot_eq, dot_eq, coords_ofParts, Compact.yPart, Compact.sPart, coords_ofFn,
    coords_ofFn, dotProduct, Fin.sum_univ_add]
  simp only [Fin.append_left, Fin.append_right]
  rfl

theorem addScaled_ofParts (u₁ u₂ v₁ v₂ : Vector ℝ k) (a : ℝ) :
    addScaled (Compact.ofParts u₁ u₂) a (Compact.ofParts v₁ v₂) =
      Compact.ofParts (addScaled u₁ a v₁) (addScaled u₂ a v₂) := by
  apply coords_injective
  rw [coords_addScaled, coords_ofParts, coords_ofParts, coords_ofParts, coords_addScaled,
    coords_addScaled]
  funext i
  cases i using Fin.addCases with
  | left j => simp only [Pi.add_apply, Pi.smul_apply, Fin.append_left]
  | right j => simp only [Pi.add_apply, Pi.smul_apply, Fin.append_right]

/-- The vector with one in coordinate `i` and zero elsewhere. -/
def unit (i : Fin n) : Vector ℝ n := Vector.ofFn (Pi.single i 1)

theorem dot_unit (v : Vector ℝ n) (i : Fin n) : dot v (unit i) = v[i] := by
  rw [dot_eq, unit, coords_ofFn, dotProduct_single, mul_one]
  rfl

theorem dot_addScaled (w u : Vector ℝ n) (a : ℝ) (v : Vector ℝ n) :
    dot w (addScaled u a v) = dot w u + a * dot w v := by
  rw [dot_eq, dot_eq, dot_eq, coords_addScaled, dotProduct_add, dotProduct_smul, smul_eq_mul]

end

namespace Store

variable [DenseSolver ℝ] {n cap : Nat} {store : Store ℝ n cap}

theorem wTranspose_addScaled (u : Vector ℝ n) (a : ℝ) (v : Vector ℝ n) :
    store.wTranspose (addScaled u a v) =
      addScaled (store.wTranspose u) a (store.wTranspose v) := by
  rw [wTranspose, wTranspose, wTranspose, addScaled_ofParts]
  congr 1
  · apply coords_injective
    simp only [coords_addScaled, coords_ofFn, dot_addScaled]
    rfl
  · apply coords_injective
    simp only [coords_addScaled, coords_ofFn, dot_addScaled, mul_add, mul_left_comm]
    rfl

theorem wTranspose_unit (i : Fin n) : store.wTranspose (unit i) = store.wRow i := by
  simp only [wTranspose, wRow, dot_unit]

theorem wTranspose_zero : store.wTranspose (Vector.replicate n 0) = store.zeroCompact := by
  have hdot : ∀ u : Vector ℝ n, dot u (Vector.replicate n 0) = 0 := by
    intro u
    rw [dot_eq, coords_replicate]
    exact dotProduct_zero _
  apply coords_injective
  rw [wTranspose, zeroCompact, coords_ofParts, coords_replicate]
  simp only [hdot, mul_zero, coords_ofFn]
  funext i
  cases i using Fin.addCases with
  | left j => rw [Fin.append_left]
  | right j => rw [Fin.append_right]

theorem dotProduct_wTimes (u : Vector ℝ n) (q : Compact ℝ store.size) :
    coords u ⬝ᵥ coords (store.wTimes q) = dot (store.wTranspose u) q := by
  rw [coords_wTimes, Bfgs.dotProduct_combine, wTranspose, dot_ofParts, dot_eq, dot_eq]
  congr 1
  · apply Finset.sum_congr rfl
    intro j _
    rw [coords_ofFn, dot_eq, dotProduct_comm]
    rfl
  · apply Finset.sum_congr rfl
    intro j _
    rw [coords_ofFn, dot_eq, dotProduct_comm (coords u)]
    rfl

theorem compact_eq_of_isEmpty (h : store.isEmpty = true) (p q : Compact ℝ store.size) :
    p = q := by
  rw [isEmpty, beq_iff_eq] at h
  apply Vector.ext
  intro i hi
  omega

theorem dot_of_isEmpty (h : store.isEmpty = true) (p q : Compact ℝ store.size) :
    dot p q = 0 := by
  rw [isEmpty, beq_iff_eq] at h
  rw [dot, sum_eq]
  apply Finset.sum_eq_zero
  intro j _
  have hj := j.isLt
  omega

/-- Inner products with the matrix, in compact form. -/
theorem Consistent.dotProduct_dense [ExactFactor ℝ] (h : store.Consistent) (u v : Vector ℝ n) :
    coords u ⬝ᵥ store.dense *ᵥ coords v = store.theta * dot u v -
      dot (store.wTranspose u) (store.middleTimes (store.wTranspose v)) := by
  rw [← h.applyForward_eq, dot_eq]
  cases hempty : store.isEmpty with
  | true =>
    rw [coords_applyForward_of_empty hempty, dotProduct_smul, dot_of_isEmpty hempty, sub_zero,
      smul_eq_mul]
  | false =>
    rw [coords_applyForward hempty, dotProduct_sub, dotProduct_smul, dotProduct_wTimes,
      smul_eq_mul]

theorem Consistent.dense_mulVec_apply [ExactFactor ℝ] (h : store.Consistent) (u : Vector ℝ n)
    (i : Fin n) : (store.dense *ᵥ coords u) i = store.theta * u[i] -
      dot (store.wTranspose u) (store.middleTimes (store.wRow i)) := by
  rw [← dot_unit u i, ← wTranspose_unit, ← h.dotProduct_dense,
    dotProduct_mulVec_symm h.isSymm_dense, unit, coords_ofFn, dotProduct_single, mul_one]

end Store

end BoxDescent
