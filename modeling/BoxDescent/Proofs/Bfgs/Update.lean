import BoxDescent.Proofs.Linear.Coordinates

/-!
# Dense updates

The quasi-Newton matrix as it is written down without a limit on memory: start with
`theta * I`, and for each pair `(s, y)`, oldest first, replace `B` by

    B - (B s) (B s)ᵀ / (s · B s) + y yᵀ / (s · y).

An update with `0 < s · y` keeps the matrix symmetric and positive definite and makes it
take `s` to `y`.  Its inverse is applied with one product of the inverse of `B`.
-/

namespace BoxDescent

namespace Bfgs

open Matrix

variable {n : Nat}

abbrev Pair (n : Nat) : Type := (Fin n → ℝ) × (Fin n → ℝ)

noncomputable def update (B : Matrix (Fin n) (Fin n) ℝ) (s y : Fin n → ℝ) :
    Matrix (Fin n) (Fin n) ℝ :=
  B - (s ⬝ᵥ B *ᵥ s)⁻¹ • vecMulVec (B *ᵥ s) (B *ᵥ s) + (s ⬝ᵥ y)⁻¹ • vecMulVec y y

noncomputable def forward (theta : ℝ) (pairs : List (Pair n)) : Matrix (Fin n) (Fin n) ℝ :=
  pairs.foldl (fun B p => update B p.1 p.2) (theta • 1)

theorem forward_nil (theta : ℝ) : forward theta ([] : List (Pair n)) = theta • 1 := rfl

theorem forward_append (theta : ℝ) (pairs : List (Pair n)) (p : Pair n) :
    forward theta (pairs ++ [p]) = update (forward theta pairs) p.1 p.2 := by
  simp only [forward, List.foldl_append, List.foldl_cons, List.foldl_nil]

/-! ### Symmetry and definiteness -/

theorem isSymm_vecMulVec (u : Fin n → ℝ) : (vecMulVec u u).IsSymm := by
  apply IsSymm.ext
  intro i j
  simp only [vecMulVec_apply]
  ring

theorem isSymm_update {B : Matrix (Fin n) (Fin n) ℝ} (hB : B.IsSymm) (s y : Fin n → ℝ) :
    (update B s y).IsSymm :=
  (hB.sub ((isSymm_vecMulVec _).smul _)).add ((isSymm_vecMulVec _).smul _)

theorem vecMulVec_mulVec_real (u v : Fin n → ℝ) : vecMulVec u u *ᵥ v = (u ⬝ᵥ v) • u := by
  rw [vecMulVec_mulVec]
  exact op_smul_eq_smul _ _

theorem update_mulVec {B : Matrix (Fin n) (Fin n) ℝ} (hB : B.IsSymm) (s y v : Fin n → ℝ) :
    update B s y *ᵥ v =
      B *ᵥ v - ((s ⬝ᵥ B *ᵥ v) / (s ⬝ᵥ B *ᵥ s)) • (B *ᵥ s) + ((y ⬝ᵥ v) / (s ⬝ᵥ y)) • y := by
  have hs : B *ᵥ s ⬝ᵥ v = s ⬝ᵥ B *ᵥ v := (dotProduct_mulVec_symm hB s v).symm
  simp only [update, add_mulVec, sub_mulVec, smul_mulVec, vecMulVec_mulVec_real, hs, smul_smul,
    div_eq_inv_mul]

theorem dotProduct_update_mulVec {B : Matrix (Fin n) (Fin n) ℝ} (hB : B.IsSymm)
    (s y v : Fin n → ℝ) :
    v ⬝ᵥ update B s y *ᵥ v =
      v ⬝ᵥ B *ᵥ v - (s ⬝ᵥ B *ᵥ v) ^ 2 / (s ⬝ᵥ B *ᵥ s) + (y ⬝ᵥ v) ^ 2 / (s ⬝ᵥ y) := by
  have hs : v ⬝ᵥ B *ᵥ s = s ⬝ᵥ B *ᵥ v := by
    rw [dotProduct_mulVec_symm hB, dotProduct_comm]
  rw [update_mulVec hB, dotProduct_add, dotProduct_sub, dotProduct_smul, dotProduct_smul, hs,
    dotProduct_comm v y, smul_eq_mul, smul_eq_mul]
  ring

/-- What the form of `B` gives beyond its part along `s`. -/
theorem dotProduct_mulVec_split {B : Matrix (Fin n) (Fin n) ℝ} (hB : B.IsSymm)
    {s : Fin n → ℝ} (hs : s ⬝ᵥ B *ᵥ s ≠ 0) (v : Fin n → ℝ) :
    v ⬝ᵥ B *ᵥ v - (s ⬝ᵥ B *ᵥ v) ^ 2 / (s ⬝ᵥ B *ᵥ s) =
      (v - ((s ⬝ᵥ B *ᵥ v) / (s ⬝ᵥ B *ᵥ s)) • s) ⬝ᵥ
        B *ᵥ (v - ((s ⬝ᵥ B *ᵥ v) / (s ⬝ᵥ B *ᵥ s)) • s) := by
  have hc : v ⬝ᵥ B *ᵥ s = s ⬝ᵥ B *ᵥ v := by
    rw [dotProduct_mulVec_symm hB, dotProduct_comm]
  simp only [mulVec_sub, mulVec_smul, sub_dotProduct, dotProduct_sub, smul_dotProduct,
    dotProduct_smul, smul_eq_mul, hc]
  field_simp
  ring

theorem ne_zero_of_dotProduct_pos {s y : Fin n → ℝ} (h : 0 < s ⬝ᵥ y) : s ≠ 0 := by
  intro hs
  rw [hs, zero_dotProduct] at h
  exact lt_irrefl 0 h

theorem posDef_update {B : Matrix (Fin n) (Fin n) ℝ} (hB : B.PosDef) {s y : Fin n → ℝ}
    (h : 0 < s ⬝ᵥ y) : (update B s y).PosDef := by
  rw [posDef_iff_real] at hB ⊢
  obtain ⟨hsymm, hpos⟩ := hB
  have hs : 0 < s ⬝ᵥ B *ᵥ s := hpos s (ne_zero_of_dotProduct_pos h)
  refine ⟨isSymm_update hsymm s y, ?_⟩
  intro v hv
  rw [dotProduct_update_mulVec hsymm, dotProduct_mulVec_split hsymm (ne_of_gt hs)]
  by_cases hw : v - ((s ⬝ᵥ B *ᵥ v) / (s ⬝ᵥ B *ᵥ s)) • s = 0
  · -- Along `s` the new term is positive.
    have hvs : v = ((s ⬝ᵥ B *ᵥ v) / (s ⬝ᵥ B *ᵥ s)) • s := sub_eq_zero.mp hw
    have hyv : y ⬝ᵥ v ≠ 0 := by
      intro hzero
      rw [hvs, dotProduct_smul, dotProduct_comm y s, smul_eq_mul] at hzero
      rcases mul_eq_zero.mp hzero with ht | ht
      · rw [ht, zero_smul] at hvs
        exact hv hvs
      · exact ne_of_gt h ht
    rw [hw, zero_dotProduct, zero_add]
    positivity
  · have hfirst := hpos _ hw
    have hsecond : 0 ≤ (y ⬝ᵥ v) ^ 2 / (s ⬝ᵥ y) := by positivity
    linarith

theorem posDef_smul_one {theta : ℝ} (h : 0 < theta) :
    (theta • (1 : Matrix (Fin n) (Fin n) ℝ)).PosDef := PosDef.one.smul h

theorem posDef_forward {theta : ℝ} (htheta : 0 < theta) {pairs : List (Pair n)}
    (h : ∀ p ∈ pairs, 0 < p.1 ⬝ᵥ p.2) : (forward theta pairs).PosDef := by
  induction pairs using List.reverseRecOn with
  | nil => exact posDef_smul_one htheta
  | append_singleton pairs p ih =>
    rw [forward_append]
    have hp := h p (List.mem_append_right _ (List.mem_singleton_self p))
    exact posDef_update (ih fun q hq => h q (List.mem_append_left _ hq)) hp

/-! ### The inverse of an update -/

theorem update_mulVec_step {B : Matrix (Fin n) (Fin n) ℝ} (hB : B.PosDef) {s y : Fin n → ℝ}
    (h : 0 < s ⬝ᵥ y) : update B s y *ᵥ s = y := by
  obtain ⟨hsymm, hpos⟩ := posDef_iff_real.mp hB
  have hs : s ⬝ᵥ B *ᵥ s ≠ 0 := ne_of_gt (hpos s (ne_zero_of_dotProduct_pos h))
  rw [update_mulVec hsymm, div_self hs, one_smul, sub_self, zero_add, dotProduct_comm y s,
    div_self (ne_of_gt h), one_smul]

/-- The solution of a system with an updated matrix, from that of one with the matrix
before. -/
theorem update_mulVec_solution {B : Matrix (Fin n) (Fin n) ℝ} (hB : B.PosDef)
    {s y : Fin n → ℝ} (h : 0 < s ⬝ᵥ y) {v r : Fin n → ℝ}
    (hr : B *ᵥ r = v - ((s ⬝ᵥ v) / (s ⬝ᵥ y)) • y) :
    update B s y *ᵥ (r + ((s ⬝ᵥ v) / (s ⬝ᵥ y) - (y ⬝ᵥ r) / (s ⬝ᵥ y)) • s) = v := by
  have hsymm := (posDef_iff_real.mp hB).1
  have horth : s ⬝ᵥ B *ᵥ r = 0 := by
    rw [hr, dotProduct_sub, dotProduct_smul, smul_eq_mul, div_mul_cancel₀ _ (ne_of_gt h),
      sub_self]
  rw [mulVec_add, mulVec_smul, update_mulVec_step hB h, update_mulVec hsymm, horth, zero_div,
    zero_smul, sub_zero, hr, sub_smul]
  abel

end Bfgs

end BoxDescent
