import BoxDescent.Proofs.Bfgs.Update

/-!
# The compact form of a sequence of updates

`theta * I` after updates with the pairs `(s 0, y 0)`, `(s 1, y 1)`, ... takes `v` to

    theta * v - Σ j, py j * y j + theta * ps j * s j

where `py` and `ps` solve a system of twice the number of pairs.  The proof takes the
newest pair off: what it leaves of the system is the system of the older pairs for
`v - ps k * s k`, its last row says that the older matrix takes this vector to one
orthogonal to `s k`, and so `ps k` is the coefficient that the last update needs.  No
inverse is formed.
-/

namespace BoxDescent

namespace Bfgs

open Matrix

variable {n k : Nat}

/-- `(py, ps)` is mapped to `(uy, us)` by the matrix with the blocks `-D`, `Lᵀ`, `L` and
`theta * Sᵀ S`. -/
structure Middle (theta : ℝ) (s y : Fin k → Fin n → ℝ) (uy us py ps : Fin k → ℝ) : Prop where
  upper : ∀ j,
    ∑ i, (if j < i then (s i ⬝ᵥ y j) * ps i else 0) - (s j ⬝ᵥ y j) * py j = uy j
  lower : ∀ i,
    ∑ j, (if j < i then (s i ⬝ᵥ y j) * py j else 0) + ∑ j, theta * (s i ⬝ᵥ s j) * ps j = us i

/-- The product with the compact form, for given coefficients. -/
def combine (theta : ℝ) (s y : Fin k → Fin n → ℝ) (py ps : Fin k → ℝ) : Fin n → ℝ :=
  ∑ j, (py j • y j + (theta * ps j) • s j)

theorem dotProduct_combine (theta : ℝ) (s y : Fin k → Fin n → ℝ) (py ps : Fin k → ℝ)
    (u : Fin n → ℝ) :
    u ⬝ᵥ combine theta s y py ps =
      ∑ j, (u ⬝ᵥ y j) * py j + ∑ j, theta * (u ⬝ᵥ s j) * ps j := by
  rw [combine, dotProduct_sum, ← Finset.sum_add_distrib]
  apply Finset.sum_congr rfl
  intro j _
  rw [dotProduct_add, dotProduct_smul, dotProduct_smul, smul_eq_mul, smul_eq_mul]
  ring

/-- The right-hand side of the system for the product with `v`. -/
abbrev MiddleFor (theta : ℝ) (s y : Fin k → Fin n → ℝ) (v : Fin n → ℝ) (py ps : Fin k → ℝ) :
    Prop :=
  Middle theta s y (fun j => y j ⬝ᵥ v) (fun j => theta * (s j ⬝ᵥ v)) py ps

section Newest

variable {theta : ℝ} {s y : Fin (k + 1) → Fin n → ℝ} {v : Fin n → ℝ} {py ps : Fin (k + 1) → ℝ}

theorem combine_succ :
    combine theta s y py ps =
      combine theta (fun j => s j.castSucc) (fun j => y j.castSucc) (fun j => py j.castSucc)
          (fun j => ps j.castSucc) +
        (py (Fin.last k) • y (Fin.last k) +
          (theta * ps (Fin.last k)) • s (Fin.last k)) := Fin.sum_univ_castSucc _

theorem MiddleFor.newest (h : MiddleFor theta s y v py ps) :
    -((s (Fin.last k) ⬝ᵥ y (Fin.last k)) * py (Fin.last k)) = y (Fin.last k) ⬝ᵥ v := by
  have hlast := h.upper (Fin.last k)
  simp only [Fin.not_lt.mpr (Fin.le_last _), if_false, Finset.sum_const_zero,
    zero_sub] at hlast
  exact hlast

theorem MiddleFor.older (h : MiddleFor theta s y v py ps) :
    MiddleFor theta (fun j => s j.castSucc) (fun j => y j.castSucc)
      (v - ps (Fin.last k) • s (Fin.last k)) (fun j => py j.castSucc) (fun j => ps j.castSucc) where
  upper j := by
    have hj := h.upper j.castSucc
    simp only [Fin.sum_univ_castSucc, Fin.castSucc_lt_castSucc_iff, Fin.castSucc_lt_last,
      if_true] at hj
    rw [dotProduct_sub, dotProduct_smul, smul_eq_mul, dotProduct_comm _ (s (Fin.last k))]
    linarith
  lower i := by
    have hi := h.lower i.castSucc
    simp only [Fin.sum_univ_castSucc, Fin.castSucc_lt_castSucc_iff,
      Fin.not_lt.mpr (Fin.le_last _), if_false] at hi
    rw [dotProduct_sub, dotProduct_smul, smul_eq_mul]
    linarith

/-- The last row: what the older pairs make of `v` without its part along the newest step
is orthogonal to that step. -/
theorem MiddleFor.orthogonal (h : MiddleFor theta s y v py ps) :
    s (Fin.last k) ⬝ᵥ (theta • (v - ps (Fin.last k) • s (Fin.last k)) -
      combine theta (fun j => s j.castSucc) (fun j => y j.castSucc) (fun j => py j.castSucc)
        (fun j => ps j.castSucc)) = 0 := by
  have hlast := h.lower (Fin.last k)
  simp only [Fin.sum_univ_castSucc, Fin.castSucc_lt_last, lt_irrefl, if_true, if_false] at hlast
  rw [dotProduct_sub, dotProduct_combine, dotProduct_smul, dotProduct_sub, dotProduct_smul,
    smul_eq_mul, smul_eq_mul]
  linarith

end Newest

theorem forward_mulVec_eq {theta : ℝ} (htheta : 0 < theta) {s y : Fin k → Fin n → ℝ}
    (hpos : ∀ j, 0 < s j ⬝ᵥ y j) {v : Fin n → ℝ} {py ps : Fin k → ℝ}
    (h : MiddleFor theta s y v py ps) :
    forward theta (List.ofFn fun j => (s j, y j)) *ᵥ v =
      theta • v - combine theta s y py ps := by
  induction k generalizing v with
  | zero => simp [forward_nil, combine, smul_mulVec]
  | succ k ih =>
    have hold := ih (fun j => hpos j.castSucc) h.older
    have horth := h.orthogonal
    have hnew := h.newest
    have hsy := hpos (Fin.last k)
    rw [← hold] at horth
    rw [List.ofFn_succ_last, forward_append]
    set B := forward theta (List.ofFn fun j : Fin k => (s j.castSucc, y j.castSucc)) with hB
    have hdef : B.PosDef := by
      apply posDef_forward htheta
      intro p hp
      obtain ⟨j, rfl⟩ := List.mem_ofFn.mp hp
      exact hpos j.castSucc
    obtain ⟨hsymm, hform⟩ := posDef_iff_real.mp hdef
    have hss := hform _ (ne_zero_of_dotProduct_pos hsy)
    have hcoef : (s (Fin.last k) ⬝ᵥ B *ᵥ v) / (s (Fin.last k) ⬝ᵥ B *ᵥ s (Fin.last k)) =
        ps (Fin.last k) := by
      rw [mulVec_sub, mulVec_smul, dotProduct_sub, dotProduct_smul, smul_eq_mul] at horth
      rw [div_eq_iff (ne_of_gt hss)]
      linarith
    have hlead : (y (Fin.last k) ⬝ᵥ v) / (s (Fin.last k) ⬝ᵥ y (Fin.last k)) =
        -py (Fin.last k) := by
      rw [div_eq_iff (ne_of_gt hsy), ← hnew]
      ring
    rw [mulVec_sub, mulVec_smul] at hold
    rw [update_mulVec hsymm, hcoef, hlead, hold, combine_succ, smul_sub, smul_smul, neg_smul]
    abel

end Bfgs

end BoxDescent
