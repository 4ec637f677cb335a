import BoxDescent.Proofs.History.Forward

/-!
# The dense inverse

The inverse of the quasi-Newton matrix as it is written down without a limit on memory: start
with `I / theta`, and for each pair `(s, y)`, oldest first, with `rho = 1 / (s · y)`, replace `H` by

    (I - rho s yᵀ) H (I - rho y sᵀ) + rho s sᵀ.

The two loops multiply by this matrix: the way down forms `(I - rho y sᵀ) v` for the newest pair
and hands it to the older ones, the way up applies the rest of the update to what comes back.
-/

namespace BoxDescent

open Matrix

variable {n : Nat}

/-! ### Dense updates -/

namespace Bfgs

noncomputable def updateInverse (H : Matrix (Fin n) (Fin n) ℝ) (s y : Fin n → ℝ) :
    Matrix (Fin n) (Fin n) ℝ :=
  (1 - (s ⬝ᵥ y)⁻¹ • vecMulVec s y) * H * (1 - (s ⬝ᵥ y)⁻¹ • vecMulVec y s) +
    (s ⬝ᵥ y)⁻¹ • vecMulVec s s

noncomputable def inverse (theta : ℝ) (pairs : List (Pair n)) : Matrix (Fin n) (Fin n) ℝ :=
  pairs.foldl (fun H p => updateInverse H p.1 p.2) (theta⁻¹ • 1)

theorem inverse_append (theta : ℝ) (pairs : List (Pair n)) (p : Pair n) :
    inverse theta (pairs ++ [p]) = updateInverse (inverse theta pairs) p.1 p.2 := by
  simp only [inverse, List.foldl_append, List.foldl_cons, List.foldl_nil]

theorem smul_vecMulVec_mulVec (a : ℝ) (u w v : Fin n → ℝ) :
    (a • vecMulVec u w) *ᵥ v = (a * (w ⬝ᵥ v)) • u := by
  rw [smul_mulVec, vecMulVec_mulVec, op_smul_eq_smul, smul_smul]

/-- An updated inverse is applied with one product of the inverse before. -/
theorem updateInverse_mulVec (H : Matrix (Fin n) (Fin n) ℝ) (s y v : Fin n → ℝ) :
    let a := (s ⬝ᵥ y)⁻¹ * (s ⬝ᵥ v)
    let r := H *ᵥ (v - a • y)
    updateInverse H s y *ᵥ v = r + (a - (s ⬝ᵥ y)⁻¹ * (y ⬝ᵥ r)) • s := by
  intro a r
  have hdown : (1 - (s ⬝ᵥ y)⁻¹ • vecMulVec y s) *ᵥ v = v - a • y := by
    rw [sub_mulVec, one_mulVec, smul_vecMulVec_mulVec]
  have hup : (1 - (s ⬝ᵥ y)⁻¹ • vecMulVec s y) *ᵥ r = r - ((s ⬝ᵥ y)⁻¹ * (y ⬝ᵥ r)) • s := by
    rw [sub_mulVec, one_mulVec, smul_vecMulVec_mulVec]
  calc updateInverse H s y *ᵥ v
      = (1 - (s ⬝ᵥ y)⁻¹ • vecMulVec s y) *ᵥ (H *ᵥ ((1 - (s ⬝ᵥ y)⁻¹ • vecMulVec y s) *ᵥ v)) +
          a • s := by
        rw [updateInverse, add_mulVec, smul_vecMulVec_mulVec, mulVec_mulVec, mulVec_mulVec]
    _ = r - ((s ⬝ᵥ y)⁻¹ * (y ⬝ᵥ r)) • s + a • s := by rw [hdown, hup]
    _ = r + (a - (s ⬝ᵥ y)⁻¹ * (y ⬝ᵥ r)) • s := by
        rw [sub_smul]
        abel

end Bfgs

/-! ### The two loops -/

namespace Store

theorem coords_twoLoop (theta : ℝ) {cs : List (Correction ℝ n)}
    (hrho : ∀ c ∈ cs, c.rho = 1 / dot c.s c.y) (v : Vector ℝ n) :
    coords (twoLoop theta cs.reverse v) =
      Bfgs.inverse theta (cs.map pairOf) *ᵥ coords v := by
  -- on the newest pair; the vector changes on the way to the older ones
  induction cs using List.reverseRecOn generalizing v with
  | nil =>
    simp only [List.map_nil, List.reverse_nil, twoLoop, coords_divide, Bfgs.inverse,
      List.foldl_nil, smul_mulVec, one_mulVec]
  | append_singleton cs c ih =>
    have hinner := ih (fun d hd => hrho d (List.mem_append_left _ hd))
      (addScaled v (-(c.rho * dot c.s v)) c.y)
    have hscale : ∀ u w : Vector ℝ n,
        c.rho * dot u w = (coords c.s ⬝ᵥ coords c.y)⁻¹ * (coords u ⬝ᵥ coords w) := by
      intro u w
      rw [hrho c (List.mem_append_right _ (List.mem_singleton_self c)), dot_eq, dot_eq, one_div]
    rw [List.reverse_append, List.map_append, List.map_singleton, Bfgs.inverse_append]
    simp only [List.reverse_singleton, List.singleton_append, twoLoop]
    generalize twoLoop theta cs.reverse (addScaled v (-(c.rho * dot c.s v)) c.y) = inner at hinner ⊢
    rw [coords_addScaled, neg_smul, ← sub_eq_add_neg, hscale] at hinner
    rw [coords_addScaled, hscale, hscale, hinner]
    exact (Bfgs.updateInverse_mulVec _ _ _ _).symm

variable [DenseSolver ℝ] {cap : Nat}

/-- After any operations, whatever could be factorized, the two loops multiply by the matrix of
dense inverse updates with the pairs held, and those updates divide by positive numbers only. -/
theorem applyInverse_eq_dense (hcap : 0 < cap) (ops : List (Operation ℝ n)) (v : Vector ℝ n) :
    let store : Store ℝ n cap := after ops
    coords (store.applyInverse v) =
        Bfgs.inverse store.theta (store.pairs.map pairOf) *ᵥ coords v ∧
      0 < store.theta ∧ ∀ c ∈ store.pairs, 0 < coords c.s ⬝ᵥ coords c.y := by
  intro store
  have h : store.Consistent := consistent_after hcap ops
  refine ⟨coords_twoLoop _ (fun c hc => (h.admissible c hc).rho_eq) v, h.theta_pos, ?_⟩
  intro c hc
  have hpos := (h.admissible c hc).dot_pos
  rwa [dot_eq] at hpos

omit [DenseSolver ℝ] in
/-- Three pairs are offered to a store with room for two. -/
theorem applyInverse_eq_dense_after_eviction :
    let _ := DenseSolver.symmetric ℝ
    let store : Store ℝ 2 2 :=
      after [.offer #v[1, 0] #v[1, 0], .offer #v[0, 1] #v[0, 2], .offer #v[1, 1] #v[2, 1]]
    0 < 2 ∧ store.pairs = [correction #v[0, 1] #v[0, 2], correction #v[1, 1] #v[2, 1]] ∧
      coords (store.applyInverse #v[5, 7]) =
        Bfgs.inverse store.theta
          [(coords #v[0, 1], coords #v[0, 2]), (coords #v[1, 1], coords #v[2, 1])] *ᵥ
            coords #v[5, 7] := by
  intro solver store
  have hcomplete : CompleteFactor := completeFactor_symmetric
  let offered : List (Vector ℝ 2 × Vector ℝ 2) :=
    [(#v[1, 0], #v[1, 0]), (#v[0, 1], #v[0, 2]), (#v[1, 1], #v[2, 1])]
  have hcurvature : ∀ p ∈ offered, Scalar.epsilon * dot p.2 p.2 < dot p.1 p.2 := by
    intro p hp
    simp only [offered, List.mem_cons, List.not_mem_nil, or_false] at hp
    rcases hp with rfl | rfl | rfl <;>
      norm_num [dot, BoxDescent.sum, Fin.foldl_succ, Scalar.epsilon]
  have hpairs : store.pairs = [correction #v[0, 1] #v[0, 2], correction #v[1, 1] #v[2, 1]] :=
    pairs_after_offers Nat.two_pos hcurvature
  have hinverse : coords (store.applyInverse #v[5, 7]) =
      Bfgs.inverse store.theta (store.pairs.map pairOf) *ᵥ coords #v[5, 7] :=
    (applyInverse_eq_dense Nat.two_pos
      [.offer #v[1, 0] #v[1, 0], .offer #v[0, 1] #v[0, 2], .offer #v[1, 1] #v[2, 1]]
      #v[5, 7]).1
  refine ⟨Nat.two_pos, hpairs, ?_⟩
  rw [hinverse, hpairs]
  rfl

end Store

end BoxDescent
