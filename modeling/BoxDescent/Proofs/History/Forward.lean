import BoxDescent.Proofs.History.Admission

/-!
# The matrix of a store and its inverse

In exact arithmetic `applyForward` multiplies by the matrix that dense updates with the
pairs held, oldest first, make of `theta * I`; and `applyInverse`, which goes through the
pairs themselves, multiplies by the inverse of that matrix.  Both hold after any offers
and clearings, as long as factors solve their systems.
-/

namespace BoxDescent

namespace Store

open Matrix

variable [DenseSolver ℝ] {n cap : Nat}

def pairOf (c : Correction ℝ n) : Bfgs.Pair n := (coords c.s, coords c.y)

/-- The matrix of dense updates with the pairs held. -/
noncomputable def dense (store : Store ℝ n cap) : Matrix (Fin n) (Fin n) ℝ :=
  Bfgs.forward store.theta (store.pairs.map pairOf)

omit [DenseSolver ℝ] in
theorem curvature_pos_of_admissible {cs : List (Correction ℝ n)} (h : ∀ c ∈ cs, Admissible c) :
    ∀ p ∈ cs.map pairOf, 0 < p.1 ⬝ᵥ p.2 := by
  intro p hp
  obtain ⟨c, hc, rfl⟩ := List.mem_map.mp hp
  have hpos := (h c hc).dot_pos
  rw [dot_eq] at hpos
  exact hpos

variable {store : Store ℝ n cap}

theorem Tabulated.posDef_dense (h : store.Tabulated) : store.dense.PosDef :=
  Bfgs.posDef_forward h.theta_pos (curvature_pos_of_admissible h.admissible)

theorem Tabulated.isSymm_dense (h : store.Tabulated) : store.dense.IsSymm :=
  (posDef_iff_real.mp h.posDef_dense).1

theorem Tabulated.dense_eq_ofFn (h : store.Tabulated) :
    store.dense =
      Bfgs.forward store.theta (List.ofFn fun j => (store.steps j, store.changes j)) := by
  rw [dense, ← h.ofFn_pair, List.map_ofFn]
  rfl

/-! ### Products with the matrix -/

theorem coords_wTimes (store : Store ℝ n cap) (q : Compact ℝ store.size) :
    coords (store.wTimes q) = Bfgs.combine store.theta store.steps store.changes
      (coords q.yPart) (coords q.sPart) := by
  funext i
  rw [wTimes, coords_ofFn, sum_eq, Bfgs.combine, Finset.sum_apply]
  rfl

theorem coords_yPart_wTranspose (store : Store ℝ n cap) (v : Vector ℝ n) :
    coords (store.wTranspose v).yPart = fun j => store.changes j ⬝ᵥ coords v := by
  rw [wTranspose, Compact.yPart_ofParts, coords_ofFn]
  funext j
  exact dot_eq _ _

theorem coords_sPart_wTranspose (store : Store ℝ n cap) (v : Vector ℝ n) :
    coords (store.wTranspose v).sPart =
      fun j => store.theta * (store.steps j ⬝ᵥ coords v) := by
  rw [wTranspose, Compact.sPart_ofParts, coords_ofFn]
  funext j
  rw [dot_eq]
  rfl

theorem coords_applyForward_of_empty (h : store.isEmpty = true) (v : Vector ℝ n) :
    coords (store.applyForward v) = store.theta • coords v := by
  rw [applyForward, if_pos h, coords_map]
  funext i
  exact mul_comm _ _

theorem coords_applyForward (h : store.isEmpty = false) (v : Vector ℝ n) :
    coords (store.applyForward v) = store.theta • coords v -
      coords (store.wTimes (store.middleTimes (store.wTranspose v))) := by
  rw [applyForward, h]
  simp only [Bool.false_eq_true, if_false, coords_sub, coords_map]
  congr 1
  funext i
  exact mul_comm _ _

theorem Tabulated.pairs_eq_nil (hempty : store.isEmpty = true) : store.pairs = [] := by
  apply List.eq_nil_of_length_eq_zero
  rw [length_pairs]
  exact beq_iff_eq.mp hempty

theorem Consistent.applyForward_eq [ExactFactor ℝ] (h : store.Consistent) (v : Vector ℝ n) :
    coords (store.applyForward v) = store.dense *ᵥ coords v := by
  cases hempty : store.isEmpty with
  | true =>
    rw [coords_applyForward_of_empty hempty, dense, Tabulated.pairs_eq_nil hempty, List.map_nil,
      Bfgs.forward_nil, smul_mulVec, one_mulVec]
  | false =>
    have hpos : 0 < store.size := by
      rw [isEmpty, beq_eq_false_iff_ne] at hempty
      omega
    obtain ⟨f, hf, hgram⟩ := h.factor_eq hpos
    have hmid := h.middle_of_factor hf hgram (store.wTranspose v)
    rw [coords_yPart_wTranspose, coords_sPart_wTranspose] at hmid
    rw [coords_applyForward hempty, coords_wTimes, h.dense_eq_ofFn]
    exact (Bfgs.forward_mulVec_eq h.theta_pos h.curvature_pos hmid).symm

/-! ### Products with the inverse -/

omit [DenseSolver ℝ] in
theorem forward_mulVec_twoLoop {theta : ℝ} (htheta : 0 < theta) {cs : List (Correction ℝ n)}
    (h : ∀ c ∈ cs, Admissible c) (v : Vector ℝ n) :
    Bfgs.forward theta (cs.map pairOf) *ᵥ coords (twoLoop theta cs.reverse v) = coords v := by
  induction cs using List.reverseRecOn generalizing v with
  | nil =>
    simp only [List.map_nil, List.reverse_nil, twoLoop, coords_divide, Bfgs.forward_nil,
      smul_mulVec, one_mulVec]
    rw [smul_smul, mul_inv_cancel₀ (ne_of_gt htheta), one_smul]
  | append_singleton cs c ih =>
    have hcs : ∀ d ∈ cs, Admissible d := fun d hd => h d (List.mem_append_left _ hd)
    have hc : Admissible c := h c (List.mem_append_right _ (List.mem_singleton_self c))
    have hdef := Bfgs.posDef_forward htheta (curvature_pos_of_admissible hcs)
    have hpos := hc.dot_pos
    rw [dot_eq] at hpos
    rw [List.reverse_append, List.map_append, List.map_singleton, Bfgs.forward_append]
    simp only [List.reverse_singleton, List.singleton_append, twoLoop]
    have hrho : ∀ u w : Vector ℝ n,
        c.rho * dot u w = (coords u ⬝ᵥ coords w) / (coords c.s ⬝ᵥ coords c.y) := by
      intro u w
      rw [hc.rho_eq, dot_eq, dot_eq, div_mul_eq_mul_div, one_mul]
    have hr := ih hcs (addScaled v (-(c.rho * dot c.s v)) c.y)
    generalize twoLoop theta cs.reverse (addScaled v (-(c.rho * dot c.s v)) c.y) = inner at hr ⊢
    rw [coords_addScaled, neg_smul, ← sub_eq_add_neg, hrho] at hr
    rw [coords_addScaled, hrho, hrho]
    exact Bfgs.update_mulVec_solution hdef hpos hr

theorem Tabulated.dense_mulVec_applyInverse (h : store.Tabulated) (v : Vector ℝ n) :
    store.dense *ᵥ coords (store.applyInverse v) = coords v :=
  forward_mulVec_twoLoop h.theta_pos h.admissible v

omit [DenseSolver ℝ] in
theorem mulVec_injective_of_posDef {B : Matrix (Fin n) (Fin n) ℝ} (h : B.PosDef) :
    Function.Injective (B *ᵥ ·) := by
  intro u v huv
  have hsub : B *ᵥ (u - v) = 0 := by
    rw [mulVec_sub]
    exact sub_eq_zero.mpr huv
  by_contra hne
  have hpos := (posDef_iff_real.mp h).2 (u - v) (sub_ne_zero.mpr hne)
  rw [hsub, dotProduct_zero] at hpos
  exact lt_irrefl 0 hpos

theorem coords_applyInverse_empty (v : Vector ℝ n) :
    coords ((empty : Store ℝ n cap).applyInverse v) = coords v := by
  have hinverse : (empty : Store ℝ n cap).applyInverse v = divide v 1 := rfl
  rw [hinverse, coords_divide, inv_one, one_smul]

/-- The matrix takes the newest step to its change of the gradient. -/
theorem Tabulated.dense_mulVec_newest (h : store.Tabulated) {older : List (Correction ℝ n)}
    {c : Correction ℝ n} (hpairs : store.pairs = older ++ [c]) :
    store.dense *ᵥ coords c.s = coords c.y := by
  have hmem : ∀ d ∈ older ++ [c], Admissible d := by
    rw [← hpairs]
    exact h.admissible
  have holder : ∀ d ∈ older, Admissible d := fun d hd => hmem d (List.mem_append_left _ hd)
  have hdef := Bfgs.posDef_forward h.theta_pos (curvature_pos_of_admissible holder)
  have hpos := (hmem c (List.mem_append_right _ (List.mem_singleton_self c))).dot_pos
  rw [dot_eq] at hpos
  rw [dense, hpairs, List.map_append, List.map_singleton, Bfgs.forward_append]
  exact Bfgs.update_mulVec_step hdef hpos

theorem dense_of_single {s y : Vector ℝ n} (hpairs : store.pairs = [correction s y]) :
    store.dense = Bfgs.update (store.theta • 1) (coords s) (coords y) := by
  rw [dense, hpairs]
  rfl

/-- The inverse takes the newest change of the gradient back to its step. -/
theorem Tabulated.applyInverse_newest (h : store.Tabulated) {older : List (Correction ℝ n)}
    {c : Correction ℝ n} (hpairs : store.pairs = older ++ [c]) {v : Vector ℝ n} {a : ℝ}
    (hv : coords v = a • coords c.y) : coords (store.applyInverse v) = a • coords c.s := by
  apply mulVec_injective_of_posDef h.posDef_dense
  change store.dense *ᵥ _ = store.dense *ᵥ _
  rw [h.dense_mulVec_applyInverse, mulVec_smul, h.dense_mulVec_newest hpairs, hv]

section

variable [ExactFactor ℝ]

theorem Consistent.applyForward_inverse (h : store.Consistent) (v : Vector ℝ n) :
    store.applyForward (store.applyInverse v) = v := by
  apply coords_injective
  rw [h.applyForward_eq, h.dense_mulVec_applyInverse]

theorem Consistent.applyInverse_forward (h : store.Consistent) (v : Vector ℝ n) :
    store.applyInverse (store.applyForward v) = v := by
  apply coords_injective
  apply mulVec_injective_of_posDef h.posDef_dense
  change store.dense *ᵥ _ = store.dense *ᵥ _
  rw [h.dense_mulVec_applyInverse, h.applyForward_eq]

end

/-! ### Any run -/

variable [ExactFactor ℝ]

/-- After any operations the compact product is the product with the matrix of dense
updates, and those updates divide by positive numbers only. -/
theorem applyForward_eq_dense (hcap : 0 < cap) (ops : List (Operation ℝ n)) (v : Vector ℝ n) :
    let store : Store ℝ n cap := after ops
    coords (store.applyForward v) =
        Bfgs.forward store.theta (store.pairs.map pairOf) *ᵥ coords v ∧
      ∀ older c newer, store.pairs = older ++ c :: newer →
        0 < coords c.s ⬝ᵥ coords c.y ∧
          0 < coords c.s ⬝ᵥ Bfgs.forward store.theta (older.map pairOf) *ᵥ coords c.s := by
  intro store
  have h : store.Consistent := consistent_after hcap ops
  refine ⟨h.applyForward_eq v, ?_⟩
  intro older c newer hpairs
  have hmem : ∀ d ∈ older ++ c :: newer, Admissible d := by
    rw [← hpairs]
    exact h.admissible
  have hc := (hmem c (List.mem_append_right _ (List.mem_cons_self ..))).dot_pos
  have holder : ∀ d ∈ older, Admissible d := fun d hd => hmem d (List.mem_append_left _ hd)
  have hdef := Bfgs.posDef_forward h.theta_pos (curvature_pos_of_admissible holder)
  rw [dot_eq] at hc
  exact ⟨hc, (posDef_iff_real.mp hdef).2 _ (Bfgs.ne_zero_of_dotProduct_pos hc)⟩

omit [DenseSolver ℝ] [ExactFactor ℝ] in
/-- Two pairs are offered to a store with room for one. -/
theorem applyForward_eq_dense_after_eviction :
    let _ := DenseSolver.symmetric ℝ
    let store : Store ℝ 1 1 := after [.offer #v[1] #v[2], .offer #v[1] #v[3]]
    ExactFactor ℝ ∧ 0 < 1 ∧ store.pairs = [correction #v[1] #v[3]] ∧
      coords (store.applyForward #v[5]) =
        Bfgs.forward store.theta [(coords #v[1], coords #v[3])] *ᵥ coords #v[5] := by
  intro solver store
  have hexact : ExactFactor ℝ := exactFactor_symmetric
  have hcomplete : CompleteFactor := completeFactor_symmetric
  have hpairs : store.pairs = [correction #v[1] #v[3]] := by
    have hadmitted : admitted ([(#v[1], #v[2]), (#v[1], #v[3])].map fun p => .offer p.1 p.2) =
        [(#v[1], #v[2]), (#v[1], #v[3])] := by
      apply admitted_offers
      intro p hp
      simp only [List.mem_cons, List.not_mem_nil, or_false] at hp
      rcases hp with rfl | rfl
      · norm_num [dot, BoxDescent.sum, Fin.foldl_succ, Scalar.epsilon]
      · norm_num [dot, BoxDescent.sum, Fin.foldl_succ, Scalar.epsilon]
    have hafter := pairs_after Nat.one_pos
      ([(#v[1], #v[2]), (#v[1], #v[3])].map fun p => .offer p.1 p.2)
    rw [hadmitted] at hafter
    exact hafter
  obtain ⟨hforward, -⟩ := applyForward_eq_dense Nat.one_pos
    [.offer #v[1] #v[2], .offer #v[1] #v[3]] #v[5]
  refine ⟨hexact, Nat.one_pos, hpairs, ?_⟩
  change coords (store.applyForward #v[5]) =
    Bfgs.forward store.theta (store.pairs.map pairOf) *ᵥ coords #v[5] at hforward
  rw [hforward, hpairs]
  rfl

/-- After any operations the two products undo each other. -/
theorem applyForward_applyInverse (hcap : 0 < cap) (ops : List (Operation ℝ n))
    (v : Vector ℝ n) :
    let store : Store ℝ n cap := after ops
    store.applyForward (store.applyInverse v) = v ∧
      store.applyInverse (store.applyForward v) = v := by
  intro store
  have h : store.Consistent := consistent_after hcap ops
  exact ⟨h.applyForward_inverse v, h.applyInverse_forward v⟩

omit [DenseSolver ℝ] [ExactFactor ℝ] in
theorem applyForward_applyInverse_after_clear :
    let _ := DenseSolver.symmetric ℝ
    let store : Store ℝ 2 1 :=
      after [.offer #v[1, 0] #v[2, 1], .clear, .offer #v[0, 1] #v[1, 3], .offer #v[1, 1] #v[1, 1]]
    ExactFactor ℝ ∧ 0 < 1 ∧ store.applyForward (store.applyInverse #v[5, 7]) = #v[5, 7] ∧
      store.applyInverse (store.applyForward #v[5, 7]) = #v[5, 7] := by
  intro solver store
  have hexact : ExactFactor ℝ := exactFactor_symmetric
  exact ⟨hexact, Nat.one_pos, applyForward_applyInverse Nat.one_pos _ #v[5, 7]⟩

end Store

end BoxDescent
