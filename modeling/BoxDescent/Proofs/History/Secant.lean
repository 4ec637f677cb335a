import BoxDescent.Proofs.History.Forward

/-!
# The products of a store as linear maps

In exact arithmetic the two products are linear, symmetric and positive definite, whatever has
been offered to the store and whenever it was cleared; and they take the newest step to its
change of the gradient, and that back.
-/

namespace BoxDescent

open Matrix

variable {n : Nat}

/-! ### Definite maps -/

/-- The map is linear, symmetric, and positive on every vector but zero. -/
structure IsDefinite (f : Vector ℝ n → Vector ℝ n) : Prop where
  map_addScaled : ∀ u a v, f (addScaled u a v) = addScaled (f u) a (f v)
  symmetric : ∀ u v, dot u (f v) = dot (f u) v
  positive : ∀ v, v ≠ Vector.replicate n 0 → 0 < dot v (f v)

theorem isDefinite_of_posDef {B : Matrix (Fin n) (Fin n) ℝ} (hB : B.PosDef)
    {f : Vector ℝ n → Vector ℝ n} (hf : ∀ v, coords (f v) = B *ᵥ coords v) : IsDefinite f := by
  obtain ⟨hsymm, hpos⟩ := posDef_iff_real.mp hB
  refine ⟨?_, ?_, ?_⟩
  · intro u a v
    apply coords_injective
    rw [hf, coords_addScaled, coords_addScaled, hf, hf, mulVec_add, mulVec_smul]
  · intro u v
    rw [dot_eq, dot_eq, hf, hf, dotProduct_mulVec_symm hsymm]
  · intro v hv
    rw [dot_eq, hf]
    apply hpos
    intro hzero
    exact hv (coords_eq_zero_iff.mp hzero)

theorem IsDefinite.map_zero {f : Vector ℝ n → Vector ℝ n} (h : IsDefinite f) :
    f (Vector.replicate n 0) = Vector.replicate n 0 := by
  have hself : ∀ v : Vector ℝ n, addScaled v (-1) v = Vector.replicate n 0 := by
    intro v
    rw [← coords_eq_zero_iff, coords_addScaled, neg_smul, one_smul, add_neg_cancel]
  have hmap := h.map_addScaled (Vector.replicate n 0) (-1) (Vector.replicate n 0)
  rwa [hself, hself] at hmap

/-- The inverse of a definite map is definite. -/
theorem IsDefinite.inverse {f g : Vector ℝ n → Vector ℝ n} (h : IsDefinite f)
    (hfg : ∀ v, f (g v) = v) (hgf : ∀ v, g (f v) = v) : IsDefinite g where
  map_addScaled u a v := by
    have hsum : addScaled u a v = f (addScaled (g u) a (g v)) := by
      rw [h.map_addScaled, hfg, hfg]
    rw [hsum, hgf]
  symmetric u v := by
    calc dot u (g v) = dot (f (g u)) (g v) := by rw [hfg]
      _ = dot (g u) (f (g v)) := (h.symmetric _ _).symm
      _ = dot (g u) v := by rw [hfg]
  positive v hv := by
    have hne : g v ≠ Vector.replicate n 0 := by
      intro hzero
      apply hv
      rw [← hfg v, hzero, h.map_zero]
    have hpos := h.positive (g v) hne
    rw [hfg, dot_eq, dotProduct_comm, ← dot_eq] at hpos
    exact hpos

namespace Store

variable [DenseSolver ℝ] {cap : Nat} {store : Store ℝ n cap}

theorem Tabulated.pairs_eq_append (h : store.Tabulated) {i : Fin store.size}
    (hi : i.val + 1 = store.size) : ∃ older, store.pairs = older ++ [store.pair i] := by
  have hlength : store.pairs.length = i.val + 1 := store.length_pairs.trans hi.symm
  rw [← List.getLast?_eq_some_iff, List.getLast?_eq_getElem?, hlength, Nat.add_sub_cancel,
    ← h.ofFn_pair, List.getElem?_ofFn, dif_pos i.isLt]

/-! ### Any run -/

/-- After any operations both products are linear, symmetric and positive definite, and both
satisfy the secant equation of the newest pair. -/
theorem definite_and_secant [ExactFactor ℝ] (hcap : 0 < cap) (ops : List (Operation ℝ n)) :
    let store : Store ℝ n cap := after ops
    IsDefinite store.applyForward ∧ IsDefinite store.applyInverse ∧
      ∀ i : Fin store.size, i.val + 1 = store.size →
        store.applyForward (store.pair i).s = (store.pair i).y ∧
          store.applyInverse (store.pair i).y = (store.pair i).s := by
  intro store
  have h : store.Consistent := consistent_after hcap ops
  have hforward := isDefinite_of_posDef h.posDef_dense h.applyForward_eq
  refine ⟨hforward, hforward.inverse h.applyForward_inverse h.applyInverse_forward, ?_⟩
  intro i hi
  obtain ⟨older, hpairs⟩ := h.pairs_eq_append hi
  have hsecant : store.applyForward (store.pair i).s = (store.pair i).y := by
    apply coords_injective
    rw [h.applyForward_eq, h.dense_mulVec_newest hpairs]
  refine ⟨hsecant, ?_⟩
  rw [← hsecant, h.applyInverse_forward]

omit [DenseSolver ℝ] in
/-- Three pairs are offered to a store with room for two, which was cleared before. -/
theorem definite_and_secant_after_eviction :
    let _ := DenseSolver.symmetric ℝ
    let store : Store ℝ 2 2 :=
      after [.offer #v[3, 4] #v[4, 3], .clear, .offer #v[1, 0] #v[1, 0],
        .offer #v[0, 1] #v[0, 2], .offer #v[1, 1] #v[2, 1]]
    ExactFactor ℝ ∧ 0 < 2 ∧ store.size = 2 ∧ store.applyForward #v[1, 1] = #v[2, 1] ∧
      store.applyInverse #v[2, 1] = #v[1, 1] ∧
        0 < dot #v[1, -1] (store.applyForward #v[1, -1]) ∧
          0 < dot #v[1, -1] (store.applyInverse #v[1, -1]) := by
  intro solver store
  have hexact : ExactFactor ℝ := exactFactor_symmetric
  have hcomplete : CompleteFactor := completeFactor_symmetric
  have hpairs : store.pairs = [correction #v[0, 1] #v[0, 2], correction #v[1, 1] #v[2, 1]] := by
    let kept : List (Vector ℝ 2 × Vector ℝ 2) :=
      [(#v[1, 0], #v[1, 0]), (#v[0, 1], #v[0, 2]), (#v[1, 1], #v[2, 1])]
    have hcurvature : ∀ p ∈ kept, Scalar.epsilon * dot p.2 p.2 < dot p.1 p.2 := by
      intro p hp
      simp only [kept, List.mem_cons, List.not_mem_nil, or_false] at hp
      rcases hp with rfl | rfl | rfl <;>
        norm_num [dot, BoxDescent.sum, Fin.foldl_succ, Scalar.epsilon]
    have hcleared : store = after (kept.map fun p => .offer p.1 p.2) :=
      after_clear [.offer #v[3, 4] #v[4, 3]] _
    rw [hcleared, pairs_after Nat.two_pos, admitted_offers hcurvature]
    rfl
  have hsize : store.size = 2 := by
    rw [← store.length_pairs, hpairs]
    rfl
  obtain ⟨hforward, hinverse, hsecant⟩ := definite_and_secant Nat.two_pos
    [.offer #v[3, 4] #v[4, 3], .clear, .offer #v[1, 0] #v[1, 0], .offer #v[0, 1] #v[0, 2],
      .offer #v[1, 1] #v[2, 1]]
  let last : Fin store.size := ⟨1, by omega⟩
  have hlast : store.pair last = correction #v[1, 1] #v[2, 1] := by
    have hstore : store.Consistent := consistent_after Nat.two_pos _
    obtain ⟨older, holder⟩ := hstore.pairs_eq_append (i := last) hsize.symm
    have hnewest : store.pairs.getLast? = some (store.pair last) := by
      rw [holder, List.getLast?_concat]
    rw [hpairs] at hnewest
    exact (Option.some.inj hnewest).symm
  have hne : (#v[1, -1] : Vector ℝ 2) ≠ Vector.replicate 2 0 := by
    intro hzero
    exact one_ne_zero (congrFun (congrArg coords hzero) 0)
  have hnewest := hsecant last hsize.symm
  change store.applyForward (store.pair last).s = _ ∧ store.applyInverse (store.pair last).y = _
    at hnewest
  rw [hlast] at hnewest
  exact ⟨hexact, Nat.two_pos, hsize, hnewest.1, hnewest.2, hforward.positive _ hne,
    hinverse.positive _ hne⟩

end Store

end BoxDescent
