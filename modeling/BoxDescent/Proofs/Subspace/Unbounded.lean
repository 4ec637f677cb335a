import BoxDescent.Proofs.Subspace.Descent

/-!
# The subspace step without bounds

Without bounds every variable is free at the Cauchy point and nothing cuts the step.  So it
leads to the minimizer of the model among all points, wherever the Cauchy point is, and its
direction is the one that the pairs give by themselves.
-/

namespace BoxDescent

open Matrix

variable {n cap : Nat}

namespace Box

section

variable {α : Type} [Scalar α]

theorem eq_unbounded {box : Box α n} (h : ∀ i, box.kind i = .unbounded) : box = .unbounded n := by
  have hkinds : box.kinds = (unbounded n : Box α n).kinds := by
    apply Vector.ext
    intro i hi
    have hright : (unbounded n : Box α n).kinds[i] = .unbounded := kind_unbounded ⟨i, hi⟩
    rw [hright]
    exact h ⟨i, hi⟩
  cases box
  cases hkinds
  rfl

theorem isConstrained_unbounded : (unbounded n : Box α n).isConstrained = false := by
  unfold isConstrained
  rw [Vector.any_eq_false]
  intro i hi hbounded
  have hkind : (unbounded n : Box α n).kinds[i] = .unbounded := kind_unbounded ⟨i, hi⟩
  rw [hkind] at hbounded
  cases hbounded

theorem isBoxed_unbounded (hn : 0 < n) : (unbounded n : Box α n).isBoxed = false := by
  unfold isBoxed
  rw [Vector.all_eq_false]
  have hkind : (unbounded n : Box α n).kinds[0] = .unbounded := kind_unbounded ⟨0, hn⟩
  refine ⟨0, hn, ?_⟩
  rw [hkind]
  exact Bool.false_ne_true

theorem project_unbounded (x : Vector α n) : (unbounded n : Box α n).project x = x := by
  apply Vector.ext
  intro i hi
  have hentry := getElem_project (unbounded n : Box α n) x ⟨i, hi⟩
  rw [kind_unbounded] at hentry
  exact hentry

end

end Box

variable [DenseSolver ℝ] {store : Store ℝ n cap} {x g : Vector ℝ n}

namespace CauchySearch

theorem active_unbounded : (of (.unbounded n) store x g).active = [] := by
  have hnone : (List.finRange n).filter (fun i => (Path.of (.unbounded n) x g).held[i]) = [] := by
    apply List.filter_eq_nil_iff.mpr
    intro i _
    rw [Path.held_unbounded]
    exact Bool.false_ne_true
  by_cases hg : coords g = 0
  · rw [of_eq_atRest (Path.velocity_unbounded_eq_zero_iff.mpr hg)]
    exact hnone
  · rw [of_unbounded hg]
    exact hnone

theorem segments_unbounded : (of (.unbounded n) store x g).segments = 0 := by
  by_cases hg : coords g = 0
  · rw [of_eq_atRest (Path.velocity_unbounded_eq_zero_iff.mpr hg)]
    rfl
  · rw [of_unbounded hg]
    rfl

end CauchySearch

namespace SubspaceStep

/-! ### The direction -/

variable [ExactFactor ℝ] (hstore : store.Consistent)

include hstore

theorem gradient_xbar_unbounded :
    let cp := (CauchySearch.of (.unbounded n) store x g).toCauchyPoint
    Solves store cp.free (reducedGradient store x g cp) →
      coords g + store.dense *ᵥ coords ((of (.unbounded n) store x g cp).direction x) = 0 := by
  intro cp hsolves
  have hx : (Box.unbounded n).contains x = true := Box.contains_unbounded x
  have hc : cp.c = store.wTranspose (cp.xc - x) := CauchySearch.c_eq hstore hx
  have hnodup : cp.free.Nodup := CauchySearch.nodup_free _ store x g
  have hall : ∀ i, i ∈ cp.free := by
    intro i
    have hfree : cp.free = List.finRange n := CauchySearch.free_unbounded
    rw [hfree]
    exact List.mem_finRange i
  funext i
  have hfree : cp.free ≠ [] := List.ne_nil_of_mem (hall i)
  have hfallback : (of (.unbounded n) store x g cp).fallback = false := hsolves.fallback_eq
  obtain ⟨du, hdu⟩ := exists_newton? hfree hfallback
  obtain ⟨alpha, hit, hcut, htruncated, hxbar⟩ :=
    coords_xbar (Box.contains_unbounded cp.xc) hnodup hfree (x := x) (g := g)
  -- no limit cuts the step
  have hhit : hit = none := Option.map_eq_none_iff.mp (htruncated.symm.trans truncatedAt_unbounded)
  rw [hcut.eq_one hhit, one_smul, uncut_of_newton? hdu] at hxbar
  have hway : coords ((of (.unbounded n) store x g cp).direction x) =
      coords (cp.xc - x) + coords (scatter cp.free du) := by
    rw [direction, coords_sub, coords_sub, hxbar]
    abel
  rw [hway]
  exact gradient_eq_zero hstore hnodup hc hsolves.solvedExactly hdu (hall i)

/-- The Cauchy point has no part in the direction. -/
theorem direction_unbounded :
    let cp := (CauchySearch.of (.unbounded n) store x g).toCauchyPoint
    Solves store cp.free (reducedGradient store x g cp) →
      (of (.unbounded n) store x g cp).direction x = -(store.applyInverse g) := by
  intro cp hsolves
  have hgradient := gradient_xbar_unbounded hstore hsolves
  have hinverse := hstore.dense_mulVec_applyInverse g
  apply coords_injective
  apply Store.mulVec_injective_of_posDef hstore.posDef_dense
  change store.dense *ᵥ _ = store.dense *ᵥ coords (-(store.applyInverse g))
  rw [coords_neg, mulVec_neg, hinverse]
  exact eq_neg_of_add_eq_zero_right hgradient

end SubspaceStep

end BoxDescent
