import BoxDescent.Proofs.Subspace.Step

/-!
# Descent

The model falls on the way from the start to the Cauchy point and does not rise from there
to the end point of the step, however far the step is cut.  Since it is convex, the direction
to the end point leads downhill.
-/

namespace BoxDescent

open Matrix

variable [DenseSolver ℝ] {n cap : Nat} {store : Store ℝ n cap} {box : Box ℝ n}
  {x g : Vector ℝ n}

namespace CauchySearch

variable [ExactFactor ℝ] (hstore : store.Consistent)

include hstore

theorem modelChange_start : modelChange store x g x = 0 := by
  rw [modelChange_eq hstore, coords_sub, sub_self, Model.value_zero]

theorem modelChange_xc_lt (hx : box.contains x = true)
    (hgrad : box.projectedGradient x g ≠ Vector.replicate n 0) :
    modelChange store x g (of box store x g).xc < modelChange store x g x := by
  have hv : coords (Path.of box x g).velocity ≠ 0 := fun hzero =>
    hgrad ((Path.projectedGradient_eq_iff hx).mpr hzero)
  have hends := ends_of hstore hx hv
  have hlt := hends.decreasing ⟨le_refl 0, le_of_lt hends.time_pos⟩
    ⟨le_of_lt hends.time_pos, le_refl _⟩ hends.time_pos
  rw [← modelChange_descend hstore, ← modelChange_descend hstore, ← hends.xc_eq,
    Box.descend_zero hx] at hlt
  exact hlt

end CauchySearch

namespace SubspaceStep

open CauchySearch (modelChange modelChange_eq modelChange_start modelChange_xc_lt)

variable [ExactFactor ℝ] (hstore : store.Consistent)

include hstore

/-- Along the step, cut or not, the model does not rise. -/
theorem modelChange_xbar_le {cp : CauchyPoint ℝ n store.size}
    (hxc : box.contains cp.xc = true) (hnodup : cp.free.Nodup)
    (hc : cp.c = store.wTranspose (cp.xc - x))
    (hfallback : (of box store x g cp).fallback = false)
    (hexact : SolvedExactly store cp.free (reducedGradient store x g cp)) :
    modelChange store x g (of box store x g cp).xbar ≤ modelChange store x g cp.xc := by
  by_cases hfree : cp.free = []
  · have hstay : (of box store x g cp).xbar = cp.xc := by
      rw [of_of_free_eq_nil hfree]
    rw [hstay]
  obtain ⟨du, hdu⟩ := exists_newton? hfree hfallback
  obtain ⟨alpha, hit, hcut, -, hxbar⟩ := coords_xbar hxc hnodup hfree (x := x) (g := g)
  rw [uncut_of_newton? hdu] at hcut hxbar
  have hway : coords ((of box store x g cp).xbar - x) =
      coords (cp.xc - x) + alpha • coords (scatter cp.free du) := by
    rw [coords_sub, coords_sub, hxbar]
    abel
  rw [modelChange_eq hstore, modelChange_eq hstore, hway]
  exact Model.value_add_smul_le hstore.posDef_dense
    (slope_newton hstore hnodup hc hexact hdu) hcut.nonneg hcut.le_one

theorem dot_direction_neg {step : SubspaceStep ℝ n}
    (hlow : modelChange store x g step.xbar < modelChange store x g x) :
    dot g (step.direction x) < 0 := by
  rw [modelChange_start hstore, modelChange_eq hstore] at hlow
  rw [dot_eq]
  exact Model.dotProduct_neg_of_value_neg hstore.posDef_dense hlow

theorem descends (hx : box.contains x = true)
    (hgrad : box.projectedGradient x g ≠ Vector.replicate n 0) :
    let cp := (CauchySearch.of box store x g).toCauchyPoint
    let step := of box store x g cp
    step.fallback = false → SolvedExactly store cp.free (reducedGradient store x g cp) →
      modelChange store x g step.xbar ≤ modelChange store x g cp.xc ∧
        modelChange store x g cp.xc < modelChange store x g x ∧
        dot g (step.direction x) < 0 := by
  intro cp step hfallback hexact
  have hle : modelChange store x g step.xbar ≤ modelChange store x g cp.xc :=
    modelChange_xbar_le hstore (CauchySearch.contains_xc hx store g)
      (CauchySearch.nodup_free box store x g) (CauchySearch.c_eq hstore hx) hfallback hexact
  have hlt := modelChange_xc_lt hstore hx hgrad
  exact ⟨hle, hlt, dot_direction_neg hstore (lt_of_le_of_lt hle hlt)⟩

end SubspaceStep

end BoxDescent
