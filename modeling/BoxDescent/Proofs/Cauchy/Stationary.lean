import BoxDescent.Proofs.Cauchy.Segments
import BoxDescent.Proofs.Linear.Norms
import BoxDescent.Proofs.Reach

/-!
# Stationary points

The projected gradient at a point `x` of the box is the way back to `x` from the projection of
`x - g`.  It is zero exactly where no point of the box lies downhill from `x`, and there alone
the path of the Cauchy search does not move.

Projection is the clamp of every coordinate, and no admitted value lies beyond the clamped one:

    (c - clamp c) * (z - clamp c) ≤ 0    for every admitted z.

With `c = x - g` and summed over the coordinates, `z = x` shows that the gradient has no smaller
product with the projected gradient than that has with itself.
-/

namespace BoxDescent

open Matrix

namespace Bound

variable {b : Bound ℝ} {a z : ℝ}

theorem clamp_obtuse (hb : b.Valid) (hz : b.Admits z) (c : ℝ) :
    (c - b.clamp c) * (z - b.clamp c) ≤ 0 := by
  by_cases hl : ∀ l ∈ b.lower?, l ≤ c
  · by_cases hu : ∀ u ∈ b.upper?, c ≤ u
    · rw [clamp_of_admits ⟨hl, hu⟩, sub_self, zero_mul]
    · push Not at hu
      obtain ⟨u, hmem, hlt⟩ := hu
      rw [clamp_of_upper_le hb hmem (le_of_lt hlt)]
      exact mul_nonpos_of_nonneg_of_nonpos (sub_nonneg.mpr (le_of_lt hlt))
        (sub_nonpos.mpr (hz.upper u hmem))
  · push Not at hl
    obtain ⟨l, hmem, hlt⟩ := hl
    rw [clamp_of_le_lower hb hmem (le_of_lt hlt)]
    exact mul_nonpos_of_nonpos_of_nonneg (sub_nonpos.mpr (le_of_lt hlt))
      (sub_nonneg.mpr (hz.lower l hmem))

theorem clipSlope_obtuse (hb : b.Valid) (ha : b.Admits a) (hz : b.Admits z) (g : ℝ) :
    (b.clipSlope a g - g) * (z - a + b.clipSlope a g) ≤ 0 := by
  have hobtuse := clamp_obtuse hb hz (a - g)
  have hclamp : b.clamp (a - g) = a - b.clipSlope a g := by
    rw [clipSlope_eq hb ha, sub_sub_cancel]
  rw [hclamp] at hobtuse
  have hleft : a - g - (a - b.clipSlope a g) = b.clipSlope a g - g := by ring
  have hright : z - (a - b.clipSlope a g) = z - a + b.clipSlope a g := by ring
  rwa [hleft, hright] at hobtuse

end Bound

namespace Box

variable {n : Nat} {box : Box ℝ n} {x g z : Vector ℝ n}

theorem projectedGradient_eq (hx : box.contains x = true) (g : Vector ℝ n) :
    box.projectedGradient x g = x - box.project (x - g) := by
  apply coords_injective
  funext i
  rw [coords_sub, Pi.sub_apply, coords_apply, coords_apply, coords_apply,
    getElem_projectedGradient, getElem_project,
    Bound.clipSlope_eq (box.kind_valid i) (contains_iff.mp hx i), ← coords_apply (x - g),
    coords_sub]
  rfl

theorem projectedGradientNorm_eq_zero_iff :
    box.projectedGradientNorm x g = 0 ↔ box.projectedGradient x g = Vector.replicate n 0 := by
  rw [projectedGradientNorm, maxAbs_eq_zero_iff, coords_eq_zero_iff]

theorem dot_nonneg_of_projectedGradient_eq (hx : box.contains x = true)
    (hz : box.contains z = true) (h : box.projectedGradient x g = Vector.replicate n 0) :
    0 ≤ dot g (z - x) := by
  rw [dot_eq]
  apply Finset.sum_nonneg
  intro i _
  have hi : (box.kind i).clipSlope x[i] g[i] = 0 := by
    rw [← getElem_projectedGradient]
    exact congrFun (coords_eq_zero_iff.mpr h) i
  have hobtuse := Bound.clipSlope_obtuse (box.kind_valid i) (contains_iff.mp hx i)
    (contains_iff.mp hz i) g[i]
  rw [hi] at hobtuse
  rw [coords_sub, Pi.sub_apply, coords_apply, coords_apply, coords_apply]
  linarith

theorem dot_projectedGradient_le (hx : box.contains x = true) (g : Vector ℝ n) :
    dot (box.projectedGradient x g) (box.projectedGradient x g) ≤
      dot g (box.projectedGradient x g) := by
  rw [dot_eq, dot_eq]
  apply Finset.sum_le_sum
  intro i _
  have hadmits := contains_iff.mp hx i
  have hobtuse := Bound.clipSlope_obtuse (box.kind_valid i) hadmits hadmits g[i]
  rw [sub_self, zero_add] at hobtuse
  rw [coords_apply, coords_apply, getElem_projectedGradient]
  linarith

/-- The projection of `x - g` lies downhill, unless it is `x` itself. -/
theorem projectedGradient_eq_zero_iff_forall (hx : box.contains x = true) :
    box.projectedGradient x g = Vector.replicate n 0 ↔
      ∀ z, box.contains z = true → 0 ≤ dot g (z - x) := by
  constructor
  · intro h z hz
    exact dot_nonneg_of_projectedGradient_eq hx hz h
  · intro h
    have hway : box.project (x - g) - x = -box.projectedGradient x g := by
      apply coords_injective
      rw [projectedGradient_eq hx, coords_neg, coords_sub, coords_sub, neg_sub]
    have hdown := h _ (contains_project (x - g))
    have hlong := dot_projectedGradient_le hx g
    rw [hway, dot_eq, coords_neg, dotProduct_neg, ← dot_eq] at hdown
    rw [← coords_eq_zero_iff, ← dot_self_eq_zero]
    exact le_antisymm (by linarith) (dot_self_nonneg _)

end Box

/-! ### The start of the search -/

theorem Path.exists_moving_iff {n : Nat} {box : Box ℝ n} {x g : Vector ℝ n}
    (hx : box.contains x = true) :
    (∃ i, departure box x g i = .moving) ↔ coords (of box x g).velocity ≠ 0 := by
  rw [Ne, funext_iff, not_forall]
  apply exists_congr
  intro i
  have hi := not_congr (velocity_eq_zero_iff hx (g := g) i)
  rw [not_not] at hi
  exact hi.symm

theorem CauchySearch.moved_iff [DenseSolver ℝ] {n cap : Nat} (box : Box ℝ n)
    (store : Store ℝ n cap) (x g : Vector ℝ n) :
    (of box store x g).moved = true ↔ coords (Path.of box x g).velocity ≠ 0 := by
  by_cases hv : coords (Path.of box x g).velocity = 0
  · rw [of_eq_atRest hv]
    exact ⟨fun h => (nomatch h), fun h => absurd hv h⟩
  · rw [of_eq_ofWalk hv]
    exact ⟨fun _ => hv, fun _ => rfl⟩

namespace Box

/-- The projected gradient measures how far `x` is from being stationary, and the search starts
to move a variable unless it is. -/
theorem projectedGradient_measures_stationarity [DenseSolver ℝ] {n cap : Nat} (box : Box ℝ n)
    (store : Store ℝ n cap) (x g : Vector ℝ n) (hx : box.contains x = true) :
    box.projectedGradient x g = x - box.project (x - g) ∧
      (box.projectedGradientNorm x g = 0 ↔
        ∀ z, box.contains z = true → 0 ≤ dot g (z - x)) ∧
      ((∃ i, Departure.of (box.kind i) x[i] (-g[i]) = .moving) ↔
        box.projectedGradientNorm x g ≠ 0) ∧
      ((CauchySearch.of box store x g).moved = true ↔ box.projectedGradientNorm x g ≠ 0) := by
  have hmoves : coords (Path.of box x g).velocity ≠ 0 ↔ box.projectedGradientNorm x g ≠ 0 := by
    rw [Ne, Ne, projectedGradientNorm_eq_zero_iff, Path.projectedGradient_eq_iff hx]
  refine ⟨projectedGradient_eq hx g, ?_, ?_, ?_⟩
  · rw [projectedGradientNorm_eq_zero_iff]
    exact projectedGradient_eq_zero_iff_forall hx
  · exact (Path.exists_moving_iff hx).trans hmoves
  · exact (CauchySearch.moved_iff box store x g).trans hmoves

/-- At the corner itself, once with the gradient pushing against both limits, once with the
first variable free to move. -/
theorem projectedGradient_measures_stationarity_in_corner :
    let _ := DenseSolver.symmetric ℝ
    let store : Store ℝ 2 1 := Store.empty
    let x : Vector ℝ 2 := #v[2, 0]
    corner.contains x = true ∧
      corner.projectedGradientNorm x #v[-1, 3] = 0 ∧
      (∀ z, corner.contains z = true → 0 ≤ dot #v[-1, 3] (z - x)) ∧
      (CauchySearch.of corner store x #v[-1, 3]).moved = false ∧
      corner.projectedGradientNorm x #v[1, 3] ≠ 0 ∧
      (∃ i, Departure.of (corner.kind i) x[i] (-(#v[1, 3] : Vector ℝ 2)[i]) = .moving) ∧
      (CauchySearch.of corner store x #v[1, 3]).moved = true := by
  intro solver store x
  have hx : corner.contains x = true := contains_corner le_rfl le_rfl
  have hrest : corner.projectedGradientNorm x #v[-1, 3] = 0 := by
    rw [projectedGradientNorm_eq_zero_iff, ← coords_eq_zero_iff, funext_iff, Fin.forall_fin_two,
      coords_apply, coords_apply, getElem_projectedGradient, getElem_projectedGradient,
      kind_corner_zero, kind_corner_one]
    constructor
    · change (Bound.atMost (2 : ℝ)).clipSlope 2 (-1) = 0
      norm_num [Bound.clipSlope, Bound.upper?, Scalar.larger_real]
    · change (Bound.atLeast (0 : ℝ)).clipSlope 0 3 = 0
      norm_num [Bound.clipSlope, Bound.lower?, Scalar.smaller_real]
  have hleave : corner.projectedGradientNorm x #v[1, 3] ≠ 0 := by
    rw [Ne, projectedGradientNorm_eq_zero_iff, ← coords_eq_zero_iff]
    intro hzero
    have hfirst : (corner.kind 0).clipSlope 2 1 = 0 :=
      (getElem_projectedGradient corner x #v[1, 3] 0).symm.trans (congrFun hzero 0)
    rw [kind_corner_zero] at hfirst
    norm_num [Bound.clipSlope, Bound.lower?] at hfirst
  obtain ⟨-, hdown, -, hstays⟩ :=
    projectedGradient_measures_stationarity corner store x #v[-1, 3] hx
  obtain ⟨-, -, hmoving, hmoves⟩ :=
    projectedGradient_measures_stationarity corner store x #v[1, 3] hx
  have hunmoved : (CauchySearch.of corner store x #v[-1, 3]).moved = false := by
    rw [Bool.eq_false_iff]
    exact fun hmoved => hstays.mp hmoved hrest
  exact ⟨hx, hrest, hdown.mp hrest, hunmoved, hleave, hmoving.mpr hleave, hmoves.mpr hleave⟩

end Box

end BoxDescent
