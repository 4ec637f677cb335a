import BoxDescent.Proofs.Cauchy.Point

/-!
# The Cauchy point without bounds

Without bounds the path is the ray against the gradient.  No variable is held on it, and the
search ends where the model has its minimum along the ray.
-/

namespace BoxDescent

open Matrix

variable {n : Nat}

theorem Box.projectedGradient_unbounded (x g : Vector ℝ n) :
    (Box.unbounded n).projectedGradient x g = g := by
  apply coords_injective
  funext i
  rw [coords_apply, Box.getElem_projectedGradient, Box.kind_unbounded]
  unfold Bound.clipSlope
  split <;> rfl

namespace Path

variable {x g : Vector ℝ n}

theorem departure_unbounded (i : Fin n) :
    departure (.unbounded n) x g i = if -g[i] = 0 then .stationary else .moving := by
  rw [departure, Box.kind_unbounded]
  by_cases hg : -g[i] = 0
  · rw [if_pos hg]
    exact if_pos (decide_eq_true hg)
  · rw [if_neg hg]
    exact if_neg fun h => hg (of_decide_eq_true h)

theorem held_unbounded (i : Fin n) : (of (.unbounded n) x g).held[i] = false := by
  rw [getElem_held, departure_unbounded]
  split <;> rfl

theorem velocity_unbounded : coords (of (.unbounded n) x g).velocity = -coords g := by
  funext i
  rw [coords_apply, getElem_velocity, departure_unbounded, Pi.neg_apply, coords_apply]
  by_cases hg : -g[i] = 0
  · rw [if_pos hg, if_neg Departure.noConfusion, hg]
  · rw [if_neg hg, if_pos rfl]

theorem velocity_unbounded_eq_zero_iff :
    coords (of (.unbounded n) x g).velocity = 0 ↔ coords g = 0 := by
  rw [velocity_unbounded, neg_eq_zero]

end Path

namespace CauchySearch

variable [DenseSolver ℝ] {cap : Nat} {store : Store ℝ n cap} {x g : Vector ℝ n}

/-- The walk ends on its first segment. -/
theorem of_unbounded (hg : coords g ≠ 0) :
    of (.unbounded n) store x g =
      ofWalk (.unbounded n) store (Path.of (.unbounded n) x g)
        (Walk.begin store (Path.of (.unbounded n) x g)) false := by
  have hv : coords (Path.of (.unbounded n) x g).velocity ≠ 0 :=
    Path.velocity_unbounded_eq_zero_iff.not.mpr hg
  rw [of_eq_ofWalk hv, Path.breakpoints_unbounded]
  rfl

theorem free_unbounded : (of (.unbounded n) store x g).free = List.finRange n := by
  have hall : (List.finRange n).filter (fun i => !(Path.of (.unbounded n) x g).held[i]) =
      List.finRange n := by
    apply List.filter_eq_self.mpr
    intro i _
    rw [Path.held_unbounded]
    rfl
  by_cases hg : coords g = 0
  · rw [of_eq_atRest (Path.velocity_unbounded_eq_zero_iff.mpr hg)]
    exact hall
  · rw [of_unbounded hg]
    exact hall

/-- At the Cauchy point the gradient of the model is orthogonal to the ray. -/
theorem gradient_orthogonal_unbounded [ExactFactor ℝ] (hstore : store.Consistent) :
    coords g ⬝ᵥ (coords g + store.dense *ᵥ
      coords ((of (.unbounded n) store x g).xc - x)) = 0 := by
  by_cases hg : coords g = 0
  · rw [hg, zero_dotProduct]
  have hx : (Box.unbounded n).contains x = true := Box.contains_unbounded x
  have hv : coords (Path.of (.unbounded n) x g).velocity ≠ 0 :=
    Path.velocity_unbounded_eq_zero_iff.not.mpr hg
  have htracks := Walk.tracks_begin hx hstore hv
  rw [Path.breakpoints_unbounded] at htracks
  set w := Walk.begin store (Path.of (.unbounded n) x g) with hw
  have hahead : 0 < w.ahead := by
    rcases htracks.progress with hpos | hpos
    · exact absurd hpos (lt_irrefl 0)
    · exact hpos
  have htime : (of (.unbounded n) store x g).time = w.minimizer := by
    rw [of_unbounded hg]
    change 0 + Scalar.larger w.ahead 0 = w.minimizer
    rw [Scalar.larger_real, max_eq_left (le_of_lt hahead), zero_add]
    rfl
  have hslope : Walk.trueSlope (.unbounded n) x g w w.minimizer = 0 := by
    have hle : w.reached ≤ w.minimizer := le_of_lt hahead
    have hbefore : ∀ b ∈ ([] : List (Breakpoint ℝ n)), w.minimizer ≤ b.time := fun b hb => by
      cases hb
    have hreached : w.minimizer - w.reached = w.minimizer := sub_zero _
    rw [htracks.on.trueSlope_eq hx hle hbefore, ← htracks.slope_eq rfl, ← htracks.curvature_eq rfl,
      hreached]
    exact htracks.slope_minimizer
  have hvelocity : coords w.velocity = -coords g := Path.velocity_unbounded
  rw [Walk.trueSlope, Model.slope, hvelocity, neg_dotProduct, neg_eq_zero] at hslope
  rw [(ends_of hstore hx hv).xc_eq, htime]
  exact hslope

/-- The ray does not move a variable in which the gradient is zero. -/
theorem xc_unbounded_of_eq_zero [ExactFactor ℝ] (hstore : store.Consistent) {i : Fin n}
    (hi : g[i] = 0) : (of (.unbounded n) store x g).xc[i] = x[i] := by
  by_cases hg : coords g = 0
  · rw [of_eq_atRest (Path.velocity_unbounded_eq_zero_iff.mpr hg)]
    rfl
  · have hv : coords (Path.of (.unbounded n) x g).velocity ≠ 0 :=
      Path.velocity_unbounded_eq_zero_iff.not.mpr hg
    rw [(ends_of hstore (Box.contains_unbounded x) hv).xc_eq, Box.getElem_descend,
      Box.kind_unbounded, hi, neg_zero, mul_zero, add_zero]
    rfl

end CauchySearch

end BoxDescent
