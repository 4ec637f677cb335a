import BoxDescent.Proofs.Cauchy.Point

/-!
# What a walk carries

The slope, the curvature and the compact products that a walk carries from segment to segment
are those that would be computed anew at the start of each segment; slope and curvature only
until the curvature has been raised to its floor.  At the end `c` is `Wᵀ (xc - x)`.
-/

namespace BoxDescent

namespace Walk

variable [DenseSolver ℝ] {n cap : Nat} {store : Store ℝ n cap} {box : Box ℝ n}
  {x g : Vector ℝ n} {w : Walk ℝ n store.size} {rest : List (Breakpoint ℝ n)}

theorem trueSlope_eq_dot [ExactFactor ℝ] (hstore : store.Consistent) (t : ℝ) :
    trueSlope box x g w t =
      dot w.velocity (g + store.applyForward (box.descend x g t - x)) := by
  rw [dot_eq, coords_add, hstore.applyForward_eq]
  rfl

theorem trueCurvature_eq_dot [ExactFactor ℝ] (hstore : store.Consistent) :
    trueCurvature w = dot w.velocity (store.applyForward w.velocity) := by
  rw [dot_eq, hstore.applyForward_eq]
  rfl

/-- The floor stays a tiny multiple of the curvature of the first segment. -/
theorem Visits.floor_eq [ExactFactor ℝ] (h : Visits box store (Path.of box x g) rest w)
    (hx : box.contains x = true) (hstore : store.Consistent) :
    w.floor = Scalar.epsilon *
      dot (Path.of box x g).velocity (store.applyForward (Path.of box x g).velocity) := by
  induction h with
  | start hmoves =>
    have htracks := tracks_begin hx hstore (dot_velocity_eq_false_iff.mp hmoves)
    have hfloor : (begin store (Path.of box x g)).floor =
        Scalar.epsilon * (begin store (Path.of box x g)).curvature := rfl
    rw [hfloor, htracks.curvature_eq rfl, trueCurvature_eq_dot hstore]
    rfl
  | onward hvisit hturn ih =>
    obtain ⟨-, rfl⟩ := passed_of_onward hturn
    exact (floor_passed (hvisit.tracks hx hstore) hx hstore).trans ih

end Walk

/-! ### The search -/

namespace CauchySearch

variable [DenseSolver ℝ] {n cap : Nat} {store : Store ℝ n cap} {box : Box ℝ n}
  {x g : Vector ℝ n}

/-- At the start of each segment, with `z` the point of the path and `d` the direction that is
left, `p` is `Wᵀ d` and `c` is `Wᵀ (z - x)`; slope and curvature are those of the model until
the curvature has been raised to its floor.  However the search ends, `c` is `Wᵀ (xc - x)`. -/
theorem carries_recomputed [ExactFactor ℝ] (hcap : 0 < cap) (ops : List (Store.Operation ℝ n))
    (box : Box ℝ n) (x g : Vector ℝ n) (hx : box.contains x = true) :
    let store : Store ℝ n cap := Store.after ops
    let path := Path.of box x g
    let cp := of box store x g
    (∀ (rest : List (Breakpoint ℝ n)) (w : Walk ℝ n store.size),
      Walk.Visits box store path rest w →
        let z := box.project (addScaled x (-w.reached) g)
        let d := w.velocity
        (∀ i : Fin n, z[i] = if d[i] = 0 then w.point[i] else x[i] + w.elapsed * d[i]) ∧
          w.p = store.wTranspose d ∧ w.c = store.wTranspose (z - x) ∧
          w.floor = Scalar.epsilon * dot path.velocity (store.applyForward path.velocity) ∧
          (w.floored = false →
            w.slope = dot d (g + store.applyForward (z - x)) ∧
              w.curvature = dot d (store.applyForward d))) ∧
      cp.c = store.wTranspose (cp.xc - x) := by
  intro store path cp
  have hstore : store.Consistent := Store.consistent_after hcap ops
  refine ⟨?_, c_eq hstore hx⟩
  intro rest w hvisit z d
  have htracks : Walk.Tracks box x g w rest := hvisit.tracks hx hstore
  have hpoint : ∀ i : Fin n,
      z[i] = if d[i] = 0 then w.point[i] else x[i] + w.elapsed * d[i] := by
    intro i
    rw [htracks.elapsed_eq]
    exact htracks.on.getElem_descend hx (le_refl _) htracks.on.ahead i
  refine ⟨hpoint, htracks.p_eq, htracks.c_eq, hvisit.floor_eq hx hstore, ?_⟩
  intro hfloored
  rw [htracks.slope_eq hfloored, htracks.curvature_eq hfloored]
  exact ⟨Walk.trueSlope_eq_dot hstore _, Walk.trueCurvature_eq_dot hstore⟩

omit [DenseSolver ℝ] in
/-- The start behind the first of two breakpoints at the same time. -/
theorem carries_recomputed_past_breakpoint :
    let _ := DenseSolver.symmetric ℝ
    let store : Store ℝ 2 1 := Store.after [.offer #v[1, 1] #v[1, 3]]
    let x : Vector ℝ 2 := #v[0, 0]
    let g : Vector ℝ 2 := #v[-1, -1]
    let w := tiedWalk store
    let cp := of tiedBox store x g
    let z := tiedBox.project (addScaled x (-w.reached) g)
    ExactFactor ℝ ∧ 0 < 1 ∧ tiedBox.contains x = true ∧
      Walk.Visits tiedBox store (Path.of tiedBox x g) [⟨1, 3 / 8⟩] w ∧ w.floored = false ∧
      w.slope = dot w.velocity (g + store.applyForward (z - x)) ∧ w.slope = 1 / 8 ∧
      w.curvature = dot w.velocity (store.applyForward w.velocity) ∧
      w.p = store.wTranspose w.velocity ∧ w.c = store.wTranspose (z - x) ∧
      cp.c = store.wTranspose (cp.xc - x) := by
  intro solver store x g w cp z
  have hexact : ExactFactor ℝ := exactFactor_symmetric
  have hcomplete : CompleteFactor := completeFactor_symmetric
  have hstore : store.Consistent := Store.consistent_after Nat.one_pos _
  have hsecant := dense_mulVec_tied
  have hvisit := visits_tied hstore hsecant
  have hfloored := floored_tiedWalk hstore hsecant
  obtain ⟨hstarts, hend⟩ := carries_recomputed Nat.one_pos [.offer #v[1, 1] #v[1, 3]] tiedBox x g
    contains_tied
  obtain ⟨-, hp, hc, -, hmodel⟩ := hstarts _ w hvisit
  obtain ⟨hslope, hcurvature⟩ := hmodel hfloored
  exact ⟨hexact, Nat.one_pos, contains_tied, hvisit, hfloored, hslope,
    slope_tiedWalk hstore hsecant, hcurvature, hp, hc, hend⟩

end CauchySearch

end BoxDescent
