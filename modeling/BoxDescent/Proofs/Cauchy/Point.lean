import BoxDescent.Proofs.Cauchy.Segments

/-!
# The generalized Cauchy point

A search that finds a moving variable ends at a positive time, at the point of the path at
that time, and the model decreases strictly on the way.  Unless the curvature was raised
to its floor, the slope of the model in the variables that are free there is not negative.
-/

namespace BoxDescent

open Matrix

variable [DenseSolver ℝ] {n cap : Nat} {store : Store ℝ n cap} {box : Box ℝ n}
  {x g : Vector ℝ n}

omit [DenseSolver ℝ] in
/-- Only variables with velocity count in a sum over the free ones. -/
theorem Walk.On.sum_free {k : Nat} {w : Walk ℝ n k} {t : ℝ} {rest : List (Breakpoint ℝ n)}
    (h : Walk.On box x g w t rest) (f : Fin n → ℝ) :
    (((List.finRange n).filter fun i => !w.held[i]).map fun i => -g[i] * f i).sum =
      coords w.velocity ⬝ᵥ f := by
  rw [← List.sum_toFinset _ ((List.nodup_finRange n).filter _), List.toFinset_filter,
    List.toFinset_finRange, Finset.sum_filter, dotProduct]
  apply Finset.sum_congr rfl
  intro i _
  rw [coords_apply]
  by_cases hi : w.velocity[i] = 0
  · cases hheld : w.held[i] with
    | true => simp [hi]
    | false => simp [hi, h.stationary i hi hheld]
  · rw [h.velocity_eq i hi, h.not_held i hi]
    rfl

namespace CauchySearch

/-- What holds of a search that walked along the path. -/
structure Ends (box : Box ℝ n) (store : Store ℝ n cap) (x g : Vector ℝ n)
    (cs : CauchySearch ℝ n store.size) : Prop where
  time_pos : 0 < cs.time
  xc_eq : cs.xc = box.descend x g cs.time
  c_eq : cs.c = store.wTranspose (box.way x g cs.time)
  decreasing : StrictAntiOn (Walk.pathValue box store x g) (Set.Icc 0 cs.time)
  slope_nonneg : cs.floored = false →
    (0 : ℝ) ≤ (cs.free.map fun i =>
      -g[i] * (coords g + store.dense *ᵥ coords (box.way x g cs.time)) i).sum

variable {w : Walk ℝ n store.size} {b : Breakpoint ℝ n} {rest : List (Breakpoint ℝ n)}

theorem c_ofWalk {s : ℝ} (h : Walk.Tracks box x g w rest) (hx : box.contains x = true)
    (hs : w.reached ≤ s) (hbefore : ∀ b ∈ rest, s ≤ b.time) :
    (if store.isEmpty then w.c else addScaled w.c (s - w.reached) w.p) =
      store.wTranspose (box.way x g s) := by
  cases hempty : store.isEmpty with
  | true => exact Store.compact_eq_of_isEmpty hempty _ _
  | false =>
    rw [h.on.way_eq hx hs hbefore, Store.wTranspose_addScaled, ← h.p_eq, ← h.c_eq]
    rfl

/-- The model decreases as far as the larger one of the minimum ahead and the start of the
segment. -/
theorem decreasing_of_stop (h : Walk.Tracks box x g w rest) (hx : box.contains x = true)
    (hstore : store.Tabulated) (hbefore : ∀ b ∈ rest, w.reached + max w.ahead 0 ≤ b.time) :
    StrictAntiOn (Walk.pathValue box store x g) (Set.Icc 0 (w.reached + max w.ahead 0)) := by
  rcases le_or_gt w.ahead 0 with hneg | hpos
  · rw [max_eq_right hneg, add_zero]
    exact h.decreasing
  · have hend : w.slope + (w.reached + w.ahead - w.reached) * w.curvature ≤ 0 := by
      rcases h.ahead_cases with hmin | ⟨hzero, -⟩
      · rw [add_sub_cancel_left, hmin, h.slope_minimizer]
      · exact absurd hpos (by rw [hzero]; exact lt_irrefl 0)
    rw [max_eq_left (le_of_lt hpos)] at hbefore ⊢
    exact h.decreasing_to hx hstore (by linarith) hbefore hend

/-- There the slope of the model is not negative, unless the curvature was raised. -/
theorem trueSlope_of_stop (h : Walk.Tracks box x g w rest) (hx : box.contains x = true)
    (hbefore : ∀ b ∈ rest, w.reached + max w.ahead 0 ≤ b.time) (hfloored : w.floored = false) :
    0 ≤ Walk.trueSlope box x g w (w.reached + max w.ahead 0) := by
  have hle : w.reached ≤ w.reached + max w.ahead 0 := by
    have hmax := le_max_right w.ahead 0
    linarith
  rcases h.ahead_cases with hmin | ⟨-, hrest⟩
  · rw [h.on.trueSlope_eq hx hle hbefore, ← h.slope_eq hfloored, ← h.curvature_eq hfloored,
      add_sub_cancel_left]
    have hzero := h.slope_minimizer
    have hmul := mul_le_mul_of_nonneg_right (le_max_left w.ahead 0) (le_of_lt h.curvature_pos)
    rw [hmin] at hmul ⊢
    linarith
  · rw [Walk.trueSlope, hrest, Model.slope, zero_dotProduct]

theorem ends_of_stop (h : Walk.Tracks box x g w rest) (hx : box.contains x = true)
    (hstore : store.Tabulated) (hbefore : ∀ b ∈ rest, w.reached + max w.ahead 0 ≤ b.time) :
    Ends box store x g (ofWalk box store (Path.of box x g) w false) := by
  have hle : w.reached ≤ w.reached + max w.ahead 0 := by
    have hmax := le_max_right w.ahead 0
    linarith
  have htime := time_onSegment h
  constructor
  · rw [htime]
    rcases h.progress with hpos | hpos
    · linarith
    · have hmax : w.ahead ≤ max w.ahead 0 := le_max_left _ _
      have hnn := h.on.nonneg
      linarith
  · apply coords_injective
    funext i
    have hxc : (ofWalk box store (Path.of box x g) w false).xc[i] =
        if w.velocity[i] == 0 then w.point[i]
        else (box.kind i).clamp
          (x[i] + (ofWalk box store (Path.of box x g) w false).time * w.velocity[i]) := by
      simp only [ofWalk, Bool.false_eq_true, if_false, getElem_eq_val, Vector.getElem_ofFn]
      rfl
    rw [coords_apply, coords_apply, hxc, htime]
    by_cases hi : w.velocity[i] = 0
    · rw [if_pos (beq_iff_eq.mpr hi), h.on.resting i hi _ hle]
    · rw [if_neg (fun he => hi (beq_iff_eq.mp he)), h.on.velocity_eq i hi,
        Box.getElem_descend]
  · rw [htime, ← c_ofWalk h hx hle hbefore, add_sub_cancel_left, ← Scalar.larger_real]
    rfl
  · rw [htime]
    exact decreasing_of_stop h hx hstore hbefore
  · intro hfloored
    rw [htime]
    exact (trueSlope_of_stop h hx hbefore hfloored).trans_eq (h.on.sum_free _).symm

theorem ends_of_finish (h : Walk.Tracks box x g w [b]) (hx : box.contains x = true)
    (hstore : store.Tabulated) (hle : b.time - w.reached ≤ w.ahead)
    (hall : (Path.of box x g).meetsAllLimits = true) :
    Ends box store x g (ofWalk box store (Path.of box x g)
      { w.stopVariable box (Path.of box x g) b.index (b.time - w.reached) with
        ahead := b.time - w.reached } true) := by
  have hstopped := h.on.stop (b.time - w.reached)
  have hreached := h.on.ahead b List.mem_cons_self
  have hrest := hstopped.velocity_eq_zero (Path.endless_of_meetsAllLimits hall)
  have htime : (ofWalk box store (Path.of box x g)
      { w.stopVariable box (Path.of box x g) b.index (b.time - w.reached) with
        ahead := b.time - w.reached } true).time = b.time := by
    change w.elapsed + (b.time - w.reached) = b.time
    rw [h.elapsed_eq]
    ring
  constructor
  · rw [htime]
    exact h.time_pos hx
  · rw [htime]
    apply coords_injective
    funext i
    exact (hstopped.resting i (congrFun hrest i) b.time (le_refl _)).symm
  · rw [htime, ← c_ofWalk h hx hreached h.on.time_le]
    rfl
  · rw [htime]
    exact h.decreasing_to hx hstore hreached h.on.time_le (h.expects hle)
  · intro _
    refine le_of_eq (Eq.trans ?_ (hstopped.sum_free _).symm)
    rw [hrest, zero_dotProduct]

theorem Stops.ends [ExactFactor ℝ] {cs : CauchySearch ℝ n store.size}
    (h : Stops box store x g cs) (hx : box.contains x = true) (hstore : store.Consistent) :
    Ends box store x g cs := by
  cases h with
  | onSegment hvisit hahead =>
    have htracks := hvisit.tracks hx hstore
    apply ends_of_stop htracks hx hstore.toTabulated
    intro b hb
    have hreached := htracks.on.ahead b hb
    have hmax := max_le (le_of_lt (hahead b hb)) (sub_nonneg.mpr hreached)
    linarith
  | atEnd hvisit hle hall =>
    exact ends_of_finish (hvisit.tracks hx hstore) hx hstore.toTabulated hle hall

/-- The model of the objective around `x`, as a change from its value there. -/
noncomputable def modelChange (store : Store ℝ n cap) (x g z : Vector ℝ n) : ℝ :=
  dot g (z - x) + 1 / 2 * dot (z - x) (store.applyForward (z - x))

theorem modelChange_eq [ExactFactor ℝ] (hstore : store.Consistent) (z : Vector ℝ n) :
    modelChange store x g z = Model.value store.dense (coords g) (coords (z - x)) := by
  rw [modelChange, dot_eq, dot_eq, hstore.applyForward_eq, Model.value]

theorem modelChange_descend [ExactFactor ℝ] (hstore : store.Consistent) (t : ℝ) :
    modelChange store x g (box.descend x g t) = Walk.pathValue box store x g t :=
  modelChange_eq hstore _

theorem sum_free_eq [ExactFactor ℝ] (hstore : store.Consistent) (z : Vector ℝ n)
    (free : List (Fin n)) :
    (free.map fun i => -g[i] * (g[i] + (store.applyForward (z - x))[i])).sum =
      (free.map fun i => -g[i] * (coords g + store.dense *ᵥ coords (z - x)) i).sum := by
  rw [← hstore.applyForward_eq]
  rfl

theorem ends_of [ExactFactor ℝ] (hstore : store.Consistent) (hx : box.contains x = true)
    (hv : coords (Path.of box x g).velocity ≠ 0) : Ends box store x g (of box store x g) :=
  (stops_of hx hstore hv).ends hx hstore

/-- The compact product that is returned belongs to the way from the start. -/
theorem c_eq [ExactFactor ℝ] (hstore : store.Consistent) (hx : box.contains x = true) :
    (of box store x g).c = store.wTranspose ((of box store x g).xc - x) := by
  by_cases hv : coords (Path.of box x g).velocity = 0
  · have hway : x - x = Vector.replicate n 0 := by
      rw [← coords_eq_zero_iff, coords_sub, sub_self]
    rw [of_eq_atRest hv]
    change store.zeroCompact = store.wTranspose (x - x)
    rw [hway, Store.wTranspose_zero]
  · have hends := ends_of hstore hx hv
    rw [hends.c_eq, hends.xc_eq]
    rfl

theorem xc_tied [ExactFactor ℝ] {store : Store ℝ 2 1} (hstore : store.Consistent)
    (hsecant : store.dense *ᵥ coords #v[1, 1] = coords #v[1, 3]) :
    (of tiedBox store #v[0, 0] #v[-1, -1]).xc = #v[3 / 8, 3 / 8] := by
  have hends := ends_of hstore contains_tied velocity_tied_ne_zero
  have htime := time_tied hstore hsecant
  rw [hends.xc_eq, htime]
  apply coords_injective
  funext i
  rw [coords_apply, descend_tied (by norm_num) le_rfl]
  fin_cases i <;> rfl

/-- From a point of the box the search ends at the projection of `x - t * g` for a time
`t`; up to that time the model decreases strictly along the path.  The search leaves `x`
if and only if the projected gradient is not zero.  If the curvature was never raised to
its floor, the slope along `-g` in the variables that are free at the end is not
negative. -/
theorem descends_to_point [ExactFactor ℝ] (hcap : 0 < cap) (ops : List (Store.Operation ℝ n))
    (box : Box ℝ n) (x g : Vector ℝ n) (hx : box.contains x = true) :
    let store : Store ℝ n cap := Store.after ops
    let cp := of box store x g
    let P := fun t => box.project (addScaled x (-t) g)
    0 ≤ cp.time ∧ cp.xc = P cp.time ∧
      StrictAntiOn (fun t => modelChange store x g (P t)) (Set.Icc 0 cp.time) ∧
      (box.projectedGradient x g ≠ Vector.replicate n 0 →
        modelChange store x g cp.xc < modelChange store x g x) ∧
      (box.projectedGradient x g = Vector.replicate n 0 → cp.xc = x) ∧
      (cp.floored = false → (0 : ℝ) ≤ (cp.free.map fun i =>
        -g[i] * (g[i] + (store.applyForward (cp.xc - x))[i])).sum) := by
  intro store cp P
  have hstore : store.Consistent := Store.consistent_after hcap ops
  have hvalue : (fun t => modelChange store x g (P t)) = Walk.pathValue box store x g := by
    funext t
    exact modelChange_descend hstore t
  have hzero : P 0 = x := Box.descend_zero hx g
  rw [hvalue]
  by_cases hv : coords (Path.of box x g).velocity = 0
  · have hrest : cp = atRest store (Path.of box x g) := of_eq_atRest hv
    have hgrad := (Path.projectedGradient_eq_iff hx).mpr hv
    have hon : Walk.On box x g (Walk.begin store (Path.of box x g)) 0
        (Path.of box x g).breakpoints := Walk.on_start hx rfl rfl rfl
    rw [hrest]
    refine ⟨le_refl _, hzero.symm, Walk.strictAntiOn_start _, fun hne => absurd hgrad hne,
      fun _ => rfl, ?_⟩
    intro _
    rw [sum_free_eq hstore]
    refine le_of_eq (Eq.trans ?_ (hon.sum_free _).symm)
    exact ((congrArg (· ⬝ᵥ _) hv).trans (zero_dotProduct _)).symm
  · have hends : Ends box store x g cp := ends_of hstore hx hv
    have hgrad : box.projectedGradient x g ≠ Vector.replicate n 0 := fun he =>
      hv ((Path.projectedGradient_eq_iff hx).mp he)
    refine ⟨le_of_lt hends.time_pos, hends.xc_eq, hends.decreasing, ?_,
      fun he => absurd he hgrad, ?_⟩
    · intro _
      have hlt := hends.decreasing ⟨le_refl 0, le_of_lt hends.time_pos⟩
        ⟨le_of_lt hends.time_pos, le_refl _⟩ hends.time_pos
      rw [← modelChange_descend hstore, ← modelChange_descend hstore, ← hends.xc_eq,
        Box.descend_zero hx] at hlt
      exact hlt
    · intro hfloored
      rw [sum_free_eq hstore, hends.xc_eq]
      exact hends.slope_nonneg hfloored

omit [DenseSolver ℝ] in
/-- The path passes the first of two breakpoints at the same time, and the second variable stays
free behind them. -/
theorem descends_to_point_past_breakpoint :
    let _ := DenseSolver.symmetric ℝ
    let store : Store ℝ 2 1 := Store.after [.offer #v[1, 1] #v[1, 3]]
    let x : Vector ℝ 2 := #v[0, 0]
    let g : Vector ℝ 2 := #v[-1, -1]
    let cp := of tiedBox store x g
    let P := fun t => tiedBox.project (addScaled x (-t) g)
    ExactFactor ℝ ∧ 0 < 1 ∧ tiedBox.contains x = true ∧
      tiedBox.projectedGradient x g ≠ Vector.replicate 2 0 ∧ cp.floored = false ∧
      (∀ b ∈ (Path.of tiedBox x g).breakpoints, b.time = cp.time) ∧ cp.active = [0] ∧
      cp.free = [1] ∧ cp.time = 3 / 8 ∧ cp.xc = P (3 / 8) ∧
      StrictAntiOn (fun t => modelChange store x g (P t)) (Set.Icc 0 (3 / 8)) ∧
      modelChange store x g cp.xc < modelChange store x g x ∧
      (0 : ℝ) ≤ (cp.free.map fun i =>
        -g[i] * (g[i] + (store.applyForward (cp.xc - x))[i])).sum := by
  intro solver store x g cp P
  have hexact : ExactFactor ℝ := exactFactor_symmetric
  have hcomplete : CompleteFactor := completeFactor_symmetric
  have hstore : store.Consistent := Store.consistent_after Nat.one_pos _
  have hsecant := dense_mulVec_tied
  have hgrad : tiedBox.projectedGradient x g ≠ Vector.replicate 2 0 := fun he =>
    velocity_tied_ne_zero ((Path.projectedGradient_eq_iff contains_tied).mp he)
  have htime : cp.time = 3 / 8 := time_tied hstore hsecant
  have hfloored : cp.floored = false :=
    (congrArg (fun cs => cs.floored) (of_tied hstore hsecant)).trans
      (floored_tiedWalk hstore hsecant)
  have hbreakpoints : ∀ b ∈ (Path.of tiedBox x g).breakpoints, b.time = cp.time := by
    intro b hb
    rw [show (Path.of tiedBox x g).breakpoints = _ from breakpoints_tied] at hb
    rw [htime]
    rcases List.mem_pair.mp hb with rfl | rfl <;> rfl
  obtain ⟨hactive, hfree⟩ := sides_tied hstore hsecant
  obtain ⟨-, hxc, hdecreases, hlower, -, hslope⟩ :=
    descends_to_point Nat.one_pos [.offer #v[1, 1] #v[1, 3]] tiedBox x g contains_tied
  have hxc : cp.xc = P cp.time := hxc
  have hdecreases : StrictAntiOn (fun t => modelChange store x g (P t)) (Set.Icc 0 cp.time) :=
    hdecreases
  rw [htime] at hxc hdecreases
  exact ⟨hexact, Nat.one_pos, contains_tied, hgrad, hfloored, hbreakpoints, hactive, hfree, htime,
    hxc, hdecreases, hlower hgrad, hslope hfloored⟩

end CauchySearch

end BoxDescent
