import BoxDescent.Proofs.Cauchy.Position
import BoxDescent.Proofs.Cauchy.Model

/-!
# What a walk knows about the model

At the start of each segment the compact products belong to the direction and to the way
walked, and slope and curvature are those of the model, or larger once the curvature has
been raised to its floor.  Larger values only make the walk stop sooner: the model
decreases strictly along the path as far as the walk goes.
-/

namespace BoxDescent

open Matrix

variable [DenseSolver ℝ] {n cap : Nat}

namespace Walk

variable {store : Store ℝ n cap} {box : Box ℝ n} {x g : Vector ℝ n}

/-- The model along the path. -/
noncomputable def pathValue (box : Box ℝ n) (store : Store ℝ n cap) (x g : Vector ℝ n) (t : ℝ) :
    ℝ :=
  Model.value store.dense (coords g) (coords (box.way x g t))

/-- The slope of the model on the segment of `w`, at time `t`. -/
noncomputable def trueSlope (box : Box ℝ n) (x g : Vector ℝ n) (w : Walk ℝ n store.size)
    (t : ℝ) : ℝ :=
  Model.slope store.dense (coords g) (coords (box.way x g t)) (coords w.velocity)

/-- The curvature of the model on the segment of `w`. -/
noncomputable def trueCurvature (w : Walk ℝ n store.size) : ℝ :=
  Model.curvature store.dense (coords w.velocity)

/-- The walk is at the start of a segment, before the breakpoints `rest`, and what it
carries belongs to the path from `x` against `g`. -/
structure Tracks (box : Box ℝ n) (x g : Vector ℝ n) (w : Walk ℝ n store.size)
    (rest : List (Breakpoint ℝ n)) : Prop where
  on : On box x g w w.reached rest
  elapsed_eq : w.elapsed = w.reached
  p_eq : w.p = store.wTranspose w.velocity
  c_eq : w.c = store.wTranspose (box.way x g w.reached)
  floor_pos : 0 < w.floor
  curvature_pos : 0 < w.curvature
  slope_le : trueSlope box x g w w.reached ≤ w.slope
  curvature_le : trueCurvature w ≤ w.curvature
  slope_eq : w.floored = false → w.slope = trueSlope box x g w w.reached
  curvature_eq : w.floored = false → w.curvature = trueCurvature w
  ahead_eq : rest ≠ [] ∨ (Path.of box x g).endless = true → w.ahead = w.minimizer
  ahead_eq_zero : rest = [] → (Path.of box x g).endless = false → w.ahead = 0
  decreasing : StrictAntiOn (pathValue box store x g) (Set.Icc 0 w.reached)
  progress : 0 < w.reached ∨ 0 < w.ahead

/-! ### Along a segment -/

section

variable {w : Walk ℝ n store.size} {rest : List (Breakpoint ℝ n)}

theorem On.coords_way (h : On box x g w w.reached rest) (hx : box.contains x = true) {s : ℝ}
    (hs : w.reached ≤ s) (hbefore : ∀ b ∈ rest, s ≤ b.time) :
    coords (box.way x g s) =
      coords (box.way x g w.reached) + (s - w.reached) • coords w.velocity := by
  rw [Box.way, Box.way, coords_sub, coords_sub, h.coords_descend hx hs hbefore, add_sub_right_comm]

theorem On.way_eq (h : On box x g w w.reached rest) (hx : box.contains x = true) {s : ℝ}
    (hs : w.reached ≤ s) (hbefore : ∀ b ∈ rest, s ≤ b.time) :
    box.way x g s = addScaled (box.way x g w.reached) (s - w.reached) w.velocity := by
  apply coords_injective
  rw [h.coords_way hx hs hbefore, coords_addScaled]

/-- The true slope at a later time of the segment. -/
theorem On.trueSlope_eq (h : On box x g w w.reached rest) (hx : box.contains x = true) {s : ℝ}
    (hs : w.reached ≤ s) (hbefore : ∀ b ∈ rest, s ≤ b.time) :
    trueSlope box x g w s =
      trueSlope box x g w w.reached + (s - w.reached) * trueCurvature w := by
  rw [trueSlope, h.coords_way hx hs hbefore, Model.slope_add_smul]
  rfl

/-- As long as the slope that the walk expects is not positive, the model decreases. -/
theorem Tracks.decreasing_to (h : Tracks box x g w rest) (hx : box.contains x = true)
    (hstore : store.Tabulated) {s : ℝ} (hs : w.reached ≤ s) (hbefore : ∀ b ∈ rest, s ≤ b.time)
    (hend : w.slope + (s - w.reached) * w.curvature ≤ 0) :
    StrictAntiOn (pathValue box store x g) (Set.Icc 0 s) := by
  have hvalue : ∀ r, w.reached ≤ r → r ≤ s → pathValue box store x g r =
      pathValue box store x g w.reached + ((r - w.reached) * trueSlope box x g w w.reached +
        (r - w.reached) ^ 2 / 2 * trueCurvature w) := by
    intro r hr hrs
    rw [pathValue, h.on.coords_way hx hr fun b hb => le_trans hrs (hbefore b hb),
      Model.value_add_smul hstore.isSymm_dense]
    rfl
  have hsegment : StrictAntiOn (pathValue box store x g) (Set.Icc w.reached s) := by
    intro r hr t ht hrt
    rw [hvalue r hr.1 hr.2, hvalue t ht.1 ht.2]
    have hlt := Model.parabola_lt h.slope_le h.curvature_le h.curvature_pos hend
      (sub_nonneg.mpr hr.1) (sub_lt_sub_right hrt w.reached) (sub_le_sub_right ht.2 w.reached)
    linarith
  have hunion := h.decreasing.union hsegment (isGreatest_Icc h.on.nonneg) (isLeast_Icc hs)
  rwa [Set.Icc_union_Icc_eq_Icc h.on.nonneg hs] at hunion

end

section

variable {w : Walk ℝ n store.size} {rest : List (Breakpoint ℝ n)}

theorem Tracks.ahead_cases (h : Tracks box x g w rest) :
    w.ahead = w.minimizer ∨ (w.ahead = 0 ∧ coords w.velocity = 0) := by
  by_cases hmore : rest ≠ [] ∨ (Path.of box x g).endless = true
  · exact .inl (h.ahead_eq hmore)
  · rw [not_or, not_not] at hmore
    obtain ⟨hnil, hend⟩ := hmore
    rw [Bool.not_eq_true] at hend
    have hon := h.on
    rw [hnil] at hon
    exact .inr ⟨h.ahead_eq_zero hnil hend, hon.velocity_eq_zero hend⟩

/-- The slope that the walk expects where its parabola has the minimum. -/
theorem Tracks.slope_minimizer (h : Tracks box x g w rest) :
    w.slope + w.minimizer * w.curvature = 0 := by
  rw [minimizer, div_mul_cancel₀ _ (ne_of_gt h.curvature_pos)]
  ring

end

/-! ### The start -/

omit [DenseSolver ℝ] in
theorem strictAntiOn_start (f : ℝ → ℝ) : StrictAntiOn f (Set.Icc 0 0) := by
  rw [Set.Icc_self]
  exact Set.subsingleton_singleton.strictAntiOn f

theorem tracks_begin [ExactFactor ℝ] (hx : box.contains x = true) (hstore : store.Consistent)
    (hv : coords (Path.of box x g).velocity ≠ 0) :
    Tracks box x g (begin store (Path.of box x g)) (Path.of box x g).breakpoints := by
  have hway := Box.way_zero hx g
  have hon : On box x g (begin store (Path.of box x g)) 0 (Path.of box x g).breakpoints :=
    on_start hx rfl rfl rfl
  have hslope : (begin store (Path.of box x g)).slope =
      trueSlope box x g (begin store (Path.of box x g)) 0 := by
    have hzero : coords (box.way x g 0) = 0 := by
      rw [hway, coords_replicate]
      rfl
    rw [trueSlope, Model.slope, hzero, mulVec_zero, add_zero]
    exact (congrArg Neg.neg (dot_eq _ _)).trans Path.dotProduct_velocity.symm
  have hcurv : (begin store (Path.of box x g)).curvature =
      trueCurvature (begin store (Path.of box x g)) :=
    (hstore.dotProduct_dense _ _).symm
  have hcurvpos : 0 < (begin store (Path.of box x g)).curvature := by
    rw [hcurv]
    exact (posDef_iff_real.mp hstore.posDef_dense).2 _ hv
  have hslopeneg : (begin store (Path.of box x g)).slope < 0 := by
    apply neg_neg_of_pos
    apply lt_of_le_of_ne (dot_self_nonneg _)
    intro hzero
    exact hv (dot_self_eq_zero.mp hzero.symm)
  exact
    { on := hon
      elapsed_eq := rfl
      p_eq := rfl
      c_eq := by
        change store.zeroCompact = store.wTranspose (box.way x g 0)
        rw [hway, Store.wTranspose_zero]
      floor_pos := mul_pos Scalar.epsilon_pos hcurvpos
      curvature_pos := hcurvpos
      slope_le := le_of_eq hslope.symm
      curvature_le := le_of_eq hcurv.symm
      slope_eq := fun _ => hslope
      curvature_eq := fun _ => hcurv
      ahead_eq := fun _ => rfl
      ahead_eq_zero := by
        intro hnil hend
        rw [hnil] at hon
        exact absurd (hon.velocity_eq_zero hend) hv
      decreasing := strictAntiOn_start _
      progress := .inr (div_pos (neg_pos.mpr hslopeneg) hcurvpos) }

/-! ### Bending -/

/-- What `bend` does to products that belong to the direction `d` and the way `u`. -/
theorem bend_eq [ExactFactor ℝ] (h : store.Consistent) (w : Walk ℝ n store.size) (dt : ℝ)
    (i : Fin n) (d u : Vector ℝ n) (hp : w.p = store.wTranspose d)
    (hc : w.c = store.wTranspose u) :
    let raw := w.curvature - 2 * d[i] * (store.dense *ᵥ coords d) i +
      d[i] * d[i] * (store.dense *ᵥ Pi.single i 1) i
    bend store w dt i d[i] (addScaled u dt d)[i] =
      { w with
        slope := w.slope + dt * w.curvature + d[i] * d[i] -
          d[i] * (store.dense *ᵥ coords (addScaled u dt d)) i
        curvature := max raw w.floor
        floored := w.floored || decide (raw < w.floor)
        c := store.wTranspose (addScaled u dt d)
        p := store.wTranspose (addScaled d (-d[i]) (unit i)) } := by
  intro raw
  have hc' : addScaled w.c dt w.p = store.wTranspose (addScaled u dt d) := by
    rw [hp, hc, Store.wTranspose_addScaled]
  have hp' : addScaled w.p (-d[i]) (store.wRow i) =
      store.wTranspose (addScaled d (-d[i]) (unit i)) := by
    rw [hp, Store.wTranspose_addScaled, Store.wTranspose_unit]
  have hway := h.dense_mulVec_apply (addScaled u dt d) i
  have hdir := h.dense_mulVec_apply d i
  have hunit := h.dense_mulVec_apply (unit i) i
  have hone : (unit i)[i] = 1 := by
    rw [← dot_unit, dot_eq, unit, coords_ofFn, single_dotProduct, Pi.single_eq_same, one_mul]
  rw [hone, Store.wTranspose_unit, unit, coords_ofFn] at hunit
  cases hempty : store.isEmpty with
  | true =>
    simp only [Store.dot_of_isEmpty hempty, sub_zero] at hway hdir hunit
    have hslope : w.slope + (dt * w.curvature + d[i] * d[i] -
        store.theta * d[i] * (addScaled u dt d)[i]) = w.slope + dt * w.curvature + d[i] * d[i] -
          d[i] * (store.dense *ᵥ coords (addScaled u dt d)) i := by
      rw [hway]
      ring
    have hraw : w.curvature - store.theta * (d[i] * d[i]) = raw := by
      simp only [raw]
      rw [hdir, hunit]
      ring
    simp only [bend, hempty, if_true, hslope, hraw, Scalar.larger_real]
    congr 1
    · exact Store.compact_eq_of_isEmpty hempty _ _
    · exact Store.compact_eq_of_isEmpty hempty _ _
  | false =>
    have hslope : w.slope + (dt * w.curvature + d[i] * d[i] -
        store.theta * d[i] * (addScaled u dt d)[i]) + d[i] *
          dot (store.wTranspose (addScaled u dt d)) (store.middleTimes (store.wRow i)) =
        w.slope + dt * w.curvature + d[i] * d[i] -
          d[i] * (store.dense *ᵥ coords (addScaled u dt d)) i := by
      rw [hway]
      ring
    have hraw : w.curvature - store.theta * (d[i] * d[i]) +
        (2.0 * d[i] * dot (store.wTranspose d) (store.middleTimes (store.wRow i)) -
          d[i] * d[i] * dot (store.wRow i) (store.middleTimes (store.wRow i))) = raw := by
      have htwo : (2.0 : ℝ) = 2 := by norm_num
      simp only [raw]
      rw [hdir, hunit, htwo]
      ring
    simp only [bend, hempty, Bool.false_eq_true, if_false, hc', hp']
    rw [hp, hslope, hraw, Scalar.larger_real]

/-! ### One turn -/

noncomputable def passed (box : Box ℝ n) (x g : Vector ℝ n) (w : Walk ℝ n store.size)
    (b : Breakpoint ℝ n) (rest : List (Breakpoint ℝ n)) : Walk ℝ n store.size :=
  let path := Path.of box x g
  let dt := b.time - w.reached
  let v := w.velocity[b.index]
  let next := bend store (w.stopVariable box path b.index dt) dt b.index v
    (stopAt box path b.index v - x[b.index])
  { next with
    reached := b.time
    ahead := if !rest.isEmpty || path.endless then next.minimizer else 0 }

/-- What happens at a breakpoint: the walk stops before it, comes to the end of the path,
or goes on. -/
theorem turn_cases (box : Box ℝ n) (x g : Vector ℝ n) (w : Walk ℝ n store.size) (b : Breakpoint ℝ n)
    (rest : List (Breakpoint ℝ n)) :
    (w.ahead < b.time - w.reached ∧ w.turn box store (Path.of box x g) b rest = .stop) ∨
    (b.time - w.reached ≤ w.ahead ∧ rest = [] ∧ (Path.of box x g).meetsAllLimits = true ∧
      w.turn box store (Path.of box x g) b rest =
        .finish { w.stopVariable box (Path.of box x g) b.index (b.time - w.reached) with
          ahead := b.time - w.reached }) ∨
    (b.time - w.reached ≤ w.ahead ∧
      w.turn box store (Path.of box x g) b rest = .onward (passed box x g w b rest)) := by
  by_cases hstop : w.ahead < b.time - w.reached
  · left
    exact ⟨hstop, by simp only [turn, if_pos hstop]⟩
  · have hle := not_lt.mp hstop
    by_cases hend : (rest.isEmpty && (Path.of box x g).meetsAllLimits) = true
    · obtain ⟨hnil, hall⟩ := Bool.and_eq_true_iff.mp hend
      refine .inr (.inl ⟨hle, List.isEmpty_iff.mp hnil, hall, ?_⟩)
      simp only [turn, if_neg hstop, if_pos hend]
    · refine .inr (.inr ⟨hle, ?_⟩)
      simp only [turn, if_neg hstop, if_neg hend]
      rfl

section

variable {w w' : Walk ℝ n store.size} {b : Breakpoint ℝ n} {rest : List (Breakpoint ℝ n)}

theorem On.stopAt_sub (h : On box x g w w.reached (b :: rest)) :
    stopAt box (Path.of box x g) b.index w.velocity[b.index] - x[b.index] =
      (box.way x g b.time)[b.index] := by
  rw [Box.getElem_way]
  congr 1
  rw [h.velocity_eq b.index (h.pending b List.mem_cons_self)]
  exact (Path.descend_of_arrived (h.arrival b List.mem_cons_self) (le_refl b.time)).symm

theorem velocity_stop (w : Walk ℝ n store.size) (i : Fin n) :
    w.velocity.set i 0 i.isLt = addScaled w.velocity (-w.velocity[i]) (unit i) := by
  apply coords_injective
  rw [coords_set_zero, coords_addScaled, unit, coords_ofFn, neg_smul, sub_eq_add_neg]

/-- The true slope of the segment behind the next breakpoint. -/
theorem On.trueSlope_stop (h : On box x g w w.reached (b :: rest)) (hx : box.contains x = true)
    (hv : w'.velocity = w.velocity.set b.index 0 b.index.isLt) :
    trueSlope box x g w' b.time =
      trueSlope box x g w w.reached + (b.time - w.reached) * trueCurvature w +
        w.velocity[b.index] * w.velocity[b.index] -
        w.velocity[b.index] * (store.dense *ᵥ coords (box.way x g b.time)) b.index := by
  have hle := h.ahead b List.mem_cons_self
  have hg : w.velocity[b.index] = -coords g b.index :=
    h.velocity_eq b.index (h.pending b List.mem_cons_self)
  rw [← h.trueSlope_eq hx hle h.time_le, trueSlope, hv, coords_set_zero, Model.slope_stop,
    trueSlope, hg]
  ring

theorem trueCurvature_stop (hstore : store.Tabulated) {i : Fin n}
    (hv : w'.velocity = w.velocity.set i 0 i.isLt) :
    trueCurvature w' = trueCurvature w -
      2 * w.velocity[i] * (store.dense *ᵥ coords w.velocity) i +
        w.velocity[i] * w.velocity[i] * (store.dense *ᵥ Pi.single i 1) i := by
  rw [trueCurvature, hv, coords_set_zero, Model.curvature_stop hstore.isSymm_dense]
  rfl

/-- What the walk carries past a breakpoint, in terms of the matrix. -/
theorem Tracks.passed_eq [ExactFactor ℝ] (h : Tracks box x g w (b :: rest))
    (hx : box.contains x = true) (hstore : store.Consistent) :
    let v := w.velocity[b.index]
    let raw := w.curvature - 2 * v * (store.dense *ᵥ coords w.velocity) b.index +
      v * v * (store.dense *ᵥ Pi.single b.index 1) b.index
    let next : Walk ℝ n store.size :=
      { w.stopVariable box (Path.of box x g) b.index (b.time - w.reached) with
        slope := w.slope + (b.time - w.reached) * w.curvature + v * v -
          v * (store.dense *ᵥ coords (box.way x g b.time)) b.index
        curvature := max raw w.floor
        floored := w.floored || decide (raw < w.floor)
        c := store.wTranspose (box.way x g b.time)
        p := store.wTranspose (w.velocity.set b.index 0 b.index.isLt) }
    passed box x g w b rest =
      { next with
        reached := b.time
        ahead := if !rest.isEmpty || (Path.of box x g).endless then next.minimizer else 0 } := by
  intro v raw next
  have hway := h.on.way_eq hx (h.on.ahead b List.mem_cons_self) h.on.time_le
  have hbend := bend_eq hstore (w.stopVariable box (Path.of box x g) b.index
    (b.time - w.reached)) (b.time - w.reached) b.index w.velocity (box.way x g w.reached)
    h.p_eq h.c_eq
  rw [← hway, ← velocity_stop] at hbend
  simp only [passed]
  rw [h.on.stopAt_sub, hbend]
  rfl

/-- As far as the next breakpoint the walk expects the model to decrease. -/
theorem Tracks.expects (h : Tracks box x g w (b :: rest))
    (hle : b.time - w.reached ≤ w.ahead) :
    w.slope + (b.time - w.reached) * w.curvature ≤ 0 := by
  rw [h.ahead_eq (.inl (List.cons_ne_nil b rest)), minimizer,
    le_div_iff₀ h.curvature_pos] at hle
  linarith

theorem Tracks.time_pos (h : Tracks box x g w (b :: rest)) (hx : box.contains x = true) :
    0 < b.time :=
  Path.arrival_pos hx (h.on.moving b.index (h.on.pending b List.mem_cons_self))
    (h.on.arrival b List.mem_cons_self)

/-- Past a breakpoint the walk keeps track of the model. -/
theorem Tracks.passed [ExactFactor ℝ] (h : Tracks box x g w (b :: rest))
    (hx : box.contains x = true) (hstore : store.Consistent)
    (hle : b.time - w.reached ≤ w.ahead) :
    Tracks box x g (Walk.passed box x g w b rest) rest := by
  have hstopped := h.on.stop (b.time - w.reached)
  have hdt : 0 ≤ b.time - w.reached := sub_nonneg.mpr (h.on.ahead b List.mem_cons_self)
  have hdecr := h.decreasing_to hx hstore.toTabulated (h.on.ahead b List.mem_cons_self)
    h.on.time_le (h.expects hle)
  rw [h.passed_eq hx hstore]
  set v := w.velocity[b.index]
  set raw := w.curvature - 2 * v * (store.dense *ᵥ coords w.velocity) b.index +
    v * v * (store.dense *ᵥ Pi.single b.index 1) b.index with hraw
  refine
    { on := hstopped.congr rfl rfl rfl
      elapsed_eq := ?_
      p_eq := rfl
      c_eq := rfl
      floor_pos := h.floor_pos
      curvature_pos := lt_of_lt_of_le h.floor_pos (le_max_right _ _)
      slope_le := ?_
      curvature_le := ?_
      slope_eq := ?_
      curvature_eq := ?_
      ahead_eq := ?_
      ahead_eq_zero := ?_
      decreasing := hdecr
      progress := .inl (h.time_pos hx) }
  · change w.elapsed + (b.time - w.reached) = b.time
    rw [h.elapsed_eq]
    ring
  · refine (h.on.trueSlope_stop hx rfl).trans_le ?_
    have hslope := h.slope_le
    have hcurv := mul_le_mul_of_nonneg_left h.curvature_le hdt
    linarith
  · refine le_trans ((trueCurvature_stop hstore.toTabulated rfl).trans_le ?_) (le_max_left _ _)
    have hcurv := h.curvature_le
    linarith
  · intro hfloored
    obtain ⟨hold, -⟩ := Bool.or_eq_false_iff.mp hfloored
    refine Eq.trans ?_ (h.on.trueSlope_stop hx rfl).symm
    rw [← h.slope_eq hold, ← h.curvature_eq hold]
  · intro hfloored
    obtain ⟨hold, hnew⟩ := Bool.or_eq_false_iff.mp hfloored
    have hge := not_lt.mp (of_decide_eq_false hnew)
    refine (max_eq_left hge).trans (Eq.trans ?_ (trueCurvature_stop hstore.toTabulated rfl).symm)
    rw [hraw, h.curvature_eq hold]
  · intro hmore
    apply if_pos
    rw [Bool.or_eq_true]
    rcases hmore with hne | hend
    · left
      cases rest with
      | nil => exact absurd rfl hne
      | cons c rest => rfl
    · exact .inr hend
  · intro hnil hend
    apply if_neg
    rw [hnil, hend]
    exact Bool.false_ne_true

end

end Walk

end BoxDescent
