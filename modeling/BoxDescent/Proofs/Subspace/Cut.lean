import BoxDescent.Proofs.Reach
import BoxDescent.Proofs.Subspace.Reduced

/-!
# The cut

The step from the Cauchy point is cut to the longest share of it that stays in the box.
The variable that ends the cut is put on its limit, and the end point is projected; with
real scalars neither changes anything.
-/

namespace BoxDescent

namespace SubspaceStep

variable {n : Nat} {box : Box ℝ n} {xc : Vector ℝ n} {free : List (Fin n)}
  {du : Vector ℝ free.length} {alpha : ℝ} {hit : Option (Fin free.length)}

/-- The share `alpha` of the step is the longest one that the first `k` of the free variables
admit; if it is not the whole step, the variable at position `hit` is on its limit there. -/
structure CutBy (box : Box ℝ n) (xc : Vector ℝ n) (free : List (Fin n))
    (du : Vector ℝ free.length) (k : Nat) (alpha : ℝ) (hit : Option (Fin free.length)) :
    Prop where
  nonneg : 0 ≤ alpha
  le_one : alpha ≤ 1
  admits_iff : ∀ t, 0 ≤ t → t ≤ 1 →
    ((∀ j : Fin free.length, j.val < k →
      (box.kind (free.get j)).Admits (xc[free.get j] + t * du[j])) ↔ t ≤ alpha)
  eq_one : hit = none → alpha = 1
  on_limit : ∀ j ∈ hit, alpha < 1 ∧
    ((du[j] < 0 ∧ xc[free.get j] + alpha * du[j] ∈ (box.kind (free.get j)).lower?) ∨
      (0 < du[j] ∧ xc[free.get j] + alpha * du[j] ∈ (box.kind (free.get j)).upper?))

theorem CutBy.longestFor {k : Nat} (h : CutBy box xc free du k alpha hit) :
    Bound.LongestFor (fun j => box.kind (free.get j)) (fun j => xc[free.get j]) (fun j => du[j]) 1
      k alpha :=
  ⟨h.nonneg, h.le_one, h.admits_iff⟩

theorem cutBy_longest (hxc : box.contains xc = true) (free : List (Fin n))
    (du : Vector ℝ free.length) :
    CutBy box xc free du free.length (longest box xc free du).1 (longest box xc free du).2 := by
  refine foldl_invariant (fun (k : Nat) (acc : ℝ × Option (Fin free.length)) =>
    CutBy box xc free du k acc.1 acc.2) ?_ ?_
  · exact
      { nonneg := zero_le_one
        le_one := le_refl 1
        admits_iff := fun t _ ht => ⟨fun _ => ht, fun _ j hj => absurd hj (Nat.not_lt_zero _)⟩
        eq_one := fun _ => rfl
        on_limit := fun j hj => by cases hj }
  · intro i acc h
    have hreach := Bound.reaches_reach (Box.contains_iff.mp hxc (free.get i)) h.nonneg du[i]
    have hmore := (h.longestFor.next (Box.contains_iff.mp hxc (free.get i))).admits_iff
    dsimp only
    split
    · rename_i hlt
      exact
        { nonneg := hreach.nonneg
          le_one := le_trans hreach.le_cap h.le_one
          admits_iff := hmore
          eq_one := fun hnone => by cases hnone
          on_limit := by
            intro j hj
            cases hj
            exact ⟨lt_of_lt_of_le hlt h.le_one, hreach.on_limit hlt⟩ }
    · rename_i hnlt
      rw [le_antisymm hreach.le_cap (not_lt.mp hnlt)] at hmore
      exact
        { nonneg := h.nonneg
          le_one := h.le_one
          admits_iff := hmore
          eq_one := h.eq_one
          on_limit := h.on_limit }

theorem CutBy.eq_one_iff {k : Nat} (h : CutBy box xc free du k alpha hit) :
    hit = none ↔ alpha = 1 := by
  refine ⟨h.eq_one, ?_⟩
  intro hone
  rw [Option.eq_none_iff_forall_ne_some]
  intro j hj
  exact ne_of_lt (h.on_limit j hj).1 hone

/-- Along a step only the free variables can leave the box. -/
theorem contains_along_iff (hxc : box.contains xc = true) (hfree : free.Nodup) {t : ℝ} :
    box.contains (addScaled xc t (scatter free du)) = true ↔
      ∀ j : Fin free.length, (box.kind (free.get j)).Admits (xc[free.get j] + t * du[j]) := by
  rw [Box.contains_addScaled_iff]
  constructor
  · intro h j
    have hj := h (free.get j)
    rw [coords_scatter_get hfree] at hj
    exact hj
  · intro h i
    by_cases hi : i ∈ free
    · obtain ⟨j, rfl⟩ := List.mem_iff_get.mp hi
      rw [coords_scatter_get hfree]
      exact h j
    · rw [coords_scatter_of_not_mem hi, mul_zero, add_zero]
      exact Box.contains_iff.mp hxc i

theorem CutBy.isGreatest (hxc : box.contains xc = true) (hfree : free.Nodup)
    (h : CutBy box xc free du free.length alpha hit) :
    IsGreatest {t | t ∈ Set.Icc 0 1 ∧ box.contains (addScaled xc t (scatter free du)) = true}
      alpha := by
  simp only [contains_along_iff hxc hfree]
  exact h.longestFor.isGreatest

/-! ### The end point -/

theorem coords_moved (hfree : free.Nodup) (xc : Vector ℝ n) (du : Vector ℝ free.length)
    (alpha : ℝ) :
    coords (Fin.foldl free.length (fun acc j =>
      acc.set (free.get j) (xc[free.get j] + alpha * du[j]) (free.get j).isLt) xc) =
        coords xc + alpha • coords (scatter free du) := by
  have hinj := List.nodup_iff_injective_get.mp hfree
  obtain ⟨hset, hrest⟩ := foldl_invariant
    (fun k acc => (∀ j : Fin free.length, j.val < k →
        coords acc (free.get j) = coords xc (free.get j) + alpha * coords du j) ∧
      ∀ i, (∀ j : Fin free.length, j.val < k → free.get j ≠ i) → coords acc i = coords xc i)
    (f := fun acc j => acc.set (free.get j) (xc[free.get j] + alpha * du[j])) (a := xc)
    ⟨fun j hj => absurd hj (Nat.not_lt_zero _), fun _ _ => rfl⟩ (by
      rintro k acc ⟨hset, hrest⟩
      constructor
      · intro j hj
        rw [coords_set]
        rcases Nat.lt_succ_iff_lt_or_eq.mp hj with hlt | heq
        · have hne : free.get j ≠ free.get k := fun he => ne_of_lt hlt (congrArg Fin.val (hinj he))
          rw [Function.update_of_ne hne]
          exact hset j hlt
        · have hjk : j = k := Fin.ext heq
          rw [hjk, Function.update_self]
          rfl
      · intro i hi
        rw [coords_set, Function.update_of_ne (Ne.symm (hi k (Nat.lt_succ_self _)))]
        exact hrest i fun j hj => hi j (Nat.lt_succ_of_lt hj))
  funext i
  rw [Pi.add_apply, Pi.smul_apply, smul_eq_mul]
  by_cases hi : i ∈ free
  · obtain ⟨j, rfl⟩ := List.mem_iff_get.mp hi
    rw [hset j j.isLt, coords_scatter_get hfree]
  · rw [coords_scatter_of_not_mem hi, mul_zero, add_zero]
    exact hrest i fun j _ he => hi (he ▸ List.get_mem free j)

/-- Putting the variable that ends the cut on its limit changes nothing. -/
theorem coords_endPoint (hfree : free.Nodup) (h : CutBy box xc free du free.length alpha hit) :
    coords (endPoint box xc free du alpha hit) =
      coords xc + alpha • coords (scatter free du) := by
  have hmoved := coords_moved hfree xc du alpha
  cases hit with
  | none => exact hmoved
  | some j =>
    have hplace : (coords xc + alpha • coords (scatter free du)) (free.get j) =
        xc[free.get j] + alpha * du[j] := by
      rw [Pi.add_apply, Pi.smul_apply, coords_scatter_get hfree]
      rfl
    have hedge : (if 0 < du[j] then (box.kind (free.get j)).upper?
        else (box.kind (free.get j)).lower?) = some (xc[free.get j] + alpha * du[j]) := by
      rcases (h.on_limit j rfl).2 with ⟨hneg, hl⟩ | ⟨hpos, hu⟩
      · rw [if_neg (lt_asymm hneg)]
        exact hl
      · rw [if_pos hpos]
        exact hu
    simp only [endPoint, hedge]
    rw [coords_set, hmoved, ← hplace, Function.update_eq_self]

theorem endPoint_of_not_mem (hfree : free.Nodup) (h : CutBy box xc free du free.length alpha hit)
    {i : Fin n} (hi : i ∉ free) : (endPoint box xc free du alpha hit)[i] = xc[i] := by
  rw [← coords_apply, coords_endPoint hfree h, Pi.add_apply, Pi.smul_apply,
    coords_scatter_of_not_mem hi, smul_zero, add_zero, coords_apply]

theorem endPoint_get (hfree : free.Nodup) (h : CutBy box xc free du free.length alpha hit)
    (j : Fin free.length) :
    (endPoint box xc free du alpha hit)[free.get j] = xc[free.get j] + alpha * du[j] := by
  rw [← coords_apply, coords_endPoint hfree h, Pi.add_apply, Pi.smul_apply,
    coords_scatter_get hfree, smul_eq_mul, coords_apply, coords_apply]

theorem contains_endPoint (hxc : box.contains xc = true) (hfree : free.Nodup)
    (h : CutBy box xc free du free.length alpha hit) :
    box.contains (endPoint box xc free du alpha hit) = true := by
  have hend : endPoint box xc free du alpha hit = addScaled xc alpha (scatter free du) := by
    apply coords_injective
    rw [coords_endPoint hfree h, coords_addScaled]
  rw [hend]
  exact (h.isGreatest hxc hfree).1.2

/-! ### The whole step -/

variable [DenseSolver ℝ] {cap : Nat} {store : Store ℝ n cap} {x g : Vector ℝ n}
  {cp : CauchyPoint ℝ n store.size}

/-- The step before it is cut. -/
noncomputable def uncut (store : Store ℝ n cap) (x g : Vector ℝ n)
    (cp : CauchyPoint ℝ n store.size) : Vector ℝ cp.free.length :=
  (newton? store cp.free (reducedGradient store x g cp)).getD
    (divide (reducedGradient store x g cp) store.theta)

theorem uncut_of_newton? {du : Vector ℝ cp.free.length}
    (h : newton? store cp.free (reducedGradient store x g cp) = some du) :
    uncut store x g cp = du := by
  rw [uncut, h]
  rfl

/-- With real scalars no step overflows. -/
theorem of_eq (box : Box ℝ n) (store : Store ℝ n cap) (x g : Vector ℝ n)
    (cp : CauchyPoint ℝ n store.size) (hfree : cp.free ≠ []) :
    of box store x g cp =
      let cut := longest box cp.xc cp.free (uncut store x g cp)
      { xbar := box.project (endPoint box cp.xc cp.free (uncut store x g cp) cut.1 cut.2)
        truncatedAt := cut.2.map cp.free.get
        unsolved := (newton? store cp.free (reducedGradient store x g cp)).isNone
        overflowed := false } := by
  have hempty : ¬cp.free.isEmpty = true := fun he => hfree (List.isEmpty_iff.mp he)
  simp only [of, if_neg hempty, allFinite_real, if_true, Bool.not_true]
  rfl

/-- The end point is on the way from the Cauchy point along the step before the cut. -/
theorem coords_xbar (hxc : box.contains cp.xc = true) (hnodup : cp.free.Nodup)
    (hfree : cp.free ≠ []) :
    ∃ alpha hit, CutBy box cp.xc cp.free (uncut store x g cp) cp.free.length alpha hit ∧
      (of box store x g cp).truncatedAt = hit.map cp.free.get ∧
      coords (of box store x g cp).xbar =
        coords cp.xc + alpha • coords (scatter cp.free (uncut store x g cp)) := by
  have hcut := cutBy_longest hxc cp.free (uncut store x g cp)
  refine ⟨_, _, hcut, ?_, ?_⟩
  · rw [of_eq _ _ _ _ _ hfree]
  · rw [of_eq _ _ _ _ _ hfree]
    simp only
    rw [Box.project_of_contains (contains_endPoint hxc hnodup hcut), coords_endPoint hnodup hcut]

theorem truncatedAt_unbounded : (of (.unbounded n) store x g cp).truncatedAt = none := by
  by_cases hfree : cp.free = []
  · rw [of_of_free_eq_nil hfree]
  · have hcut := cutBy_longest (Box.contains_unbounded cp.xc) cp.free (uncut store x g cp)
    rw [of_eq _ _ _ _ _ hfree]
    rw [Option.map_eq_none_iff, Option.eq_none_iff_forall_ne_some]
    intro j hj
    rcases (hcut.on_limit j hj).2 with ⟨-, hl⟩ | ⟨-, hu⟩
    · rw [Box.kind_unbounded] at hl
      cases hl
    · rw [Box.kind_unbounded] at hu
      cases hu

theorem contains_xbar (hxc : box.contains cp.xc = true) :
    box.contains (of box store x g cp).xbar = true := by
  by_cases hfree : cp.free = []
  · rw [of_of_free_eq_nil hfree]
    exact hxc
  · rw [of_eq _ _ _ _ _ hfree]
    exact Box.contains_project _

/-- Also where no variable is free, the end point is that of the cut step. -/
theorem parts_of (hxc : box.contains cp.xc = true) :
    let du := uncut store x g cp
    let cut := longest box cp.xc cp.free du
    (of box store x g cp).xbar = box.project (endPoint box cp.xc cp.free du cut.1 cut.2) ∧
      (of box store x g cp).truncatedAt = cut.2.map cp.free.get := by
  intro du cut
  by_cases hfree : cp.free = []
  · obtain ⟨xc, free, active, c, segments⟩ := cp
    obtain rfl : free = [] := hfree
    exact ⟨(Box.project_of_contains hxc).symm, rfl⟩
  · rw [of_eq _ _ _ _ _ hfree]
    exact ⟨rfl, rfl⟩

/-- The step goes along `du` as far as the box admits, at most all the way.  It is cut by a free
variable that `du` takes to its limit, or not at all; and its end needs no projection. -/
theorem cuts_at_first_limit (box : Box ℝ n) (store : Store ℝ n cap) (x g : Vector ℝ n)
    (cp : CauchyPoint ℝ n store.size) (hxc : box.contains cp.xc = true)
    (hnodup : cp.free.Nodup) :
    let du := uncut store x g cp
    let cut := longest box cp.xc cp.free du
    let z := endPoint box cp.xc cp.free du cut.1 cut.2
    let step := of box store x g cp
    IsGreatest {t | t ∈ Set.Icc 0 1 ∧
        box.contains (addScaled cp.xc t (scatter cp.free du)) = true} cut.1 ∧
      (∀ i, i ∉ cp.free → step.xbar[i] = cp.xc[i]) ∧
      (∀ j : Fin cp.free.length,
        step.xbar[cp.free.get j] = cp.xc[cp.free.get j] + cut.1 * du[j]) ∧
      (step.truncatedAt = none ↔ cut.1 = 1) ∧
      (∀ i, step.truncatedAt = some i → ∃ j : Fin cp.free.length, cp.free.get j = i ∧
        ((du[j] < 0 ∧ step.xbar[i] ∈ (box.kind i).lower?) ∨
          (0 < du[j] ∧ step.xbar[i] ∈ (box.kind i).upper?))) ∧
      step.xbar = z ∧ box.project z = z ∧ box.contains step.xbar = true := by
  intro du cut z step
  have hcut : CutBy box cp.xc cp.free du cp.free.length cut.1 cut.2 :=
    cutBy_longest hxc cp.free du
  have hz : box.contains z = true := contains_endPoint hxc hnodup hcut
  have hproject : box.project z = z := Box.project_of_contains hz
  obtain ⟨hxbar, htruncated⟩ := parts_of (x := x) (g := g) hxc
  have hend : step.xbar = z := hxbar.trans hproject
  rw [hend]
  refine ⟨hcut.isGreatest hxc hnodup, fun i => endPoint_of_not_mem hnodup hcut,
    endPoint_get hnodup hcut, ?_, ?_, rfl, hproject, hz⟩
  · rw [htruncated, Option.map_eq_none_iff]
    exact hcut.eq_one_iff
  · intro i hi
    obtain ⟨j, hj, rfl⟩ := Option.map_eq_some_iff.mp (htruncated.symm.trans hi)
    refine ⟨j, rfl, ?_⟩
    rw [endPoint_get hnodup hcut j]
    exact (hcut.on_limit j hj).2

/-! ### A variable on its limit and a free one -/

open Box (corner)

/-- The first variable is on its limit and not free. -/
noncomputable def onEdge : CauchyPoint ℝ 2 (Store.empty : Store ℝ 2 1).size where
  xc := ⟨#[2, 1], Eq.refl 2⟩
  free := [1]
  active := [0]
  c := (Store.empty : Store ℝ 2 1).zeroCompact
  segments := 0

/-- Without corrections the step divides the negative gradient of the model by the scaling. -/
theorem uncut_of_isEmpty (h : store.isEmpty = true) (j : Fin cp.free.length) :
    (uncut store x g cp)[j] =
      -(g[cp.free.get j] + store.theta * (cp.xc[cp.free.get j] - x[cp.free.get j])) /
        store.theta := by
  simp only [uncut, newton?, reducedGradient, h, if_true, Option.getD_some, getElem_divide]
  rw [← coords_apply, coords_map]
  rfl

theorem uncut_onEdge : uncut Store.empty #v[1, 1] #v[-1, 4] onEdge = #v[-4] := by
  apply eq_of_one_variable
  have hentry : coords (uncut Store.empty #v[1, 1] #v[-1, 4] onEdge) (0 : Fin 1) =
      -((4 : ℝ) + 1 * (1 - 1)) / 1 := uncut_of_isEmpty rfl _
  refine hentry.trans ?_
  change -((4 : ℝ) + 1 * (1 - 1)) / 1 = -4
  norm_num

omit [DenseSolver ℝ] in
theorem longest_onEdge : longest corner #v[2, 1] [1] #v[-4] = (1 / 4, some 0) := by
  have hreach : (corner.kind 1).reach 1 (-4) 1 = 1 / 4 := by
    rw [Box.kind_corner_one]
    norm_num [Bound.reach, Bound.lower?]
  change (if (corner.kind 1).reach 1 (-4) 1 < 1 then
    ((corner.kind 1).reach 1 (-4) 1, some (0 : Fin 1)) else (1, none)) = (1 / 4, some 0)
  rw [hreach, if_pos (by norm_num)]

omit [DenseSolver ℝ] in
/-- The first variable stays on its limit; the second one is cut after a quarter of the step. -/
theorem cuts_at_first_limit_on_edge :
    let _ := DenseSolver.symmetric ℝ
    let store : Store ℝ 2 1 := Store.empty
    let du := uncut store #v[1, 1] #v[-1, 4] onEdge
    let step := of corner store #v[1, 1] #v[-1, 4] onEdge
    corner.contains onEdge.xc = true ∧ onEdge.free.Nodup ∧ (0 : Fin 2) ∉ onEdge.free ∧
      du = #v[-4] ∧ step.truncatedAt = some 1 ∧ step.xbar = #v[2, 0] ∧
      IsGreatest {t : ℝ | t ∈ Set.Icc 0 1 ∧
        corner.contains (addScaled onEdge.xc t (scatter onEdge.free du)) = true} (1 / 4) ∧
      corner.contains step.xbar = true := by
  intro solver store du step
  have hxc : corner.contains onEdge.xc = true := Box.contains_corner le_rfl zero_le_one
  have hnodup : onEdge.free.Nodup := List.nodup_singleton 1
  have hoff : (0 : Fin 2) ∉ onEdge.free := by decide
  have hdu : du = #v[-4] := uncut_onEdge
  have hcut : longest corner onEdge.xc onEdge.free du = (1 / 4, some (0 : Fin 1)) :=
    (congrArg (longest corner #v[2, 1] [1]) hdu).trans longest_onEdge
  obtain ⟨hgreatest, hstays, hmoves, hwhole, hlimit, -, -, hinside⟩ :=
    cuts_at_first_limit corner store #v[1, 1] #v[-1, 4] onEdge hxc hnodup
  have hshare : (longest corner onEdge.xc onEdge.free du).1 = 1 / 4 := congrArg Prod.fst hcut
  have htruncated : step.truncatedAt = some 1 := by
    cases htrunc : step.truncatedAt with
    | none =>
      have hone := hwhole.mp htrunc
      rw [hshare] at hone
      norm_num at hone
    | some i =>
      obtain ⟨j, hj, -⟩ := hlimit i htrunc
      rw [← hj]
      exact congrArg some (List.mem_singleton.mp (List.get_mem onEdge.free j))
  have hxbar : step.xbar = #v[2, 0] := by
    apply coords_injective
    funext i
    fin_cases i
    · exact hstays 0 hoff
    · refine (hmoves (0 : Fin 1)).trans ?_
      rw [hshare]
      have hentry : du[(0 : Fin 1)] = -4 := congrArg (fun v : Vector ℝ 1 => v[(0 : Fin 1)]) hdu
      change (1 : ℝ) + 1 / 4 * du[(0 : Fin 1)] = 0
      rw [hentry]
      norm_num
  rw [hshare] at hgreatest
  exact ⟨hxc, hnodup, hoff, hdu, htruncated, hxbar, hgreatest, hinside⟩

end SubspaceStep

end BoxDescent
