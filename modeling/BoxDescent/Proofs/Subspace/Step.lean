import BoxDescent.Proofs.Cauchy.Inside
import BoxDescent.Proofs.Cauchy.Unbounded
import BoxDescent.Proofs.Subspace.Solvable

/-!
# The subspace step

When the reduced system is solved exactly, the step before the cut is the Newton step of
the model on the free variables.  Taken as a whole it leads to the minimizer of the model
among the points that agree with the Cauchy point elsewhere; cut, it does not raise the
model.
-/

namespace BoxDescent

open Matrix

/-! ### Minima and descent of a parabola -/

namespace Model

variable {n : Nat} {B : Matrix (Fin n) (Fin n) ℝ} {g s d : Fin n → ℝ}

theorem value_zero : value B g 0 = 0 := by
  rw [value, dotProduct_zero, zero_dotProduct]
  ring

/-- Where the gradient vanishes along `d`, every step along `d` raises the model. -/
theorem value_lt_of_slope_eq_zero (hB : B.PosDef) (hs : slope B g s d = 0) (hd : d ≠ 0) :
    value B g s < value B g (s + d) := by
  obtain ⟨hsymm, hpos⟩ := posDef_iff_real.mp hB
  have hcurv : 0 < curvature B d := hpos d hd
  have hvalue := value_add_smul (g := g) (s := s) (d := d) hsymm 1
  rw [one_smul, hs] at hvalue
  rw [hvalue]
  linarith

/-- Up to its minimum the model does not increase along `d`. -/
theorem value_add_smul_le (hB : B.PosDef) (hs : slope B g s d = -curvature B d) {t : ℝ}
    (h0 : 0 ≤ t) (h1 : t ≤ 1) : value B g (s + t • d) ≤ value B g s := by
  have hcurv : 0 ≤ curvature B d := by
    by_cases hd : d = 0
    · rw [hd, curvature, zero_dotProduct]
    · exact le_of_lt ((posDef_iff_real.mp hB).2 d hd)
  have hgain : t * slope B g s d + t ^ 2 / 2 * curvature B d =
      -(t * (1 - t / 2) * curvature B d) := by
    rw [hs]
    ring
  have hnonneg : 0 ≤ t * (1 - t / 2) * curvature B d := by
    have hfactor : 0 ≤ 1 - t / 2 := by linarith
    positivity
  rw [value_add_smul (posDef_iff_real.mp hB).1, hgain]
  linarith

/-- A step that lowers a convex model goes downhill. -/
theorem dotProduct_neg_of_value_neg (hB : B.PosDef) (h : value B g s < 0) : g ⬝ᵥ s < 0 := by
  have hform : 0 ≤ s ⬝ᵥ B *ᵥ s := by
    by_cases hs : s = 0
    · rw [hs, zero_dotProduct]
    · exact le_of_lt ((posDef_iff_real.mp hB).2 s hs)
  rw [value] at h
  linarith

end Model

/-! ### What the search leaves behind -/

namespace CauchySearch

variable [DenseSolver ℝ] {n cap : Nat} {store : Store ℝ n cap} {box : Box ℝ n}
  {x g : Vector ℝ n}

theorem nodup_free (box : Box ℝ n) (store : Store ℝ n cap) (x g : Vector ℝ n) :
    (of box store x g).free.Nodup := by
  unfold of
  dsimp only
  split
  · exact (List.nodup_finRange n).filter _
  · exact (List.nodup_finRange n).filter _

end CauchySearch

/-! ### The Newton step -/

namespace SubspaceStep

open CauchySearch (modelChange modelChange_eq xc_tied)

variable [DenseSolver ℝ] {n cap : Nat} {store : Store ℝ n cap} {box : Box ℝ n}
  {x g : Vector ℝ n} {cp : CauchyPoint ℝ n store.size} [ExactFactor ℝ]

section

variable (hstore : store.Consistent)

include hstore

/-- The negative gradient of the model at the Cauchy point, on the free variables. -/
theorem coords_reducedGradient (hc : cp.c = store.wTranspose (cp.xc - x))
    (j : Fin cp.free.length) :
    coords (reducedGradient store x g cp) j =
      -(coords g + store.dense *ᵥ coords (cp.xc - x)) (cp.free.get j) := by
  have hentry : coords ((freeVector cp.free).map fun i =>
      -(g[i] + store.theta * (cp.xc[i] - x[i]))) j =
        -(coords g (cp.free.get j) + store.theta * coords (cp.xc - x) (cp.free.get j)) := by
    rw [coords_map, coords_sub]
    rfl
  rw [← hstore.applyForward_eq, Pi.add_apply]
  cases hempty : store.isEmpty with
  | true =>
    simp only [reducedGradient, hempty, if_true]
    rw [hentry, Store.coords_applyForward_of_empty hempty]
    rfl
  | false =>
    simp only [reducedGradient, hempty, Bool.false_eq_true, if_false]
    rw [coords_add, Pi.add_apply, hentry, hc, Store.coords_applyForward hempty]
    have hrow : coords (Mat.mulVec (store.wRows (freeVector cp.free))
        (store.middleTimes (store.wTranspose (cp.xc - x)))) j = _ := coords_mulVec_freeRows _ j
    rw [hrow, Pi.sub_apply, Pi.smul_apply, smul_eq_mul]
    ring

/-- The step before the cut solves the system with `B_F`. -/
theorem applyForward_of_newton? (hnodup : cp.free.Nodup) {r du : Vector ℝ cp.free.length}
    (hexact : SolvedExactly store cp.free r) (hdu : newton? store cp.free r = some du)
    (j : Fin cp.free.length) :
    coords (store.applyForward (scatter cp.free du)) (cp.free.get j) = coords r j := by
  cases hempty : store.isEmpty with
  | true =>
    have htheta : store.theta ≠ 0 := ne_of_gt hstore.theta_pos
    have hdiv : divide r store.theta = du := by
      simpa only [newton?, hempty, if_true, Option.some.injEq] using hdu
    rw [Store.coords_applyForward_of_empty hempty, Pi.smul_apply, coords_scatter_get hnodup, ← hdiv,
      coords_divide, Pi.smul_apply, smul_eq_mul, smul_eq_mul, mul_inv_cancel_left₀ htheta]
  | false =>
    simp only [newton?, hempty, Bool.false_eq_true, if_false] at hdu
    obtain ⟨q, hq, rfl⟩ := Option.map_eq_some_iff.mp hdu
    exact applyForward_newtonStep hstore hnodup (hexact q hq) j

section

variable (hnodup : cp.free.Nodup) (hc : cp.c = store.wTranspose (cp.xc - x))
  {du : Vector ℝ cp.free.length}
  (hexact : SolvedExactly store cp.free (reducedGradient store x g cp))
  (hdu : newton? store cp.free (reducedGradient store x g cp) = some du)

include hnodup hc hexact hdu

/-- Behind the whole step the gradient of the model vanishes on the free variables. -/
theorem gradient_eq_zero {i : Fin n} (hi : i ∈ cp.free) :
    (coords g + store.dense *ᵥ (coords (cp.xc - x) + coords (scatter cp.free du))) i = 0 := by
  obtain ⟨j, rfl⟩ := List.mem_iff_get.mp hi
  have hstep := applyForward_of_newton? hstore hnodup hexact hdu j
  rw [hstore.applyForward_eq, coords_reducedGradient hstore hc] at hstep
  rw [mulVec_add, ← add_assoc, Pi.add_apply, hstep]
  exact add_neg_cancel _

/-- So the slope of the model vanishes there along every direction in the free variables. -/
theorem slope_eq_zero {e : Fin n → ℝ} (he : ∀ i, i ∉ cp.free → e i = 0) :
    Model.slope store.dense (coords g) (coords (cp.xc - x) + coords (scatter cp.free du)) e =
      0 := by
  rw [Model.slope, dotProduct]
  apply Finset.sum_eq_zero
  intro i _
  by_cases hi : i ∈ cp.free
  · rw [gradient_eq_zero hstore hnodup hc hexact hdu hi, mul_zero]
  · rw [he i hi, zero_mul]

/-- Along the step the slope of the model starts as its negative curvature. -/
theorem slope_newton :
    Model.slope store.dense (coords g) (coords (cp.xc - x)) (coords (scatter cp.free du)) =
      -Model.curvature store.dense (coords (scatter cp.free du)) := by
  have hend := slope_eq_zero hstore hnodup hc hexact hdu
    fun i hi => coords_scatter_of_not_mem hi du
  have halong := Model.slope_add_smul (B := store.dense) (g := coords g)
    (s := coords (cp.xc - x)) (d := coords (scatter cp.free du)) 1
  rw [one_smul, hend] at halong
  linarith

end

end

/-! ### Where the step leads -/

omit [ExactFactor ℝ] in
/-- A step that does not fall back is made of an accepted solution. -/
theorem exists_newton? (hfree : cp.free ≠ []) (h : (of box store x g cp).fallback = false) :
    ∃ du, newton? store cp.free (reducedGradient store x g cp) = some du := by
  rw [of_eq _ _ _ _ _ hfree, fallback, Bool.or_false, Option.isNone_eq_false_iff] at h
  exact Option.isSome_iff_exists.mp h

/-! ### A step behind a tie -/

section

omit [ExactFactor ℝ] in
theorem solves_tied [ExactProposal] {store : Store ℝ 2 1} (h : store.Tabulated)
    (hpairs : store.pairs = [Store.correction #v[1, 1] #v[1, 3]]) {free : List (Fin 2)}
    (hfree : free = [1]) (r : Vector ℝ free.length) : Solves store free r := by
  have hs : (#v[1, 1] : Vector ℝ 2)[(1 : Fin 2)] = 1 := rfl
  have hy : (#v[1, 3] : Vector ℝ 2)[(1 : Fin 2)] = 3 := rfl
  refine solves_of_single h hpairs (t := 5 / 2) (u := 38 / 5) (v := 3) (w := 5 / 2) (c := 8)
    ?_ ?_ ?_ ?_ ?_ ?_ ?_ ?_ ?_ r
  · rw [dot_pair, dot_pair]
    norm_num
  · rw [dot_pair, hfree, List.map_singleton, List.sum_singleton, hy]
    norm_num
  · rw [hfree, List.map_singleton, List.sum_singleton, hs, hy]
    norm_num
  · rw [dot_pair, hfree, List.map_singleton, List.sum_singleton, hs]
    norm_num
  · norm_num [abs_of_pos]
  · norm_num
  · norm_num [abs_of_pos]
  · norm_num
  · norm_num [conditionLimit]

variable {store : Store ℝ 2 1} (hstore : store.Consistent)
  (hsecant : store.dense *ᵥ coords #v[1, 1] = coords #v[1, 3])

include hstore hsecant

/-- At the Cauchy point the model rises with the variable that is free there. -/
theorem gradient_tied :
    let x : Vector ℝ 2 := #v[0, 0]
    let g : Vector ℝ 2 := #v[-1, -1]
    let cp := (CauchySearch.of tiedBox store x g).toCauchyPoint
    (coords g + store.dense *ᵥ coords (cp.xc - x)) 1 = 1 / 8 := by
  intro x g cp
  have hxc : cp.xc = #v[3 / 8, 3 / 8] := xc_tied hstore hsecant
  have hway : coords (cp.xc - x) = (3 / 8 : ℝ) • coords #v[1, 1] := by
    rw [coords_sub, hxc]
    funext i
    fin_cases i
    · show (3 / 8 : ℝ) - 0 = 3 / 8 * 1
      norm_num
    · show (3 / 8 : ℝ) - 0 = 3 / 8 * 1
      norm_num
  rw [hway, mulVec_smul, hsecant]
  show (-1 : ℝ) + 3 / 8 * 3 = 1 / 8
  norm_num

/-- So the step goes down from its limit. -/
theorem newton_tied :
    let x : Vector ℝ 2 := #v[0, 0]
    let g : Vector ℝ 2 := #v[-1, -1]
    let cp := (CauchySearch.of tiedBox store x g).toCauchyPoint
    ∀ du, newton? store cp.free (reducedGradient store x g cp) = some du →
      SolvedExactly store cp.free (reducedGradient store x g cp) →
        ∀ j : Fin cp.free.length, cp.free.get j = 1 ∧ du[j] < 0 := by
  intro x g cp du hdu hexact j
  have hfree : cp.free = [1] := (sides_tied hstore hsecant).2
  have hall : ∀ i ∈ cp.free, i = 1 := by
    rw [hfree]
    exact fun i hi => List.mem_singleton.mp hi
  have hget : ∀ l : Fin cp.free.length, cp.free.get l = 1 := fun l =>
    hall _ (List.get_mem cp.free l)
  have hnodup : cp.free.Nodup := CauchySearch.nodup_free tiedBox store x g
  have hc : cp.c = store.wTranspose (cp.xc - x) := CauchySearch.c_eq hstore contains_tied
  have hforce : ∀ l, coords (store.applyForward (scatter cp.free du)) (cp.free.get l) = -1 / 8 := by
    intro l
    rw [applyForward_of_newton? hstore hnodup hexact hdu, coords_reducedGradient hstore hc, hget,
      gradient_tied hstore hsecant]
    norm_num
  have hne : coords du ≠ 0 := by
    intro hzero
    have hstill : coords (scatter cp.free du) = 0 := by
      funext i
      rw [coords_scatter, hzero]
      simp
    have hforced := hforce j
    rw [hstore.applyForward_eq, hstill, mulVec_zero] at hforced
    norm_num at hforced
  have hpos := dotProduct_applyForward_pos hstore hnodup hne
  simp only [hforce, ← Finset.mul_sum] at hpos
  have hsingle : Subsingleton (Fin cp.free.length) := by
    rw [hfree]
    exact inferInstanceAs (Subsingleton (Fin 1))
  rw [Fintype.sum_subsingleton _ j, coords_apply] at hpos
  exact ⟨hget j, by linarith⟩

/-- There are no limits below, so the step is taken whole. -/
theorem whole_tied :
    let x : Vector ℝ 2 := #v[0, 0]
    let g : Vector ℝ 2 := #v[-1, -1]
    let cp := (CauchySearch.of tiedBox store x g).toCauchyPoint
    let step := of tiedBox store x g cp
    step.fallback = false → SolvedExactly store cp.free (reducedGradient store x g cp) →
      step.truncatedAt = none ∧ step.xbar[(1 : Fin 2)] < cp.xc[(1 : Fin 2)] := by
  intro x g cp step hfallback hexact
  have hfree : cp.free = [1] := (sides_tied hstore hsecant).2
  have hne : cp.free ≠ [] := by
    rw [hfree]
    exact List.cons_ne_nil 1 []
  have hnodup : cp.free.Nodup := CauchySearch.nodup_free tiedBox store x g
  have hxc : tiedBox.contains cp.xc = true := CauchySearch.contains_xc contains_tied store g
  obtain ⟨du, hdu⟩ := exists_newton? hne hfallback
  have hdown := newton_tied hstore hsecant du hdu hexact
  obtain ⟨alpha, hit, hcut, htruncated, hxbar⟩ := coords_xbar hxc hnodup hne (x := x) (g := g)
  rw [uncut_of_newton? hdu] at hcut hxbar
  have hhit : hit = none := by
    rw [Option.eq_none_iff_forall_ne_some]
    intro j hj
    rcases (hcut.on_limit j hj).2 with ⟨-, hlower⟩ | ⟨hup, -⟩
    · rw [kind_tiedBox] at hlower
      cases hlower
    · exact lt_asymm hup (hdown j).2
  refine ⟨htruncated.trans (Option.map_eq_none_iff.mpr hhit), ?_⟩
  have hlength : 0 < cp.free.length := List.length_pos_of_ne_nil hne
  obtain ⟨hone, hneg⟩ := hdown ⟨0, hlength⟩
  have hend := congrFun hxbar (cp.free.get ⟨0, hlength⟩)
  rw [hcut.eq_one hhit, one_smul, Pi.add_apply, coords_scatter_get hnodup, hone, coords_apply,
    coords_apply, coords_apply] at hend
  rw [hend]
  linarith

end

/-! ### The minimizer -/

/-- The reduced system is nonsingular; a step that does not fall back solves the system with
`B_F`; and uncut it leads to the one minimizer of the model among the points that agree with
the Cauchy point in the other variables. -/
theorem minimizes_on_free (hcap : 0 < cap) (ops : List (Store.Operation ℝ n)) (box : Box ℝ n)
    (x g : Vector ℝ n) (hx : box.contains x = true) :
    let store : Store ℝ n cap := Store.after ops
    let cp := (CauchySearch.of box store x g).toCauchyPoint
    let r := reducedGradient store x g cp
    let step := of box store x g cp
    (reducedSystem store (store.wRows (freeVector cp.free))).toMatrix.det ≠ 0 ∧
      (cp.free ≠ [] → step.fallback = false → SolvedExactly store cp.free r →
        ∃ du, newton? store cp.free r = some du ∧
          (∀ j : Fin cp.free.length,
            (store.applyForward (scatter cp.free du))[cp.free.get j] =
              -(g[cp.free.get j] + (store.applyForward (cp.xc - x))[cp.free.get j])) ∧
          (step.truncatedAt = none →
            (∀ i, i ∉ cp.free → step.xbar[i] = cp.xc[i]) ∧
              ∀ z : Vector ℝ n, (∀ i, i ∉ cp.free → z[i] = cp.xc[i]) → z ≠ step.xbar →
                modelChange store x g step.xbar < modelChange store x g z)) := by
  intro store cp r step
  have hstore : store.Consistent := Store.consistent_after hcap ops
  have hnodup : cp.free.Nodup := CauchySearch.nodup_free box store x g
  have hc : cp.c = store.wTranspose (cp.xc - x) := CauchySearch.c_eq hstore hx
  have hxc : box.contains cp.xc = true := CauchySearch.contains_xc hx store g
  constructor
  · have hunit := isUnit_reducedSystem hstore hnodup
    exact ((isUnit_iff_isUnit_det _).mp hunit).ne_zero
  intro hfree hfallback hexact
  obtain ⟨du, hdu⟩ := exists_newton? hfree hfallback
  refine ⟨du, hdu, ?_, ?_⟩
  · intro j
    have hstep := applyForward_of_newton? hstore hnodup hexact hdu j
    rw [coords_reducedGradient hstore hc, ← hstore.applyForward_eq] at hstep
    exact hstep
  · intro hwhole
    obtain ⟨alpha, hit, hcut, htrunc, hxbar⟩ := coords_xbar hxc hnodup hfree (x := x) (g := g)
    have hhit : hit = none := Option.map_eq_none_iff.mp (htrunc.symm.trans hwhole)
    rw [hcut.eq_one hhit, uncut_of_newton? hdu, one_smul] at hxbar
    have hoff : ∀ i, i ∉ cp.free → step.xbar[i] = cp.xc[i] := by
      intro i hi
      have hentry := congrFun hxbar i
      rw [Pi.add_apply, coords_scatter_of_not_mem hi, add_zero] at hentry
      exact hentry
    refine ⟨hoff, ?_⟩
    intro z hz hne
    have hway : coords (step.xbar - x) = coords (cp.xc - x) + coords (scatter cp.free du) := by
      rw [coords_sub, coords_sub, hxbar]
      abel
    have hto : coords (z - x) = coords (step.xbar - x) + (coords z - coords step.xbar) := by
      rw [coords_sub, coords_sub]
      abel
    have hslope := slope_eq_zero hstore hnodup hc hexact hdu (e := coords z - coords step.xbar)
      fun i hi => sub_eq_zero.mpr ((hz i hi).trans (hoff i hi).symm)
    rw [modelChange_eq hstore, modelChange_eq hstore, hto]
    rw [← hway] at hslope
    apply Model.value_lt_of_slope_eq_zero hstore.posDef_dense hslope
    intro hzero
    exact hne (coords_injective (sub_eq_zero.mp hzero))

omit [DenseSolver ℝ] [ExactFactor ℝ] in
/-- The first variable is on its limit, and the second one goes back from it. -/
theorem minimizes_on_free_behind_tie :
    let _ := DenseSolver.symmetric ℝ
    let store : Store ℝ 2 1 := Store.after [.offer #v[1, 1] #v[1, 3]]
    let x : Vector ℝ 2 := #v[0, 0]
    let g : Vector ℝ 2 := #v[-1, -1]
    let cp := (CauchySearch.of tiedBox store x g).toCauchyPoint
    let r := reducedGradient store x g cp
    let step := of tiedBox store x g cp
    ExactFactor ℝ ∧ 0 < 1 ∧ tiedBox.contains x = true ∧ cp.free = [1] ∧ step.fallback = false ∧
      SolvedExactly store cp.free r ∧ step.truncatedAt = none ∧
      (reducedSystem store (store.wRows (freeVector cp.free))).toMatrix.det ≠ 0 ∧
      step.xbar[(0 : Fin 2)] = cp.xc[(0 : Fin 2)] ∧ step.xbar[(1 : Fin 2)] < cp.xc[(1 : Fin 2)] ∧
      ∀ z : Vector ℝ 2, z[(0 : Fin 2)] = cp.xc[(0 : Fin 2)] → z ≠ step.xbar →
        modelChange store x g step.xbar < modelChange store x g z := by
  intro solver store x g cp r step
  have hexact : ExactFactor ℝ := exactFactor_symmetric
  have hproposal : ExactProposal := exactProposal_symmetric
  have hcomplete : CompleteFactor := completeFactor_symmetric
  have hstore : store.Consistent := Store.consistent_after Nat.one_pos _
  have hsecant := dense_mulVec_tied
  have hfree : cp.free = [1] := (sides_tied hstore hsecant).2
  have hsolves : Solves store cp.free r := solves_tied hstore.toTabulated pairs_tied hfree r
  have hfallback : step.fallback = false := hsolves.fallback_eq
  obtain ⟨hwhole, hback⟩ := whole_tied hstore hsecant hfallback hsolves.solvedExactly
  have hne : cp.free ≠ [] := by
    rw [hfree]
    exact List.cons_ne_nil 1 []
  have honly : ∀ i, i ∉ cp.free → i = 0 := by
    rw [hfree]
    decide
  obtain ⟨hdet, hminimizes⟩ :=
    minimizes_on_free Nat.one_pos [.offer #v[1, 1] #v[1, 3]] tiedBox x g contains_tied
  obtain ⟨du, -, -, hleast⟩ := hminimizes hne hfallback hsolves.solvedExactly
  obtain ⟨hstays, hleast⟩ := hleast hwhole
  have hzero : (0 : Fin 2) ∉ cp.free := by
    rw [hfree]
    decide
  refine ⟨hexact, Nat.one_pos, contains_tied, hfree, hfallback, hsolves.solvedExactly, hwhole,
    hdet, hstays 0 hzero, hback, fun z hz => hleast z fun i hi => ?_⟩
  rw [honly i hi]
  exact hz

end SubspaceStep

end BoxDescent
