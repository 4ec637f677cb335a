import BoxDescent.Proofs.Cauchy.Classification

/-!
# Arrivals

A variable that arrives at its limit before the time of the search is active.  Of the variables
that arrive at that very time some may be left free, on their limits: breakpoints at the same
time are passed one by one, and the walk ends behind the first at which the slope of the model
is positive.
-/

namespace BoxDescent

open Matrix

/-! ### Times of arrival -/

namespace Path

variable {n : Nat} {box : Box ℝ n} {x g : Vector ℝ n} {i : Fin n} {τ : ℝ}

/-- At time `τ` variable `i` is on the limit towards which the path leads it. -/
def ArrivesAt (box : Box ℝ n) (x g : Vector ℝ n) (i : Fin n) (τ : ℝ) : Prop :=
  (0 ≤ g[i] ∧ x[i] - τ * g[i] ∈ (box.kind i).lower?) ∨
    (g[i] ≤ 0 ∧ x[i] - τ * g[i] ∈ (box.kind i).upper?)

theorem arrivesAt_of_arrival (h : arrival? box x g i = some τ) : ArrivesAt box x g i τ := by
  have hpoint : x[i] + τ * -g[i] = x[i] - τ * g[i] := by ring
  rcases Breakpoint.limit_of_time? h with ⟨hv, hl⟩ | ⟨hv, hu⟩
  · rw [hpoint] at hl
    exact .inl ⟨by linarith, hl⟩
  · rw [hpoint] at hu
    exact .inr ⟨by linarith, hu⟩

variable (hx : box.contains x = true)

include hx

theorem ArrivesAt.departure_eq (h : ArrivesAt box x g i τ) :
    departure box x g i = .held ∨ departure box x g i = .moving := by
  rcases Departure.of_limits (Box.contains_iff.mp hx i) (-g[i]) with
    ⟨he, -⟩ | ⟨he, hlower, hupper⟩ | he
  · exact .inl he
  · have hpoint : x[i] - τ * g[i] = x[i] := by
      rw [eq_zero_of_stationary hx he, mul_zero, sub_zero]
    rcases h with ⟨-, hl⟩ | ⟨-, hu⟩
    · rw [hpoint] at hl
      exact absurd (hlower _ hl) (lt_irrefl _)
    · rw [hpoint] at hu
      exact absurd (hupper _ hu) (lt_irrefl _)
  · exact .inr he

theorem ArrivesAt.arrival_eq (h : ArrivesAt box x g i τ) (hm : departure box x g i = .moving) :
    arrival? box x g i = some τ := by
  have hne : g[i] ≠ 0 := fun he => (hasRoom hx hm).ne_zero (neg_eq_zero.mpr he)
  rw [arrival?, Breakpoint.time?]
  rcases h with ⟨hg, hl⟩ | ⟨hg, hu⟩
  · have hneg : -g[i] < 0 := neg_neg_of_pos (lt_of_le_of_ne hg hne.symm)
    rw [if_pos hneg, Option.mem_def.mp hl, Option.map_some]
    congr 1
    field_simp
    ring
  · have hpos : 0 < -g[i] := neg_pos.mpr (lt_of_le_of_ne hg hne)
    rw [if_neg (lt_asymm hpos), if_pos hpos, Option.mem_def.mp hu, Option.map_some]
    congr 1
    field_simp
    ring

end Path

/-! ### Behind the last breakpoint -/

theorem Walk.Visits.last_passed [DenseSolver ℝ] [ExactFactor ℝ] {n cap : Nat}
    {store : Store ℝ n cap} {box : Box ℝ n} {x g : Vector ℝ n} {w : Walk ℝ n store.size}
    {rest : List (Breakpoint ℝ n)} (h : Visits box store (Path.of box x g) rest w)
    (hx : box.contains x = true) (hstore : store.Consistent) (hpos : 0 < w.reached) :
    ∃ b : Breakpoint ℝ n, b.time = w.reached ∧ w.held[b.index] = true ∧
      Path.arrival? box x g b.index = some b.time ∧
        ∀ c ∈ rest, b.precedes c = true ∧ c.index ≠ b.index := by
  cases h with
  | start => exact absurd hpos (lt_irrefl _)
  | @onward b _ w' _ hvisit hturn =>
    obtain ⟨-, rfl⟩ := passed_of_onward hturn
    have htracks := hvisit.tracks hx hstore
    have hsorted := Path.breakpoints_precede.sublist hvisit.suffix.sublist
    refine ⟨b, rfl, ?_, htracks.on.arrival b List.mem_cons_self, ?_⟩
    · rw [held_passed htracks hx hstore]
      exact On.getElem_set_self _ _ _
    · intro c hc
      exact ⟨(List.pairwise_cons.mp hsorted).1 c hc, htracks.on.index_ne hc⟩

namespace CauchySearch

variable {n : Nat} {box : Box ℝ n} {x g : Vector ℝ n}

/-- What arrives and is not active is still ahead of the walk. -/
theorem EndsWith.mem_rest {k : Nat} {w : Walk ℝ n k} {t : ℝ} {rest : List (Breakpoint ℝ n)}
    {cs : CauchySearch ℝ n k} (h : EndsWith box x g w t rest cs) (hx : box.contains x = true)
    {i : Fin n} {τ : ℝ} (harrives : Path.ArrivesAt box x g i τ) (hfree : i ∉ cs.active) :
    ⟨i, τ⟩ ∈ rest := by
  rw [h.mem_active, Bool.not_eq_true] at hfree
  rcases harrives.departure_eq hx with hheld | hm
  · rw [h.holds.of_departure i hheld] at hfree
    cases hfree
  · apply h.on.mem_rest i _ τ (harrives.arrival_eq hx hm)
    intro hv
    exact (Path.hasRoom hx hm).ne_zero (neg_eq_zero.mpr (h.on.stationary i hv hfree))

section

variable [DenseSolver ℝ] [ExactFactor ℝ] {cap : Nat} {store : Store ℝ n cap}
  {w : Walk ℝ n store.size} {rest : List (Breakpoint ℝ n)}

/-- How a search ends at the time of a breakpoint that it has not passed. -/
structure StopsShort (box : Box ℝ n) (store : Store ℝ n cap) (x g : Vector ℝ n)
    (cs : CauchySearch ℝ n store.size) (i : Fin n) : Prop where
  after_lower : ∃ j ∈ cs.active, j < i ∧ Path.ArrivesAt box x g j cs.time
  slope_pos : cs.floored = false → (0 : ℝ) < (cs.free.map fun k =>
    -g[k] * (coords g + store.dense *ᵥ coords (cs.xc - x)) k).sum

theorem stopsShort_onSegment (hx : box.contains x = true) (hstore : store.Consistent)
    (hvisit : Walk.Visits box store (Path.of box x g) rest w)
    (hahead : ∀ b ∈ rest, w.ahead < b.time - w.reached) {c : Breakpoint ℝ n} (hc : c ∈ rest)
    (hle : c.time ≤ (ofWalk box store (Path.of box x g) w false).time) :
    StopsShort box store x g (ofWalk box store (Path.of box x g) w false) c.index := by
  have htracks := hvisit.tracks hx hstore
  have hends := endsWith_onSegment hx hstore hvisit hahead
  rw [time_onSegment htracks] at hle
  have hbefore := hahead c hc
  -- The search ends at the breakpoint `c` without having come to it along the segment, so the
  -- minimum of the parabola is behind the start of the segment.
  have hneg : w.ahead < 0 := by
    by_contra hge
    rw [max_eq_left (not_lt.mp hge)] at hle
    linarith
  rw [max_eq_right (le_of_lt hneg), add_zero] at hle
  have htime : (ofWalk box store (Path.of box x g) w false).time = w.reached := by
    rw [time_onSegment htracks, max_eq_right (le_of_lt hneg), add_zero]
  have hreached : c.time = w.reached := le_antisymm hle (htracks.on.ahead c hc)
  have hpos : 0 < w.reached := htracks.progress.resolve_right (lt_asymm hneg)
  constructor
  case after_lower =>
    obtain ⟨b, hb, hheld, harrival, hrest⟩ := hvisit.last_passed hx hstore hpos
    obtain ⟨hprecedes, hne⟩ := hrest c hc
    refine ⟨b.index, hends.mem_active.mpr hheld, ?_, ?_⟩
    · rcases Breakpoint.precedes_iff.mp hprecedes with hlt | ⟨-, hindex⟩
      · rw [hb, hreached] at hlt
        exact absurd hlt (lt_irrefl _)
      · exact lt_of_le_of_ne hindex hne.symm
    · rw [htime, ← hb]
      exact Path.arrivesAt_of_arrival harrival
  case slope_pos =>
    intro hfloored
    have hslope : 0 < w.slope := by
      have hminimizer := htracks.slope_minimizer
      have hfall := mul_neg_of_neg_of_pos hneg htracks.curvature_pos
      rw [htracks.ahead_eq (.inl (List.ne_nil_of_mem hc))] at hfall
      linarith
    rw [htracks.slope_eq hfloored, ← htime] at hslope
    rw [hends.xc_eq]
    exact hslope.trans_eq (htracks.on.sum_free _).symm

theorem Stops.short_of_not_active {cs : CauchySearch ℝ n store.size}
    (h : Stops box store x g cs) (hx : box.contains x = true) (hstore : store.Consistent)
    {i : Fin n} {τ : ℝ} (harrives : Path.ArrivesAt box x g i τ) (hle : τ ≤ cs.time)
    (hfree : i ∉ cs.active) : τ = cs.time ∧ StopsShort box store x g cs i := by
  cases h with
  | onSegment hvisit hahead =>
    have hends := endsWith_onSegment hx hstore hvisit hahead
    have hmem := hends.mem_rest hx harrives hfree
    exact ⟨le_antisymm hle (hends.before _ hmem),
      stopsShort_onSegment hx hstore hvisit hahead hmem hle⟩
  | atEnd hvisit hend hall =>
    have hmem := (endsWith_atEnd hx hstore hvisit hend hall).mem_rest hx harrives hfree
    cases hmem

theorem short_of_not_active (hx : box.contains x = true) (hstore : store.Consistent) {i : Fin n}
    {τ : ℝ} (harrives : Path.ArrivesAt box x g i τ) (hle : τ ≤ (of box store x g).time)
    (hfree : i ∉ (of box store x g).active) :
    τ = (of box store x g).time ∧ StopsShort box store x g (of box store x g) i := by
  by_cases hv : coords (Path.of box x g).velocity = 0
  · rw [of_eq_atRest hv] at hle hfree
    have hmem := (endsWith_atRest hx).mem_rest hx harrives hfree
    obtain ⟨hm, harrival⟩ := Path.mem_breakpoints.mp hmem
    exact absurd hle (not_le.mpr (Path.arrival_pos hx hm harrival))
  · exact (stops_of hx hstore hv).short_of_not_active hx hstore harrives hle hfree

end

/-- What arrives before the search ends is active.  What arrives at its end is active too, unless
a variable of a lower index arrived at the same time and the slope of the model behind it, along
`-g` in the variables that are free at the end, was positive (or the curvature was raised to its
floor). -/
theorem active_of_arrived [DenseSolver ℝ] [ExactFactor ℝ] {cap : Nat} (hcap : 0 < cap)
    (ops : List (Store.Operation ℝ n)) (box : Box ℝ n) (x g : Vector ℝ n)
    (hx : box.contains x = true) :
    let store : Store ℝ n cap := Store.after ops
    let cp := of box store x g
    (∀ i τ, Path.ArrivesAt box x g i τ → τ < cp.time → i ∈ cp.active) ∧
      ∀ i, Path.ArrivesAt box x g i cp.time →
        i ∈ cp.active ∨
          (∃ j ∈ cp.active, j < i ∧ Path.ArrivesAt box x g j cp.time) ∧
            (cp.floored = false → (0 : ℝ) < (cp.free.map fun k =>
              -g[k] * (g[k] + (store.applyForward (cp.xc - x))[k])).sum) := by
  intro store cp
  have hstore : store.Consistent := Store.consistent_after hcap ops
  constructor
  · intro i τ harrives hlt
    by_contra hfree
    obtain ⟨htime, -⟩ := short_of_not_active hx hstore harrives (le_of_lt hlt) hfree
    exact ne_of_lt hlt htime
  · intro i harrives
    by_cases hactive : i ∈ cp.active
    · exact .inl hactive
    · obtain ⟨-, hshort⟩ := short_of_not_active hx hstore harrives (le_refl _) hactive
      refine .inr ⟨hshort.after_lower, ?_⟩
      intro hfloored
      rw [sum_free_eq hstore]
      exact hshort.slope_pos hfloored

theorem arrivesAt_tied (i : Fin 2) : Path.ArrivesAt tiedBox #v[0, 0] #v[-1, -1] i (3 / 8) :=
  Path.arrivesAt_of_arrival (arrival_tied i)

theorem contains_edge : tiedBox.contains #v[3 / 8, 0] = true := by
  have hzero : (0 : ℝ) ≤ 3 / 8 := by norm_num
  exact contains_tiedBox (Fin.forall_fin_two.mpr ⟨le_refl _, hzero⟩)

theorem arrivesAt_edge : Path.ArrivesAt tiedBox #v[3 / 8, 0] #v[-1, -1] 0 0 := by
  have hneg : (-1 : ℝ) ≤ 0 := by norm_num
  have hpoint : some (3 / 8 : ℝ) = some (3 / 8 - 0 * -1) := by norm_num
  refine .inr ⟨hneg, ?_⟩
  rw [kind_tiedBox]
  exact hpoint

theorem velocity_edge_ne_zero : coords (Path.of tiedBox #v[3 / 8, 0] #v[-1, -1]).velocity ≠ 0 := by
  have hroom : (0 : ℝ) < 3 / 8 := by norm_num
  have hmoves : Path.departure tiedBox #v[3 / 8, 0] #v[-1, -1] 1 = .moving :=
    departure_tiedBox hroom
  intro hzero
  exact (Path.velocity_eq_zero_iff contains_edge 1).mp (congrFun hzero 1) hmoves

/-- Behind the first of two breakpoints at the same time the model increases; and a variable that
starts on its limit. -/
theorem active_of_arrived_tied :
    let _ := DenseSolver.symmetric ℝ
    let store : Store ℝ 2 1 := Store.after [.offer #v[1, 1] #v[1, 3]]
    let cp := of tiedBox store #v[0, 0] #v[-1, -1]
    let cp' := of tiedBox store #v[3 / 8, 0] #v[-1, -1]
    ExactFactor ℝ ∧ 0 < 1 ∧ tiedBox.contains #v[0, 0] = true ∧
      Path.ArrivesAt tiedBox #v[0, 0] #v[-1, -1] 1 cp.time ∧ cp.floored = false ∧
      (0 : ℝ) < (cp.free.map fun k => -(#v[-1, -1] : Vector ℝ 2)[k] *
        ((#v[-1, -1] : Vector ℝ 2)[k] +
          (store.applyForward (cp.xc - #v[0, 0]))[k])).sum ∧
      tiedBox.contains #v[3 / 8, 0] = true ∧
      Path.ArrivesAt tiedBox #v[3 / 8, 0] #v[-1, -1] 0 0 ∧ 0 < cp'.time ∧ 0 ∈ cp'.active := by
  intro solver store cp cp'
  have hexact : ExactFactor ℝ := exactFactor_symmetric
  have hcomplete : CompleteFactor := completeFactor_symmetric
  have hstore : store.Consistent := Store.consistent_after Nat.one_pos _
  have hsecant := dense_mulVec_tied
  have htime : cp.time = 3 / 8 := time_tied hstore hsecant
  have harrives : Path.ArrivesAt tiedBox #v[0, 0] #v[-1, -1] 1 cp.time := by
    rw [htime]
    exact arrivesAt_tied 1
  have hfree : 1 ∉ cp.active := by
    rw [(sides_tied hstore hsecant).1]
    decide
  have hfloored : cp.floored = false :=
    (congrArg (fun cs => cs.floored) (of_tied hstore hsecant)).trans
      (floored_tiedWalk hstore hsecant)
  obtain ⟨-, hend⟩ := active_of_arrived Nat.one_pos [.offer #v[1, 1] #v[1, 3]] tiedBox #v[0, 0]
    #v[-1, -1] contains_tied
  obtain ⟨-, hslope⟩ := (hend 1 harrives).resolve_left hfree
  have hpos : 0 < cp'.time := (ends_of hstore contains_edge velocity_edge_ne_zero).time_pos
  obtain ⟨hbefore, -⟩ := active_of_arrived Nat.one_pos [.offer #v[1, 1] #v[1, 3]] tiedBox
    #v[3 / 8, 0] #v[-1, -1] contains_edge
  exact ⟨hexact, Nat.one_pos, contains_tied, harrives, hfloored, hslope hfloored, contains_edge,
    arrivesAt_edge, hpos, hbefore 0 0 arrivesAt_edge hpos⟩

/-- The second variable arrives before the search ends, and is free. -/
theorem stays_free_on_limit :
    let _ := DenseSolver.symmetric ℝ
    let store : Store ℝ 2 1 := Store.after [.offer #v[1, 1] #v[1, 3]]
    let cp := of tiedBox store #v[0, 0] #v[-1, -1]
    tiedBox.contains #v[0, 0] = true ∧ Path.ArrivesAt tiedBox #v[0, 0] #v[-1, -1] 1 (3 / 8) ∧
      3 / 8 ≤ cp.time ∧ 1 ∈ cp.free ∧ 1 ∉ cp.active ∧
      cp.xc[(1 : Fin 2)] ∈ (tiedBox.kind 1).upper? := by
  intro solver store cp
  have hexact : ExactFactor ℝ := exactFactor_symmetric
  have hcomplete : CompleteFactor := completeFactor_symmetric
  have hstore : store.Consistent := Store.consistent_after Nat.one_pos _
  have hsecant := dense_mulVec_tied
  have htime : cp.time = 3 / 8 := time_tied hstore hsecant
  obtain ⟨hactive, hfree⟩ := sides_tied hstore hsecant
  refine ⟨contains_tied, arrivesAt_tied 1, le_of_eq htime.symm, ?_, ?_, ?_⟩
  · rw [hfree]
    decide
  · rw [hactive]
    decide
  · have hxc : cp.xc = tiedBox.descend #v[0, 0] #v[-1, -1] cp.time :=
      (ends_of hstore contains_tied velocity_tied_ne_zero).xc_eq
    rw [hxc, htime, descend_tied (by norm_num) (le_refl _), kind_tiedBox]
    rfl

end CauchySearch

end BoxDescent
