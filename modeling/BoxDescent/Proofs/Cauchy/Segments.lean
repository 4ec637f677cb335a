import BoxDescent.Proofs.Cauchy.Walk
import BoxDescent.Cauchy.Point

/-!
# The segments of a walk

A walk begins where some variable moves and starts a new segment behind every breakpoint that
it passes.  A search that walks ends either on the last of these segments, before the next
breakpoint, or at the last breakpoint of a path on which every variable meets a limit.

Two variables can meet their limits at the same time.  A walk that passes one of the two
breakpoints and finds the model rising behind it ends before the other.
-/

namespace BoxDescent

open Matrix

/-! ### The starts of the segments -/

namespace Walk

section

variable {α : Type} [Scalar α] [DenseSolver α] {n cap : Nat} {box : Box α n}
  {store : Store α n cap} {path : Path α n}

/-- The walk along the path starts a segment as `w`, with the breakpoints `rest` ahead. -/
inductive Visits (box : Box α n) (store : Store α n cap) (path : Path α n) :
    List (Breakpoint α n) → Walk α n store.size → Prop
  | start (hmoves : (dot path.velocity path.velocity == 0) = false) :
      Visits box store path path.breakpoints (begin store path)
  | onward {b : Breakpoint α n} {rest : List (Breakpoint α n)} {w w' : Walk α n store.size}
      (hvisit : Visits box store path (b :: rest) w)
      (hturn : w.turn box store path b rest = .onward w') : Visits box store path rest w'

/-- From a visited start the walk goes on as it does from its beginning. -/
theorem Visits.run_eq {rest : List (Breakpoint α n)} {w : Walk α n store.size}
    (h : Visits box store path rest w) :
    run box store path path.breakpoints (begin store path) = run box store path rest w := by
  induction h with
  | start => rfl
  | onward hvisit hturn ih =>
    rw [ih, run, hturn]

theorem Visits.suffix {rest : List (Breakpoint α n)} {w : Walk α n store.size}
    (h : Visits box store path rest w) : rest <:+ path.breakpoints := by
  induction h with
  | start => exact List.suffix_rfl
  | onward hvisit hturn ih => exact (List.suffix_cons _ _).trans ih

end

variable [DenseSolver ℝ] {n cap : Nat} {store : Store ℝ n cap} {box : Box ℝ n}
  {x g : Vector ℝ n} {w w' : Walk ℝ n store.size} {b : Breakpoint ℝ n}
  {rest : List (Breakpoint ℝ n)}

theorem passed_of_onward (h : w.turn box store (Path.of box x g) b rest = .onward w') :
    b.time - w.reached ≤ w.ahead ∧ w' = passed box x g w b rest := by
  rcases turn_cases box x g w b rest with ⟨-, he⟩ | ⟨-, -, -, he⟩ | ⟨hle, he⟩
  · rw [he] at h
    cases h
  · rw [he] at h
    cases h
  · rw [he] at h
    cases h
    exact ⟨hle, rfl⟩

omit [DenseSolver ℝ] in
theorem dot_velocity_eq_false_iff : (dot (Path.of box x g).velocity (Path.of box x g).velocity == 0)
    = false ↔ coords (Path.of box x g).velocity ≠ 0 := by
  rw [Scalar.beq_real, decide_eq_false_iff_not]
  exact not_congr dot_self_eq_zero

theorem Visits.tracks [ExactFactor ℝ] (h : Visits box store (Path.of box x g) rest w)
    (hx : box.contains x = true) (hstore : store.Consistent) : Tracks box x g w rest := by
  induction h with
  | start hmoves => exact tracks_begin hx hstore (dot_velocity_eq_false_iff.mp hmoves)
  | onward hvisit hturn ih =>
    obtain ⟨hle, rfl⟩ := passed_of_onward hturn
    exact ih.passed hx hstore hle

/-! ### Past a breakpoint -/

section

variable [ExactFactor ℝ] (h : Tracks box x g w (b :: rest))
  (hx : box.contains x = true) (hstore : store.Consistent)

include h hx hstore

theorem slope_passed : (passed box x g w b rest).slope =
    w.slope + (b.time - w.reached) * w.curvature + w.velocity[b.index] * w.velocity[b.index] -
      w.velocity[b.index] * (store.dense *ᵥ coords (box.way x g b.time)) b.index :=
  congrArg Walk.slope (h.passed_eq hx hstore)

theorem floored_passed : (passed box x g w b rest).floored =
    (w.floored || decide (w.curvature -
      2 * w.velocity[b.index] * (store.dense *ᵥ coords w.velocity) b.index +
        w.velocity[b.index] * w.velocity[b.index] *
          (store.dense *ᵥ Pi.single b.index 1) b.index < w.floor)) :=
  congrArg Walk.floored (h.passed_eq hx hstore)

theorem floor_passed : (passed box x g w b rest).floor = w.floor :=
  (congrArg Walk.floor (h.passed_eq hx hstore)).trans rfl

theorem held_passed : (passed box x g w b rest).held = w.held.set b.index true b.index.isLt :=
  (congrArg Walk.held (h.passed_eq hx hstore)).trans rfl

theorem segments_passed : (passed box x g w b rest).segments = w.segments + 1 :=
  (congrArg Walk.segments (h.passed_eq hx hstore)).trans rfl

end

end Walk

/-! ### The end of the walk -/

namespace CauchySearch

variable [DenseSolver ℝ] {n cap : Nat} {store : Store ℝ n cap} {box : Box ℝ n}
  {x g : Vector ℝ n} {w : Walk ℝ n store.size} {rest : List (Breakpoint ℝ n)}

/-- How a search that walks ends. -/
inductive Stops (box : Box ℝ n) (store : Store ℝ n cap) (x g : Vector ℝ n) :
    CauchySearch ℝ n store.size → Prop
  | onSegment {rest : List (Breakpoint ℝ n)} {w : Walk ℝ n store.size}
      (hvisit : Walk.Visits box store (Path.of box x g) rest w)
      (hahead : ∀ b ∈ rest, w.ahead < b.time - w.reached) :
      Stops box store x g (ofWalk box store (Path.of box x g) w false)
  | atEnd {b : Breakpoint ℝ n} {w : Walk ℝ n store.size}
      (hvisit : Walk.Visits box store (Path.of box x g) [b] w)
      (hle : b.time - w.reached ≤ w.ahead)
      (hall : (Path.of box x g).meetsAllLimits = true) :
      Stops box store x g (ofWalk box store (Path.of box x g)
        { w.stopVariable box (Path.of box x g) b.index (b.time - w.reached) with
          ahead := b.time - w.reached } true)

/-- Between breakpoints a search never goes back behind the start of the segment. -/
theorem time_onSegment (h : Walk.Tracks box x g w rest) :
    (ofWalk box store (Path.of box x g) w false).time = w.reached + max w.ahead 0 := by
  change w.elapsed + Scalar.larger w.ahead 0 = _
  rw [h.elapsed_eq, Scalar.larger_real]

theorem stops_of_visit [ExactFactor ℝ] (hx : box.contains x = true) (hstore : store.Consistent)
    (h : Walk.Visits box store (Path.of box x g) rest w) :
    let ended := Walk.run box store (Path.of box x g) rest w
    Stops box store x g (ofWalk box store (Path.of box x g) ended.1 ended.2) := by
  -- Induction on the breakpoints that are left; the start that is visited moves along.
  induction rest generalizing w with
  | nil => exact .onSegment h fun b hb => by cases hb
  | cons b rest ih =>
    rcases Walk.turn_cases box x g w b rest with ⟨hstop, he⟩ | ⟨hle, hnil, hall, he⟩ | ⟨-, he⟩
    · simp only [Walk.run, he]
      apply Stops.onSegment h
      intro c hc
      have hbc := (h.tracks hx hstore).on.time_le c hc
      linarith
    · simp only [Walk.run, he]
      rw [hnil] at h
      exact .atEnd h hle hall
    · simp only [Walk.run, he]
      exact ih (.onward h he)

theorem of_eq_atRest (hv : coords (Path.of box x g).velocity = 0) :
    of box store x g = atRest store (Path.of box x g) :=
  if_pos (decide_eq_true (dot_self_eq_zero.mpr hv))

theorem of_eq_ofWalk (hv : coords (Path.of box x g).velocity ≠ 0) :
    of box store x g =
      let ended := Walk.run box store (Path.of box x g) (Path.of box x g).breakpoints
        (Walk.begin store (Path.of box x g))
      ofWalk box store (Path.of box x g) ended.1 ended.2 :=
  if_neg fun he => hv (dot_self_eq_zero.mp (of_decide_eq_true he))

theorem stops_of [ExactFactor ℝ] (hx : box.contains x = true) (hstore : store.Consistent)
    (hv : coords (Path.of box x g).velocity ≠ 0) : Stops box store x g (of box store x g) := by
  rw [of_eq_ofWalk hv]
  exact stops_of_visit hx hstore (.start (Walk.dot_velocity_eq_false_iff.mpr hv))

end CauchySearch

/-! ### Two variables that arrive together -/

/-- The values up to 3/8, for two variables. -/
noncomputable def tiedBox : Box ℝ 2 := .ofFn (fun _ => .atMost (3 / 8)) fun _ => valid_atMost _

/-- The path on which both variables move with velocity 1 to their limits. -/
noncomputable def tiedPath : Path ℝ 2 := Path.of tiedBox #v[0, 0] #v[-1, -1]

theorem kind_tiedBox (i : Fin 2) : tiedBox.kind i = .atMost (3 / 8) := Box.kind_ofFn _ _ i

theorem contains_tiedBox {x : Vector ℝ 2} (h : ∀ i : Fin 2, x[i] ≤ 3 / 8) :
    tiedBox.contains x = true := by
  rw [Box.contains_iff]
  intro i
  rw [kind_tiedBox]
  refine ⟨fun l hl => (by cases hl), fun u hu => ?_⟩
  cases hu
  exact h i

theorem contains_tied : tiedBox.contains #v[0, 0] = true := by
  apply contains_tiedBox
  intro i
  fin_cases i <;> norm_num

theorem departure_tiedBox {x : Vector ℝ 2} {i : Fin 2} (h : x[i] < 3 / 8) :
    Path.departure tiedBox x #v[-1, -1] i = .moving := by
  have hmoves : ∀ a : ℝ, a < 3 / 8 → Departure.of (.atMost (3 / 8)) a 1 = .moving := by
    intro a ha
    norm_num [Departure.of, Bound.isFixed, Bound.isBounded, Bound.lower?, Bound.upper?,
      Scalar.beq_real, ha]
  have hvelocity : -(#v[-1, -1] : Vector ℝ 2)[i] = 1 := by
    fin_cases i <;> norm_num
  rw [Path.departure, kind_tiedBox, hvelocity]
  exact hmoves _ h

theorem departure_tied (i : Fin 2) :
    Path.departure tiedBox #v[0, 0] #v[-1, -1] i = .moving := by
  apply departure_tiedBox
  fin_cases i <;> norm_num

theorem arrival_tied (i : Fin 2) :
    Path.arrival? tiedBox #v[0, 0] #v[-1, -1] i = some (3 / 8) := by
  have htime : Breakpoint.time? (.atMost (3 / 8)) (0 : ℝ) 1 = some (3 / 8) := by
    norm_num [Breakpoint.time?, Bound.upper?]
  rw [Path.arrival?, kind_tiedBox, ← htime]
  congr 1
  · fin_cases i <;> rfl
  · fin_cases i <;> norm_num

theorem velocity_tied : tiedPath.velocity = #v[1, 1] := by
  apply coords_injective
  funext i
  rw [coords_apply, tiedPath, Path.velocity_of_moving (departure_tied i)]
  fin_cases i <;> norm_num [coords]

theorem velocity_tied_ne_zero : coords tiedPath.velocity ≠ 0 := by
  rw [velocity_tied]
  intro h
  exact one_ne_zero (congrFun h 0)

theorem descend_tied {t : ℝ} (ht : 0 ≤ t) (hle : t ≤ 3 / 8) (i : Fin 2) :
    (tiedBox.descend #v[0, 0] #v[-1, -1] t)[i] = t := by
  rw [Path.descend_of_moving contains_tied (departure_tied i) ht]
  · fin_cases i <;> norm_num
  · intro τ hτ
    rw [arrival_tied i] at hτ
    cases hτ
    exact hle

theorem breakpoints_tied : tiedPath.breakpoints = [⟨0, 3 / 8⟩, ⟨1, 3 / 8⟩] := by
  have hunordered : Path.unordered tiedBox #v[0, 0] #v[-1, -1] = [⟨0, 3 / 8⟩, ⟨1, 3 / 8⟩] := by
    simp [Path.unordered, departure_tied, arrival_tied, List.finRange_succ]
  have hlate : ¬(⟨1, 3 / 8⟩ : Breakpoint ℝ 2).precedes ⟨0, 3 / 8⟩ = true := by
    rw [Breakpoint.precedes_iff]
    norm_num
  change Breakpoint.inOrder (Path.unordered tiedBox #v[0, 0] #v[-1, -1]) = _
  rw [hunordered]
  simp [Breakpoint.inOrder, Breakpoint.insertLate, hlate]

section

variable [DenseSolver ℝ] {store : Store ℝ 2 1}

/-- The walk behind the first of the two breakpoints. -/
noncomputable def tiedWalk (store : Store ℝ 2 1) : Walk ℝ 2 store.size :=
  Walk.passed tiedBox #v[0, 0] #v[-1, -1] (Walk.begin store tiedPath) ⟨0, 3 / 8⟩ [⟨1, 3 / 8⟩]

theorem velocity_begin_tied : (Walk.begin store tiedPath).velocity = #v[1, 1] := velocity_tied

theorem velocity_zero_begin_tied : (Walk.begin store tiedPath).velocity[(0 : Fin 2)] = 1 := by
  rw [velocity_begin_tied]
  rfl

theorem slope_begin_tied : (Walk.begin store tiedPath).slope = -2 := by
  change -dot tiedPath.velocity tiedPath.velocity = -2
  rw [velocity_tied, dot_pair]
  norm_num

theorem pairs_tied [CompleteFactor] :
    (Store.after [.offer #v[1, 1] #v[1, 3]] : Store ℝ 2 1).pairs =
      [Store.correction #v[1, 1] #v[1, 3]] := by
  have hadmitted : Store.admitted ([(#v[1, 1], #v[1, 3])].map fun p => .offer p.1 p.2) =
      [((#v[1, 1] : Vector ℝ 2), #v[1, 3])] := by
    apply Store.admitted_offers
    intro p hp
    rw [List.mem_singleton.mp hp, dot_pair, dot_pair]
    norm_num [Scalar.epsilon]
  have hafter := Store.pairs_after Nat.one_pos
    ([((#v[1, 1] : Vector ℝ 2), #v[1, 3])].map fun p => .offer p.1 p.2)
  rw [hadmitted] at hafter
  exact hafter

theorem dense_mulVec_tied [CompleteFactor] :
    (Store.after [.offer #v[1, 1] #v[1, 3]] : Store ℝ 2 1).dense *ᵥ coords #v[1, 1] =
      coords #v[1, 3] := by
  have hstore : (Store.after [.offer #v[1, 1] #v[1, 3]] : Store ℝ 2 1).Consistent :=
    Store.consistent_after Nat.one_pos _
  exact hstore.dense_mulVec_newest (pairs_tied.trans (List.nil_append _).symm)

variable [ExactFactor ℝ] (hstore : store.Consistent)
  (hsecant : store.dense *ᵥ coords #v[1, 1] = coords #v[1, 3])

include hstore

theorem tracks_tied : Walk.Tracks tiedBox #v[0, 0] #v[-1, -1] (Walk.begin store tiedPath)
    [⟨0, 3 / 8⟩, ⟨1, 3 / 8⟩] := by
  rw [← breakpoints_tied]
  exact Walk.tracks_begin contains_tied hstore velocity_tied_ne_zero

include hsecant

theorem curvature_begin_tied : (Walk.begin store tiedPath).curvature = 4 := by
  rw [(tracks_tied hstore).curvature_eq rfl, Walk.trueCurvature, Model.curvature,
    velocity_begin_tied, hsecant]
  norm_num [dotProduct, coords, Fin.sum_univ_two]

/-- The slope behind the first of the two breakpoints is positive. -/
theorem slope_tiedWalk : (tiedWalk store).slope = 1 / 8 := by
  have hway : coords (tiedBox.way #v[0, 0] #v[-1, -1] (3 / 8)) =
      (3 / 8 : ℝ) • coords #v[1, 1] := by
    funext i
    rw [coords_apply, Box.getElem_way, descend_tied (by norm_num) (le_refl _)]
    fin_cases i <;> norm_num [coords]
  have hreached : (Walk.begin store tiedPath).reached = 0 := rfl
  have hone : coords (#v[1, 3] : Vector ℝ 2) 0 = 1 := rfl
  rw [tiedWalk, Walk.slope_passed (tracks_tied hstore) contains_tied hstore]
  dsimp only
  rw [hway, slope_begin_tied, hreached, velocity_zero_begin_tied,
    curvature_begin_tied hstore hsecant, mulVec_smul, hsecant, Pi.smul_apply, hone]
  norm_num

/-- The curvature is far above the floor there. -/
theorem floored_tiedWalk : (tiedWalk store).floored = false := by
  have hcurvature := curvature_begin_tied hstore hsecant
  have hfloor : (Walk.begin store tiedPath).floor = Scalar.epsilon * 4 := by
    rw [← hcurvature]
    rfl
  have hone : coords (#v[1, 3] : Vector ℝ 2) 0 = 1 := rfl
  have hdiagonal : 0 < (store.dense *ᵥ Pi.single 0 1) 0 := by
    have hpos := (posDef_iff_real.mp hstore.posDef_dense).2 (Pi.single 0 1) (by simp)
    rwa [single_dotProduct, one_mul] at hpos
  have hepsilon : (Scalar.epsilon : ℝ) * 4 ≤ 2 := by
    norm_num [Scalar.epsilon]
  rw [tiedWalk, Walk.floored_passed (tracks_tied hstore) contains_tied hstore, Bool.or_eq_false_iff]
  refine ⟨rfl, ?_⟩
  dsimp only
  rw [velocity_zero_begin_tied, velocity_begin_tied, hcurvature, hsecant, hone, hfloor,
    decide_eq_false_iff_not, not_lt]
  linarith

theorem visits_tied : Walk.Visits tiedBox store tiedPath [⟨1, 3 / 8⟩] (tiedWalk store) := by
  have hstart : Walk.Visits tiedBox store tiedPath [⟨0, 3 / 8⟩, ⟨1, 3 / 8⟩]
      (Walk.begin store tiedPath) := by
    rw [← breakpoints_tied]
    exact .start (Walk.dot_velocity_eq_false_iff.mpr velocity_tied_ne_zero)
  have hahead : (Walk.begin store tiedPath).ahead = 1 / 2 := by
    change Walk.minimizer (Walk.begin store tiedPath) = 1 / 2
    rw [Walk.minimizer, slope_begin_tied, curvature_begin_tied hstore hsecant]
    norm_num
  have hreached : (Walk.begin store tiedPath).reached = 0 := rfl
  rcases Walk.turn_cases tiedBox #v[0, 0] #v[-1, -1] (Walk.begin store tiedPath) ⟨0, 3 / 8⟩
    [⟨1, 3 / 8⟩] with ⟨hstop, -⟩ | ⟨-, hnil, -⟩ | ⟨-, hturn⟩
  · rw [hahead, hreached] at hstop
    norm_num at hstop
  · cases hnil
  · exact .onward hstart hturn

theorem ahead_tiedWalk : (tiedWalk store).ahead < 0 := by
  have htracks := (visits_tied hstore hsecant).tracks contains_tied hstore
  rw [htracks.ahead_eq (.inl (List.cons_ne_nil _ _)), Walk.minimizer,
    slope_tiedWalk hstore hsecant]
  exact div_neg_of_neg_of_pos (by norm_num) htracks.curvature_pos

/-- The search ends before the second breakpoint, at the time of both. -/
theorem of_tied : CauchySearch.of tiedBox store #v[0, 0] #v[-1, -1] =
    CauchySearch.ofWalk tiedBox store tiedPath (tiedWalk store) false := by
  have hahead := ahead_tiedWalk hstore hsecant
  have hreached : (tiedWalk store).reached = 3 / 8 := rfl
  have hstop : (tiedWalk store).turn tiedBox store tiedPath ⟨1, 3 / 8⟩ [] = .stop := by
    apply if_pos
    rw [hreached, sub_self]
    exact hahead
  have hend : Walk.run tiedBox store tiedPath tiedPath.breakpoints (Walk.begin store tiedPath) =
      (tiedWalk store, false) := by
    rw [(visits_tied hstore hsecant).run_eq, Walk.run, hstop]
  refine (CauchySearch.of_eq_ofWalk velocity_tied_ne_zero).trans ?_
  exact congrArg (fun ended => CauchySearch.ofWalk tiedBox store tiedPath ended.1 ended.2) hend

theorem time_tied : (CauchySearch.of tiedBox store #v[0, 0] #v[-1, -1]).time = 3 / 8 := by
  have htracks := (visits_tied hstore hsecant).tracks contains_tied hstore
  have hahead := ahead_tiedWalk hstore hsecant
  have htime := CauchySearch.time_onSegment htracks
  rw [max_eq_right (le_of_lt hahead), add_zero] at htime
  rw [of_tied hstore hsecant]
  exact htime

omit hsecant in
theorem held_tiedWalk : (tiedWalk store).held = #v[true, false] := by
  have hheld : (Walk.begin store tiedPath).held[(1 : Fin 2)] = false := by
    refine (Path.getElem_held 1).trans ?_
    rw [departure_tied]
    rfl
  rw [tiedWalk, Walk.held_passed (tracks_tied hstore) contains_tied hstore]
  apply Vector.ext
  intro i hi
  interval_cases i
  · rfl
  · exact hheld

theorem sides_tied : (CauchySearch.of tiedBox store #v[0, 0] #v[-1, -1]).active = [0] ∧
    (CauchySearch.of tiedBox store #v[0, 0] #v[-1, -1]).free = [1] := by
  have hheld := held_tiedWalk hstore
  rw [of_tied hstore hsecant]
  simp only [CauchySearch.ofWalk, hheld]
  exact ⟨rfl, rfl⟩

end

end BoxDescent
