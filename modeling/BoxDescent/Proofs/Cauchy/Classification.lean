import BoxDescent.Proofs.Cauchy.Point

/-!
# Free and active variables

A search lists every variable once, as free or as active.  The active ones are on a limit and
the path keeps them there from then on; among them are all fixed variables.  A walk takes a
segment for each variable that moved at first and is active at the end.
-/

namespace BoxDescent

/-! ### Departure from a limit -/

namespace Departure

variable {b : Bound ℝ} {a v : ℝ}

theorem on_limit_of_isFixed (ha : b.Admits a) (h : b.isFixed = true) :
    a ∈ b.lower? ∨ a ∈ b.upper? := by
  obtain ⟨l, rfl⟩ := isFixed_iff.mp h
  have hal : a = l := le_antisymm (ha.upper l rfl) (ha.lower l rfl)
  rw [hal]
  exact .inl rfl

/-- A variable is held on a limit only, and a stationary one is on none. -/
theorem of_limits (ha : b.Admits a) (v : ℝ) :
    (of b a v = held ∧ (a ∈ b.lower? ∨ a ∈ b.upper?)) ∨
    (of b a v = stationary ∧ (∀ l ∈ b.lower?, l < a) ∧ ∀ u ∈ b.upper?, a < u) ∨
    of b a v = moving := by
  -- `of_cases` tells what follows for the path and not where `a` is.
  unfold of
  split
  · rename_i hfix
    exact .inl ⟨rfl, on_limit_of_isFixed ha hfix⟩
  split
  · rename_i hbounded
    split
    · cases b with
      | unbounded => exact .inr (.inl ⟨rfl, fun _ hl => (by cases hl), fun _ hu => (by cases hu)⟩)
      | atLeast l => cases hbounded
      | between l u => cases hbounded
      | atMost u => cases hbounded
    · exact .inr (.inr rfl)
  split
  · rename_i hlow
    obtain ⟨l, hl, hal⟩ := any_lower_iff.mp hlow
    split
    · rw [le_antisymm hal (ha.lower l hl)]
      exact .inl ⟨rfl, .inl hl⟩
    · exact .inr (.inr rfl)
  rename_i hlow
  split
  · rename_i hup
    obtain ⟨u, hu, hua⟩ := any_upper_iff.mp hup
    split
    · rw [le_antisymm (ha.upper u hu) hua]
      exact .inl ⟨rfl, .inr hu⟩
    · exact .inr (.inr rfl)
  rename_i hup
  split
  · exact .inr (.inl ⟨rfl, lower_lt_of_not_any hlow, lt_upper_of_not_any hup⟩)
  · exact .inr (.inr rfl)

theorem on_limit_of_held (ha : b.Admits a) (h : of b a v = held) :
    a ∈ b.lower? ∨ a ∈ b.upper? := by
  rcases of_limits ha v with ⟨-, hlimit⟩ | ⟨he, -⟩ | he
  · exact hlimit
  · rw [he] at h
    cases h
  · rw [he] at h
    cases h

theorem of_isFixed (h : b.isFixed = true) : of b a v = held := if_pos h

end Departure

namespace Breakpoint

theorem stopValue_on_limit {b : Bound ℝ} {a v τ : ℝ} (h : time? b a v = some τ) :
    stopValue b a v ∈ b.lower? ∨ stopValue b a v ∈ b.upper? := by
  rw [stopValue_eq h]
  rcases limit_of_time? h with ⟨-, hl⟩ | ⟨-, hu⟩
  · exact .inl hl
  · exact .inr hu

end Breakpoint

theorem Path.moving_iff {n : Nat} {box : Box ℝ n} {x : Vector ℝ n} (hx : box.contains x = true)
    (g : Vector ℝ n) (i : Fin n) :
    departure box x g i = .moving ↔ ∀ t, 0 < t → (box.descend x g t)[i] ≠ x[i] := by
  constructor
  · intro h t ht
    exact descend_ne hx h ht
  · intro h
    by_contra hm
    exact h 1 one_pos (descend_of_not_moving hx hm zero_le_one)

/-! ### What a walk holds -/

namespace Walk

open On (getElem_set_self getElem_set_ne)

variable {n k : Nat} {box : Box ℝ n} {x g : Vector ℝ n} {w : Walk ℝ n k}

/-- What a walk has held is on a limit; the segments count what moved before it was held. -/
structure Holds (box : Box ℝ n) (x g : Vector ℝ n) (w : Walk ℝ n k) : Prop where
  on_limit : ∀ i : Fin n, w.held[i] = true →
    w.point[i] ∈ (box.kind i).lower? ∨ w.point[i] ∈ (box.kind i).upper?
  of_departure : ∀ i : Fin n, Path.departure box x g i = .held → w.held[i] = true
  segments_eq : w.segments =
    {i : Fin n | w.held[i] = true ∧ Path.departure box x g i = .moving}.ncard

theorem holds_start (hx : box.contains x = true) (hpoint : w.point = x)
    (hheld : w.held = (Path.of box x g).held) (hsegments : w.segments = 0) :
    Holds box x g w := by
  have hiff : ∀ i : Fin n, w.held[i] = true ↔ Path.departure box x g i = .held := by
    intro i
    rw [hheld, Path.getElem_held, beq_iff_eq]
  constructor
  case on_limit =>
    intro i hi
    rw [hpoint]
    exact Departure.on_limit_of_held (Box.contains_iff.mp hx i) ((hiff i).mp hi)
  case of_departure => exact fun i hi => (hiff i).mpr hi
  case segments_eq =>
    have hnone : {i : Fin n | w.held[i] = true ∧ Path.departure box x g i = .moving} = ∅ := by
      apply Set.eq_empty_iff_forall_notMem.mpr
      rintro i ⟨hi, hm⟩
      rw [(hiff i).mp hi] at hm
      cases hm
    rw [hnone, Set.ncard_empty, hsegments]

theorem Holds.congr {w' : Walk ℝ n k} (h : Holds box x g w) (hpoint : w'.point = w.point)
    (hheld : w'.held = w.held) (hsegments : w'.segments = w.segments) : Holds box x g w' where
  on_limit := hpoint ▸ hheld ▸ h.on_limit
  of_departure := hheld ▸ h.of_departure
  segments_eq := hsegments ▸ hheld ▸ h.segments_eq

/-- The variable of the next breakpoint moved and was not held yet; it stops on its limit. -/
theorem Holds.stop {t : ℝ} {b : Breakpoint ℝ n} {rest : List (Breakpoint ℝ n)}
    (h : Holds box x g w) (hon : On box x g w t (b :: rest)) (dt : ℝ) :
    Holds box x g (w.stopVariable box (Path.of box x g) b.index dt) := by
  have hpending := hon.pending b List.mem_cons_self
  have harrival := hon.arrival b List.mem_cons_self
  constructor
  case on_limit =>
    intro i hi
    simp only [stopVariable] at hi ⊢
    by_cases he : i = b.index
    · rw [he, getElem_set_self, hon.velocity_eq b.index hpending]
      exact Breakpoint.stopValue_on_limit harrival
    · rw [getElem_set_ne _ _ he] at hi ⊢
      exact h.on_limit i hi
  case of_departure =>
    intro i hi
    simp only [stopVariable]
    by_cases he : i = b.index
    · rw [he, getElem_set_self]
    · rw [getElem_set_ne _ _ he]
      exact h.of_departure i hi
  case segments_eq =>
    -- The variable that stops is the one that the set gains.
    have hinsert : {i : Fin n | (w.held.set b.index true)[i] = true ∧
        Path.departure box x g i = .moving} =
          insert b.index {i : Fin n | w.held[i] = true ∧ Path.departure box x g i = .moving} := by
      ext i
      rw [Set.mem_insert_iff, Set.mem_ofPred_eq, Set.mem_ofPred_eq]
      by_cases he : i = b.index
      · rw [he, getElem_set_self]
        exact ⟨fun _ => .inl rfl, fun _ => ⟨rfl, hon.moving b.index hpending⟩⟩
      · rw [getElem_set_ne _ _ he]
        exact ⟨.inr, fun hi => hi.resolve_left he⟩
    have hnew : b.index ∉
        {i : Fin n | w.held[i] = true ∧ Path.departure box x g i = .moving} := by
      rintro ⟨hheld, -⟩
      rw [hon.not_held b.index hpending] at hheld
      cases hheld
    simp only [stopVariable]
    rw [hinsert, Set.ncard_insert_of_notMem hnew, h.segments_eq]

theorem Visits.holds [DenseSolver ℝ] [ExactFactor ℝ] {cap : Nat} {store : Store ℝ n cap}
    {w : Walk ℝ n store.size} {rest : List (Breakpoint ℝ n)}
    (h : Visits box store (Path.of box x g) rest w) (hx : box.contains x = true)
    (hstore : store.Consistent) : Holds box x g w := by
  induction h with
  | start => exact holds_start hx rfl rfl rfl
  | @onward b rest w w' hvisit hturn ih =>
    obtain ⟨-, rfl⟩ := passed_of_onward hturn
    have htracks := hvisit.tracks hx hstore
    have hstopped := ih.stop htracks.on (b.time - w.reached)
    rw [htracks.passed_eq hx hstore]
    exact hstopped.congr rfl rfl rfl

end Walk

/-! ### The classification -/

namespace CauchySearch

variable {n : Nat} {box : Box ℝ n} {x g : Vector ℝ n}

/-- The search ends with the walk `w`, which is on the path at time `t`. -/
structure EndsWith {k : Nat} (box : Box ℝ n) (x g : Vector ℝ n) (w : Walk ℝ n k) (t : ℝ)
    (rest : List (Breakpoint ℝ n)) (cs : CauchySearch ℝ n k) : Prop where
  on : Walk.On box x g w t rest
  holds : Walk.Holds box x g w
  time_le : t ≤ cs.time
  before : ∀ b ∈ rest, cs.time ≤ b.time
  xc_eq : cs.xc = box.descend x g cs.time
  free_eq : cs.free = (List.finRange n).filter fun i => !w.held[i]
  active_eq : cs.active = (List.finRange n).filter fun i => w.held[i]
  segments_eq : cs.segments = w.segments

namespace EndsWith

variable {k : Nat} {w : Walk ℝ n k} {t : ℝ} {rest : List (Breakpoint ℝ n)}
  {cs : CauchySearch ℝ n k}

theorem mem_active (h : EndsWith box x g w t rest cs) {i : Fin n} :
    i ∈ cs.active ↔ w.held[i] = true := by
  rw [h.active_eq, List.mem_filter]
  exact ⟨fun hi => hi.2, fun hi => ⟨List.mem_finRange i, hi⟩⟩

theorem mem_free (h : EndsWith box x g w t rest cs) {i : Fin n} :
    i ∈ cs.free ↔ w.held[i] = false := by
  rw [h.free_eq, List.mem_filter, Bool.not_eq_true']
  exact ⟨fun hi => hi.2, fun hi => ⟨List.mem_finRange i, hi⟩⟩

theorem sorted (h : EndsWith box x g w t rest cs) :
    cs.free.Pairwise (· < ·) ∧ cs.active.Pairwise (· < ·) := by
  have hfin : (List.finRange n).Pairwise (· < ·) := List.pairwise_lt_finRange n
  rw [h.free_eq, h.active_eq]
  exact ⟨hfin.filter _, hfin.filter _⟩

/-- From time `t` on the path keeps what is active where it is. -/
theorem descend_of_active (h : EndsWith box x g w t rest cs) {i : Fin n} (hi : i ∈ cs.active)
    {s : ℝ} (hs : t ≤ s) : (box.descend x g s)[i] = w.point[i] := by
  rw [h.mem_active] at hi
  by_cases hv : w.velocity[i] = 0
  · exact h.on.resting i hv s hs
  · rw [h.on.not_held i hv] at hi
    cases hi

theorem xc_of_active (h : EndsWith box x g w t rest cs) {i : Fin n} (hi : i ∈ cs.active) :
    cs.xc[i] = w.point[i] := by
  rw [h.xc_eq]
  exact h.descend_of_active hi h.time_le

theorem on_limit (h : EndsWith box x g w t rest cs) {i : Fin n} (hi : i ∈ cs.active) :
    cs.xc[i] ∈ (box.kind i).lower? ∨ cs.xc[i] ∈ (box.kind i).upper? := by
  rw [h.xc_of_active hi]
  exact h.holds.on_limit i (h.mem_active.mp hi)

theorem stays (h : EndsWith box x g w t rest cs) {i : Fin n} (hi : i ∈ cs.active) {s : ℝ}
    (hs : cs.time ≤ s) : (box.descend x g s)[i] = cs.xc[i] := by
  rw [h.xc_of_active hi]
  exact h.descend_of_active hi (le_trans h.time_le hs)

theorem not_free_of_isFixed (h : EndsWith box x g w t rest cs) {i : Fin n}
    (hi : (box.kind i).isFixed = true) : i ∉ cs.free := by
  rw [h.mem_free, h.holds.of_departure i (Departure.of_isFixed hi)]
  exact fun he => by cases he

theorem segments_eq_ncard (h : EndsWith box x g w t rest cs) (hx : box.contains x = true) :
    cs.segments =
      {i | i ∈ cs.active ∧ ∀ s, 0 < s → (box.descend x g s)[i] ≠ x[i]}.ncard := by
  simp only [h.segments_eq, h.holds.segments_eq, h.mem_active, Path.moving_iff hx]

end EndsWith

section

variable [DenseSolver ℝ] {cap : Nat} {store : Store ℝ n cap}

theorem endsWith_atRest (hx : box.contains x = true) :
    EndsWith box x g (Walk.begin store (Path.of box x g)) 0 (Path.of box x g).breakpoints
      (atRest store (Path.of box x g)) where
  on := Walk.on_start hx rfl rfl rfl
  holds := Walk.holds_start hx rfl rfl rfl
  time_le := le_refl _
  before := (Walk.on_start (w := Walk.begin store (Path.of box x g)) hx rfl rfl rfl).ahead
  xc_eq := (Box.descend_zero hx g).symm
  free_eq := rfl
  active_eq := rfl
  segments_eq := rfl

variable [ExactFactor ℝ] {w : Walk ℝ n store.size} {rest : List (Breakpoint ℝ n)}
  (hx : box.contains x = true) (hstore : store.Consistent)

include hx hstore

theorem endsWith_onSegment (hvisit : Walk.Visits box store (Path.of box x g) rest w)
    (hahead : ∀ b ∈ rest, w.ahead < b.time - w.reached) :
    EndsWith box x g w w.reached rest (ofWalk box store (Path.of box x g) w false) := by
  have htracks := hvisit.tracks hx hstore
  have htime := time_onSegment htracks
  exact
    { on := htracks.on
      holds := hvisit.holds hx hstore
      time_le := by
        rw [htime]
        linarith [le_max_right w.ahead 0]
      before := by
        intro b hb
        have hreached := htracks.on.ahead b hb
        have hmax := max_le (le_of_lt (hahead b hb)) (sub_nonneg.mpr hreached)
        rw [htime]
        linarith
      xc_eq := (Stops.ends (.onSegment hvisit hahead) hx hstore).xc_eq
      free_eq := rfl
      active_eq := rfl
      segments_eq := rfl }

theorem endsWith_atEnd {b : Breakpoint ℝ n}
    (hvisit : Walk.Visits box store (Path.of box x g) [b] w)
    (hle : b.time - w.reached ≤ w.ahead) (hall : (Path.of box x g).meetsAllLimits = true) :
    EndsWith box x g (w.stopVariable box (Path.of box x g) b.index (b.time - w.reached)) b.time []
      (ofWalk box store (Path.of box x g)
        { w.stopVariable box (Path.of box x g) b.index (b.time - w.reached) with
          ahead := b.time - w.reached } true) := by
  have htracks := hvisit.tracks hx hstore
  have htime : w.elapsed + (b.time - w.reached) = b.time := by
    rw [htracks.elapsed_eq]
    ring
  exact
    { on := htracks.on.stop _
      holds := (hvisit.holds hx hstore).stop htracks.on _
      time_le := le_of_eq htime.symm
      before := fun c hc => by cases hc
      xc_eq := (Stops.ends (.atEnd hvisit hle hall) hx hstore).xc_eq
      free_eq := rfl
      active_eq := rfl
      segments_eq := rfl }

theorem Stops.exists_endsWith {cs : CauchySearch ℝ n store.size} (h : Stops box store x g cs) :
    ∃ w t rest, EndsWith box x g w t rest cs := by
  cases h with
  | onSegment hvisit hahead => exact ⟨_, _, _, endsWith_onSegment hx hstore hvisit hahead⟩
  | atEnd hvisit hle hall => exact ⟨_, _, _, endsWith_atEnd hx hstore hvisit hle hall⟩

theorem exists_endsWith : ∃ w t rest, EndsWith box x g w t rest (of box store x g) := by
  by_cases hv : coords (Path.of box x g).velocity = 0
  · rw [of_eq_atRest hv]
    exact ⟨_, _, _, endsWith_atRest hx⟩
  · exact (stops_of hx hstore hv).exists_endsWith hx hstore

end

/-- The search sorts the variables into free and active ones, each list in ascending order.
An active variable is on a limit, and the path keeps it there from the time of the search on.
Fixed variables are never free.  The segments count the active variables that moved away from
where they started. -/
theorem classifies [DenseSolver ℝ] [ExactFactor ℝ] {cap : Nat} (hcap : 0 < cap)
    (ops : List (Store.Operation ℝ n)) (box : Box ℝ n) (x g : Vector ℝ n)
    (hx : box.contains x = true) :
    let store : Store ℝ n cap := Store.after ops
    let cp := of box store x g
    let P := fun t => box.project (addScaled x (-t) g)
    cp.xc = P cp.time ∧
      cp.free.Pairwise (· < ·) ∧ cp.active.Pairwise (· < ·) ∧ List.Disjoint cp.free cp.active ∧
      (∀ i, i ∈ cp.free ∨ i ∈ cp.active) ∧
      (∀ i ∈ cp.active,
        (cp.xc[i] ∈ (box.kind i).lower? ∨ cp.xc[i] ∈ (box.kind i).upper?) ∧
          ∀ t, cp.time ≤ t → (box.kind i).clamp (x[i] - t * g[i]) = cp.xc[i]) ∧
      (∀ i l, box.kind i = .between l l → i ∉ cp.free) ∧
      cp.segments = {i | i ∈ cp.active ∧ ∀ t, 0 < t → (P t)[i] ≠ x[i]}.ncard := by
  intro store cp P
  have hstore : store.Consistent := Store.consistent_after hcap ops
  obtain ⟨w, t, rest, hends⟩ := exists_endsWith (g := g) hx hstore
  have hclamp : ∀ (i : Fin n) (s : ℝ),
      (box.kind i).clamp (x[i] - s * g[i]) = (box.descend x g s)[i] := by
    intro i s
    rw [Box.getElem_descend, mul_neg, sub_eq_add_neg]
  refine ⟨hends.xc_eq, hends.sorted.1, hends.sorted.2, ?_, ?_, ?_, ?_,
    hends.segments_eq_ncard hx⟩
  · intro i hfree hactive
    rw [hends.mem_free] at hfree
    rw [hends.mem_active, hfree] at hactive
    cases hactive
  · intro i
    rw [hends.mem_free, hends.mem_active]
    cases w.held[i] with
    | true => exact .inr rfl
    | false => exact .inl rfl
  · intro i hi
    refine ⟨hends.on_limit hi, ?_⟩
    intro s hs
    rw [hclamp]
    exact hends.stays hi hs
  · intro i l hl
    exact hends.not_free_of_isFixed (Departure.isFixed_iff.mpr ⟨l, hl⟩)

theorem valid_between_self (a : ℝ) : (Bound.between a a).Valid := by
  apply Bound.valid_ofLimits (l := some a) (u := some a) (fun _ _ => rfl) (fun _ _ => rfl)
  norm_num [Bound.crossed?]

/-- Of two variables that arrive together the first is held; and a fixed variable. -/
theorem classifies_tied :
    let _ := DenseSolver.symmetric ℝ
    let store : Store ℝ 2 1 := Store.after [.offer #v[1, 1] #v[1, 3]]
    let cp := of tiedBox store #v[0, 0] #v[-1, -1]
    let fixed : Box ℝ 1 := .ofFn (fun _ => .between 1 1) fun _ => valid_between_self 1
    let cp' := of fixed (Store.after [] : Store ℝ 1 1) #v[1] #v[2]
    ExactFactor ℝ ∧ 0 < 1 ∧ tiedBox.contains #v[0, 0] = true ∧ cp.active = [0] ∧
      cp.free = [1] ∧ cp.time = 3 / 8 ∧
      (tiedBox.kind 0).clamp ((#v[0, 0] : Vector ℝ 2)[0] - (1 : ℝ) * (#v[-1, -1] : Vector ℝ 2)[0]) =
        cp.xc[(0 : Fin 2)] ∧
      {i | i ∈ cp.active ∧ ∀ t : ℝ, 0 < t →
        (tiedBox.project (addScaled #v[0, 0] (-t) #v[-1, -1]))[i] ≠
          (#v[0, 0] : Vector ℝ 2)[i]}.ncard = 1 ∧
      fixed.contains #v[1] = true ∧ fixed.kind 0 = .between 1 1 ∧ (0 : Fin 1) ∉ cp'.free := by
  intro solver store cp fixed cp'
  have hexact : ExactFactor ℝ := exactFactor_symmetric
  have hcomplete : CompleteFactor := completeFactor_symmetric
  have hstore : store.Consistent := Store.consistent_after Nat.one_pos _
  have hsecant := dense_mulVec_tied
  have htime : cp.time = 3 / 8 := time_tied hstore hsecant
  obtain ⟨hactive, hfree⟩ := sides_tied hstore hsecant
  have hkind : fixed.kind 0 = .between 1 1 := Box.kind_ofFn _ _ 0
  have hfixed : fixed.contains #v[1] = true := by
    rw [Box.contains_iff]
    intro i
    rw [Subsingleton.elim i 0, hkind]
    exact Bound.admits_lower (valid_between_self 1) rfl
  obtain ⟨-, -, -, -, -, hclamp, -, hsegments⟩ := classifies Nat.one_pos
    [.offer #v[1, 1] #v[1, 3]] tiedBox #v[0, 0] #v[-1, -1] contains_tied
  obtain ⟨-, -, -, -, -, -, hpinned, -⟩ := classifies Nat.one_pos [] fixed #v[1] #v[2] hfixed
  have hmem : (0 : Fin 2) ∈ cp.active := by
    rw [hactive]
    exact List.mem_singleton_self 0
  have hkeeps := (hclamp 0 hmem).2 1 (by rw [htime]; norm_num)
  have hone : cp.segments = 1 :=
    (congrArg (fun cs => cs.segments) (of_tied hstore hsecant)).trans
      (Walk.segments_passed (tracks_tied hstore) contains_tied hstore)
  exact ⟨hexact, Nat.one_pos, contains_tied, hactive, hfree, htime, hkeeps,
    hsegments.symm.trans hone, hfixed, hkind, hpinned 0 1 hkind⟩

end CauchySearch

end BoxDescent
