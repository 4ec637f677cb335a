import BoxDescent.Proofs.Cauchy.Coordinate
import BoxDescent.Proofs.Linear.Coordinates

/-!
# The path

The breakpoints of the path from `x` against `g` are those of the variables that move
towards a limit, in the order of their times, and of the variables where times are equal.
The point of the path at time `t` is the projection of `x - t * g`.
-/

namespace BoxDescent

/-! ### Order -/

namespace Breakpoint

variable {n : Nat}

theorem precedes_iff {a b : Breakpoint ℝ n} :
    a.precedes b = true ↔ a.time < b.time ∨ (a.time = b.time ∧ a.index ≤ b.index) := by
  unfold precedes
  split
  · rename_i hlt
    exact ⟨fun _ => .inl hlt, fun _ => rfl⟩
  · rename_i hge
    split
    · rename_i hgt
      refine ⟨fun h => (by cases h), ?_⟩
      rintro (hlt | ⟨he, -⟩)
      · exact absurd hlt hge
      · exact absurd he (ne_of_gt hgt)
    · rename_i hle
      have he : a.time = b.time := le_antisymm (not_lt.mp hle) (not_lt.mp hge)
      rw [decide_eq_true_iff]
      exact ⟨fun h => .inr ⟨he, h⟩, fun h => (h.resolve_left hge).2⟩

theorem le_of_precedes {a b : Breakpoint ℝ n} (h : a.precedes b = true) : a.time ≤ b.time := by
  rcases precedes_iff.mp h with hlt | ⟨he, -⟩
  · exact le_of_lt hlt
  · exact le_of_eq he

theorem precedes_of_not {a b : Breakpoint ℝ n} (h : ¬a.precedes b = true) :
    b.precedes a = true := by
  rw [precedes_iff, not_or, not_lt, not_and, not_le] at h
  rw [precedes_iff]
  rcases lt_or_eq_of_le h.1 with hlt | he
  · exact .inl hlt
  · exact .inr ⟨he, le_of_lt (h.2 he.symm)⟩

theorem precedes_trans {a b c : Breakpoint ℝ n} (hab : a.precedes b = true)
    (hbc : b.precedes c = true) : a.precedes c = true := by
  rw [precedes_iff] at hab hbc ⊢
  rcases hab with hab | ⟨hab, hi⟩
  · rcases hbc with hbc | ⟨hbc, -⟩
    · exact .inl (lt_trans hab hbc)
    · exact .inl (lt_of_lt_of_eq hab hbc)
  · rcases hbc with hbc | ⟨hbc, hj⟩
    · exact .inl (lt_of_eq_of_lt hab hbc)
    · exact .inr ⟨hab.trans hbc, le_trans hi hj⟩

theorem insertLate_perm (b : Breakpoint ℝ n) (l : List (Breakpoint ℝ n)) :
    (insertLate b l).Perm (b :: l) := by
  induction l with
  | nil => exact .refl _
  | cons last earlier ih =>
    rw [insertLate]
    split
    · exact (ih.cons last).trans (.swap b last earlier)
    · exact .refl _

theorem insertLate_sorted (b : Breakpoint ℝ n) {l : List (Breakpoint ℝ n)}
    (h : l.Pairwise fun a c => c.precedes a = true) :
    (insertLate b l).Pairwise fun a c => c.precedes a = true := by
  induction l with
  | nil => exact List.pairwise_singleton _ _
  | cons last earlier ih =>
    obtain ⟨hlast, hearlier⟩ := List.pairwise_cons.mp h
    rw [insertLate]
    split
    · rename_i hp
      refine List.pairwise_cons.mpr ⟨?_, ih hearlier⟩
      intro c hc
      rcases List.mem_cons.mp ((insertLate_perm b earlier).mem_iff.mp hc) with rfl | hmem
      · exact hp
      · exact hlast c hmem
    · rename_i hp
      have hle := precedes_of_not hp
      refine List.pairwise_cons.mpr ⟨?_, h⟩
      intro c hc
      rcases List.mem_cons.mp hc with rfl | hmem
      · exact hle
      · exact precedes_trans (hlast c hmem) hle

theorem foldl_insertLate (bs sorted : List (Breakpoint ℝ n))
    (h : sorted.Pairwise fun a c => c.precedes a = true) :
    (bs.foldl (fun sorted b => b.insertLate sorted) sorted).Perm (bs ++ sorted) ∧
      (bs.foldl (fun sorted b => b.insertLate sorted) sorted).Pairwise
        fun a c => c.precedes a = true := by
  induction bs generalizing sorted with
  | nil => exact ⟨.refl _, h⟩
  | cons b bs ih =>
    obtain ⟨hperm, hsorted⟩ := ih (insertLate b sorted) (insertLate_sorted b h)
    refine ⟨?_, hsorted⟩
    exact hperm.trans (((insertLate_perm b sorted).append_left bs).trans List.perm_middle)

theorem inOrder_perm (bs : List (Breakpoint ℝ n)) : (inOrder bs).Perm bs := by
  have hfold := (foldl_insertLate bs [] List.Pairwise.nil).1
  rw [List.append_nil] at hfold
  exact (List.reverse_perm _).trans hfold

theorem inOrder_sorted (bs : List (Breakpoint ℝ n)) :
    (inOrder bs).Pairwise fun a c => a.precedes c = true :=
  List.pairwise_reverse.mpr (foldl_insertLate bs [] List.Pairwise.nil).2

end Breakpoint

/-! ### Points -/

namespace Box

variable {n : Nat}

/-- The point of the path at time `t`. -/
noncomputable def descend (box : Box ℝ n) (x g : Vector ℝ n) (t : ℝ) : Vector ℝ n :=
  box.project (addScaled x (-t) g)

theorem getElem_descend (box : Box ℝ n) (x g : Vector ℝ n) (t : ℝ) (i : Fin n) :
    (box.descend x g t)[i] = (box.kind i).clamp (x[i] + t * -g[i]) := by
  rw [descend, getElem_project, getElem_addScaled, mul_neg, neg_mul]

/-- The way from the start of the path to its point at time `t`. -/
noncomputable def way (box : Box ℝ n) (x g : Vector ℝ n) (t : ℝ) : Vector ℝ n :=
  box.descend x g t - x

theorem getElem_way (box : Box ℝ n) (x g : Vector ℝ n) (t : ℝ) (i : Fin n) :
    (box.way x g t)[i] = (box.descend x g t)[i] - x[i] := by
  rw [← coords_apply, way, coords_sub]
  rfl

theorem descend_zero {box : Box ℝ n} {x : Vector ℝ n} (hx : box.contains x = true)
    (g : Vector ℝ n) : box.descend x g 0 = x := by
  apply coords_injective
  funext i
  rw [coords_apply, getElem_descend, zero_mul, add_zero,
    Bound.clamp_of_admits (contains_iff.mp hx i)]
  rfl

theorem way_zero {box : Box ℝ n} {x : Vector ℝ n} (hx : box.contains x = true)
    (g : Vector ℝ n) : box.way x g 0 = Vector.replicate n 0 := by
  apply coords_injective
  rw [way, descend_zero hx, coords_sub, sub_self, coords_replicate]
  rfl

end Box

namespace Path

variable {n : Nat} {box : Box ℝ n} {x g : Vector ℝ n}

/-- How variable `i` leaves the start. -/
noncomputable def departure (box : Box ℝ n) (x g : Vector ℝ n) (i : Fin n) : Departure :=
  Departure.of (box.kind i) x[i] (-g[i])

/-- When variable `i` reaches the limit ahead. -/
noncomputable def arrival? (box : Box ℝ n) (x g : Vector ℝ n) (i : Fin n) : Option ℝ :=
  Breakpoint.time? (box.kind i) x[i] (-g[i])

theorem getElem_velocity (i : Fin n) :
    (of box x g).velocity[i] = if departure box x g i = .moving then -g[i] else 0 := by
  simp only [of, departure, getElem_eq_val, Vector.getElem_ofFn]
  rfl

theorem getElem_held (i : Fin n) :
    (of box x g).held[i] = (departure box x g i == .held) := by
  simp only [of, departure, getElem_eq_val, Vector.getElem_ofFn]

open Matrix in
theorem dotProduct_velocity :
    coords (of box x g).velocity ⬝ᵥ coords g =
      -(coords (of box x g).velocity ⬝ᵥ coords (of box x g).velocity) := by
  rw [dotProduct, dotProduct, ← Finset.sum_neg_distrib]
  apply Finset.sum_congr rfl
  intro i _
  rw [coords_apply, coords_apply, getElem_velocity]
  split
  · ring
  · ring

theorem mem_moving {i : Fin n} :
    i ∈ (List.finRange n).filter (fun i => departure box x g i == .moving) ↔
      departure box x g i = .moving := by
  rw [List.mem_filter, beq_iff_eq]
  exact ⟨fun h => h.2, fun h => ⟨List.mem_finRange i, h⟩⟩

/-- The breakpoints, in the order of the variables. -/
noncomputable def unordered (box : Box ℝ n) (x g : Vector ℝ n) : List (Breakpoint ℝ n) :=
  ((List.finRange n).filter fun i => departure box x g i == .moving).filterMap fun i =>
    (arrival? box x g i).map (Breakpoint.mk i)

theorem breakpoints_perm : (of box x g).breakpoints.Perm (unordered box x g) :=
  Breakpoint.inOrder_perm _

theorem breakpoints_precede :
    (of box x g).breakpoints.Pairwise fun a c => a.precedes c = true :=
  Breakpoint.inOrder_sorted _

theorem breakpoints_sorted :
    (of box x g).breakpoints.Pairwise fun a c => a.time ≤ c.time :=
  breakpoints_precede.imp Breakpoint.le_of_precedes

theorem mem_breakpoints {b : Breakpoint ℝ n} :
    b ∈ (of box x g).breakpoints ↔
      departure box x g b.index = .moving ∧ arrival? box x g b.index = some b.time := by
  rw [breakpoints_perm.mem_iff, unordered, List.mem_filterMap]
  constructor
  · rintro ⟨i, hi, hb⟩
    obtain ⟨τ, hτ, rfl⟩ := Option.map_eq_some_iff.mp hb
    exact ⟨mem_moving.mp hi, hτ⟩
  · rintro ⟨hmoving, htime⟩
    exact ⟨b.index, mem_moving.mpr hmoving, by rw [htime]; rfl⟩

theorem nodup_breakpoints : ((of box x g).breakpoints.map Breakpoint.index).Nodup := by
  have hindex : ∀ i k : Fin n,
      k ∈ ((arrival? box x g i).map (Breakpoint.mk i)).map Breakpoint.index → k = i := by
    intro i k hk
    obtain ⟨b, hb, rfl⟩ := Option.map_eq_some_iff.mp hk
    obtain ⟨τ, -, rfl⟩ := Option.map_eq_some_iff.mp hb
    rfl
  rw [(breakpoints_perm.map Breakpoint.index).nodup_iff, unordered, List.map_filterMap]
  apply List.Nodup.filterMap
  · intro i j k hi hj
    rw [← hindex i k hi, hindex j k hj]
  · exact (List.nodup_finRange n).filter _

theorem endless_iff :
    (of box x g).endless = true ↔
      ∃ i, departure box x g i = .moving ∧ arrival? box x g i = none := by
  have hdef : (of box x g).endless =
      ((List.finRange n).filter fun i => departure box x g i == .moving).any
        fun i => (arrival? box x g i).isNone := rfl
  rw [hdef, List.any_eq_true]
  simp only [mem_moving, Option.isNone_iff_eq_none]

/-- A path with as many breakpoints as variables has one for every variable. -/
theorem exists_breakpoint (h : (of box x g).meetsAllLimits = true) (i : Fin n) :
    ∃ b ∈ (of box x g).breakpoints, b.index = i := by
  have hlen : ((of box x g).breakpoints.map Breakpoint.index).length = n := by
    rw [List.length_map]
    exact beq_iff_eq.mp h
  have hnodup : ((of box x g).breakpoints.map Breakpoint.index).Nodup := nodup_breakpoints
  have hcard := List.toFinset_card_of_nodup hnodup
  rw [hlen] at hcard
  have huniv := Finset.eq_univ_of_card _ (hcard.trans (Fintype.card_fin n).symm)
  have hi : i ∈ ((of box x g).breakpoints.map Breakpoint.index).toFinset := by
    rw [huniv]
    exact Finset.mem_univ i
  exact List.mem_map.mp (List.mem_toFinset.mp hi)

theorem endless_of_meetsAllLimits (h : (of box x g).meetsAllLimits = true) :
    (of box x g).endless = false := by
  rw [Bool.eq_false_iff]
  intro hend
  obtain ⟨i, -, hnone⟩ := endless_iff.mp hend
  obtain ⟨b, hb, rfl⟩ := exists_breakpoint h i
  rw [(mem_breakpoints.mp hb).2] at hnone
  cases hnone

theorem breakpoints_unbounded (x g : Vector ℝ n) :
    (of (Box.unbounded n) x g).breakpoints = [] := by
  apply List.eq_nil_iff_forall_not_mem.mpr
  intro b hb
  have harr := (mem_breakpoints.mp hb).2
  rw [arrival?, Box.kind_unbounded] at harr
  rcases Breakpoint.limit_of_time? harr with ⟨-, hl⟩ | ⟨-, hu⟩
  · cases hl
  · cases hu

/-! ### Variables -/

section

variable (hx : box.contains x = true)

include hx

theorem hasRoom {i : Fin n} (h : departure box x g i = .moving) :
    Departure.HasRoom (box.kind i) x[i] (-g[i]) := by
  have hadm := Box.contains_iff.mp hx i
  rcases Departure.of_cases (box.kind_valid i) hadm (-g[i]) with ⟨he, -⟩ | ⟨he, -⟩ | ⟨-, -, hr⟩
  · rw [departure, he] at h
    cases h
  · rw [departure, he] at h
    cases h
  · exact hr

theorem descend_of_not_moving {i : Fin n} (h : departure box x g i ≠ .moving) {t : ℝ}
    (ht : 0 ≤ t) : (box.descend x g t)[i] = x[i] := by
  have hadm := Box.contains_iff.mp hx i
  rw [Box.getElem_descend]
  rcases Departure.of_cases (box.kind_valid i) hadm (-g[i]) with ⟨-, hs⟩ | ⟨-, -, hv⟩ | ⟨he, -⟩
  · exact hs t ht
  · rw [hv, mul_zero, add_zero]
    exact Bound.clamp_of_admits hadm
  · exact absurd he h

theorem eq_zero_of_stationary {i : Fin n} (h : departure box x g i = .stationary) :
    g[i] = 0 := by
  have hadm := Box.contains_iff.mp hx i
  rcases Departure.of_cases (box.kind_valid i) hadm (-g[i]) with ⟨he, -⟩ | ⟨-, -, hv⟩ | ⟨he, -⟩
  · rw [departure, he] at h
    cases h
  · exact neg_eq_zero.mp hv
  · rw [departure, he] at h
    cases h

theorem arrival_pos {i : Fin n} (h : departure box x g i = .moving) {τ : ℝ}
    (hτ : arrival? box x g i = some τ) : 0 < τ :=
  Breakpoint.time?_pos (hasRoom hx h) hτ

/-- Until it arrives a moving variable follows its velocity. -/
theorem descend_of_moving {i : Fin n} (h : departure box x g i = .moving) {t : ℝ} (ht : 0 ≤ t)
    (hbefore : ∀ τ, arrival? box x g i = some τ → t ≤ τ) :
    (box.descend x g t)[i] = x[i] + t * -g[i] := by
  have hadm := Box.contains_iff.mp hx i
  rw [Box.getElem_descend]
  cases harr : arrival? box x g i with
  | none => exact Breakpoint.clamp_of_time?_none hadm (hasRoom hx h).ne_zero harr ht
  | some τ => exact Breakpoint.clamp_before hadm harr ht (hbefore τ harr)

omit hx in
theorem descend_of_arrived {i : Fin n} {τ t : ℝ} (hτ : arrival? box x g i = some τ)
    (ht : τ ≤ t) : (box.descend x g t)[i] = Breakpoint.stopValue (box.kind i) x[i] (-g[i]) := by
  rw [Box.getElem_descend]
  exact Breakpoint.clamp_after (box.kind_valid i) hτ ht

/-- A moving variable is away from its start at any later time. -/
theorem descend_ne {i : Fin n} (h : departure box x g i = .moving) {t : ℝ} (ht : 0 < t) :
    (box.descend x g t)[i] ≠ x[i] := by
  have hne := (hasRoom hx h).ne_zero
  have hmove : ∀ s : ℝ, 0 < s → x[i] + s * -g[i] ≠ x[i] := by
    intro s hs he
    exact mul_ne_zero (ne_of_gt hs) hne (add_eq_left.mp he)
  cases harr : arrival? box x g i with
  | none =>
    rw [descend_of_moving hx h (le_of_lt ht) fun τ hτ => by rw [harr] at hτ; cases hτ]
    exact hmove t ht
  | some τ =>
    rcases le_total t τ with hle | hle
    · rw [descend_of_moving hx h (le_of_lt ht) fun σ hσ => by
        rw [harr] at hσ
        cases hσ
        exact hle]
      exact hmove t ht
    · rw [descend_of_arrived harr hle, Breakpoint.stopValue_eq harr]
      exact hmove τ (arrival_pos hx h harr)

theorem velocity_eq_zero_iff (i : Fin n) :
    (of box x g).velocity[i] = 0 ↔ departure box x g i ≠ .moving := by
  rw [getElem_velocity]
  split
  · rename_i hm
    exact ⟨fun hv => absurd hv (hasRoom hx hm).ne_zero, fun hn => absurd hm hn⟩
  · rename_i hm
    exact ⟨fun _ => hm, fun _ => rfl⟩

omit hx in
theorem velocity_of_moving {i : Fin n} (h : departure box x g i = .moving) :
    (of box x g).velocity[i] = -g[i] := by
  rw [getElem_velocity, if_pos h]

omit hx in
theorem moving_of_velocity {i : Fin n} (h : (of box x g).velocity[i] ≠ 0) :
    departure box x g i = .moving := by
  by_contra hm
  rw [getElem_velocity, if_neg hm] at h
  exact h rfl

/-- The path leaves in the coordinates in which the projected gradient is not zero. -/
theorem projectedGradient_eq_zero_iff (i : Fin n) :
    (box.projectedGradient x g)[i] = 0 ↔ (of box x g).velocity[i] = 0 := by
  have hclip := Bound.clipSlope_eq (box.kind_valid i) (Box.contains_iff.mp hx i) g[i]
  have hone : (box.descend x g 1)[i] = (box.kind i).clamp (x[i] - g[i]) := by
    rw [Box.getElem_descend, one_mul, sub_eq_add_neg]
  rw [Box.getElem_projectedGradient, hclip, ← hone, sub_eq_zero, velocity_eq_zero_iff hx]
  constructor
  · intro he hm
    exact descend_ne hx hm one_pos he.symm
  · intro hm
    exact (descend_of_not_moving hx hm zero_le_one).symm

theorem projectedGradient_eq_iff :
    box.projectedGradient x g = Vector.replicate n 0 ↔ coords (of box x g).velocity = 0 := by
  rw [← coords_eq_zero_iff, funext_iff, funext_iff]
  exact forall_congr' (projectedGradient_eq_zero_iff hx)

end

end Path

end BoxDescent
