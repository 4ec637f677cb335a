import BoxDescent.Proofs.Linear.Coordinates
import BoxDescent.Proofs.Projection

/-!
# How far a variable can go

From an admitted value a variable may follow a direction until it reaches the limit ahead.
`reach` is the longest step that stays admitted: shorter steps are admitted, longer ones
are not, and a step below the cap ends on the limit.  Asked of one variable after the other,
each time with the answer before as the cap, it gives the longest step that all of them admit.
-/

namespace BoxDescent

namespace Bound

/-- The step `r` is the longest one, at most `cap`, that keeps a value between the limits
when it moves from `a` along `d`. -/
structure Reaches (b : Bound ℝ) (a d cap r : ℝ) : Prop where
  nonneg : 0 ≤ r
  le_cap : r ≤ cap
  admits_iff : ∀ t, 0 ≤ t → t ≤ cap → (b.Admits (a + t * d) ↔ t ≤ r)
  on_limit : r < cap → (d < 0 ∧ a + r * d ∈ b.lower?) ∨ (0 < d ∧ a + r * d ∈ b.upper?)

variable {b : Bound ℝ} {a d cap : ℝ}

theorem reaches_cap (hcap : 0 ≤ cap) (h : ∀ t, 0 ≤ t → t ≤ cap → b.Admits (a + t * d)) :
    b.Reaches a d cap cap where
  nonneg := hcap
  le_cap := le_refl cap
  admits_iff t h0 ht := ⟨fun _ => ht, fun _ => h t h0 ht⟩
  on_limit h := absurd h (lt_irrefl cap)

/-- Moving down only the lower limit counts. -/
theorem admits_down_iff (ha : b.Admits a) (hd : d ≤ 0) {t : ℝ} (ht : 0 ≤ t) :
    b.Admits (a + t * d) ↔ ∀ l ∈ b.lower?, l ≤ a + t * d := by
  refine ⟨fun h => h.lower, fun h => ⟨h, ?_⟩⟩
  intro u hu
  have hle := ha.upper u hu
  have htd := mul_nonpos_of_nonneg_of_nonpos ht hd
  linarith

theorem admits_up_iff (ha : b.Admits a) (hd : 0 ≤ d) {t : ℝ} (ht : 0 ≤ t) :
    b.Admits (a + t * d) ↔ ∀ u ∈ b.upper?, a + t * d ≤ u := by
  refine ⟨fun h => h.upper, fun h => ⟨?_, h⟩⟩
  intro l hl
  have hle := ha.lower l hl
  have htd := mul_nonneg ht hd
  linarith

theorem reaches_down {l : ℝ} (ha : b.Admits a) (hl : l ∈ b.lower?) (hd : d < 0)
    (h : d * cap < l - a) : b.Reaches a d cap ((l - a) / d) where
  nonneg := div_nonneg_of_nonpos (sub_nonpos.mpr (ha.lower l hl)) (le_of_lt hd)
  le_cap := by
    rw [div_le_iff_of_neg hd]
    linarith
  admits_iff t h0 _ := by
    rw [admits_down_iff ha (le_of_lt hd) h0, le_div_iff_of_neg hd]
    constructor
    · intro hall
      have hle := hall l hl
      linarith
    · intro hle l' hl'
      rw [Option.mem_unique hl' hl]
      linarith
  on_limit _ := by
    refine .inl ⟨hd, ?_⟩
    rw [div_mul_cancel₀ _ (ne_of_lt hd), add_sub_cancel]
    exact hl

theorem reaches_up {u : ℝ} (ha : b.Admits a) (hu : u ∈ b.upper?) (hd : 0 < d)
    (h : u - a < d * cap) : b.Reaches a d cap ((u - a) / d) where
  nonneg := div_nonneg (sub_nonneg.mpr (ha.upper u hu)) (le_of_lt hd)
  le_cap := by
    rw [div_le_iff₀ hd]
    linarith
  admits_iff t h0 _ := by
    rw [admits_up_iff ha (le_of_lt hd) h0, le_div_iff₀ hd]
    constructor
    · intro hall
      have hle := hall u hu
      linarith
    · intro hle u' hu'
      rw [Option.mem_unique hu' hu]
      linarith
  on_limit _ := by
    refine .inr ⟨hd, ?_⟩
    rw [div_mul_cancel₀ _ (ne_of_gt hd), add_sub_cancel]
    exact hu

theorem reaches_of_lower (ha : b.Admits a) (hcap : 0 ≤ cap) (hd : d < 0) {l : ℝ}
    (hl : l ∈ b.lower?) :
    b.Reaches a d cap (if 0 ≤ l - a then 0 else if d * cap < l - a then (l - a) / d else cap) := by
  have hle := ha.lower l hl
  have hstay : ¬d * cap < l - a → b.Reaches a d cap cap := by
    intro h
    apply reaches_cap hcap
    intro t h0 ht
    rw [admits_down_iff ha (le_of_lt hd) h0]
    intro l' hl'
    have hmul := mul_le_mul_of_nonpos_right ht (le_of_lt hd)
    rw [Option.mem_unique hl' hl]
    linarith
  split
  · rename_i hroom
    -- on the limit already: zero is the quotient, or it is the cap
    have hzero : l - a = 0 := le_antisymm (sub_nonpos.mpr hle) hroom
    by_cases hlong : d * cap < l - a
    · have hdown := reaches_down ha hl hd hlong
      rwa [hzero, zero_div] at hdown
    · have hnone : cap = 0 := by
        by_contra hne
        have hpos := lt_of_le_of_ne hcap (Ne.symm hne)
        exact hlong (by rw [hzero]; exact mul_neg_of_neg_of_pos hd hpos)
      have hall := hstay hlong
      rwa [hnone] at hall ⊢
  · split
    · rename_i hlong
      exact reaches_down ha hl hd hlong
    · rename_i hshort
      exact hstay hshort

theorem reaches_of_upper (ha : b.Admits a) (hcap : 0 ≤ cap) (hd : 0 < d) {u : ℝ}
    (hu : u ∈ b.upper?) :
    b.Reaches a d cap (if u - a ≤ 0 then 0 else if u - a < d * cap then (u - a) / d else cap) := by
  have hle := ha.upper u hu
  have hstay : ¬u - a < d * cap → b.Reaches a d cap cap := by
    intro h
    apply reaches_cap hcap
    intro t h0 ht
    rw [admits_up_iff ha (le_of_lt hd) h0]
    intro u' hu'
    have hmul := mul_le_mul_of_nonneg_right ht (le_of_lt hd)
    rw [Option.mem_unique hu' hu]
    linarith
  split
  · rename_i hroom
    have hzero : u - a = 0 := le_antisymm hroom (sub_nonneg.mpr hle)
    by_cases hlong : u - a < d * cap
    · have hup := reaches_up ha hu hd hlong
      rwa [hzero, zero_div] at hup
    · have hnone : cap = 0 := by
        by_contra hne
        have hpos := lt_of_le_of_ne hcap (Ne.symm hne)
        exact hlong (by rw [hzero]; exact mul_pos hd hpos)
      have hall := hstay hlong
      rwa [hnone] at hall ⊢
  · split
    · rename_i hlong
      exact reaches_up ha hu hd hlong
    · rename_i hshort
      exact hstay hshort

theorem reaches_reach (ha : b.Admits a) (hcap : 0 ≤ cap) (d : ℝ) :
    b.Reaches a d cap (b.reach a d cap) := by
  unfold reach
  split
  · rename_i hd
    cases hl : b.lower? with
    | some l => exact reaches_of_lower ha hcap hd hl
    | none =>
      apply reaches_cap hcap
      intro t h0 _
      rw [admits_down_iff ha (le_of_lt hd) h0, hl]
      intro l hmem
      cases hmem
  · rename_i hdown
    split
    · rename_i hd
      cases hu : b.upper? with
      | some u => exact reaches_of_upper ha hcap hd hu
      | none =>
        apply reaches_cap hcap
        intro t h0 _
        rw [admits_up_iff ha (le_of_lt hd) h0, hu]
        intro u hmem
        cases hmem
    · rename_i hup
      have hzero : d = 0 := le_antisymm (not_lt.mp hup) (not_lt.mp hdown)
      apply reaches_cap hcap
      intro t _ _
      rw [hzero, mul_zero, add_zero]
      exact ha

/-- What lies between two admitted values is admitted. -/
theorem Admits.between {t : ℝ} (hstart : b.Admits a) (hend : b.Admits (a + d)) (h0 : 0 ≤ t)
    (h1 : t ≤ 1) : b.Admits (a + t * d) := by
  have hmean : a + t * d = (1 - t) * a + t * (a + d) := by ring
  have hrest : 0 ≤ 1 - t := sub_nonneg.mpr h1
  rw [hmean]
  constructor
  · intro l hl
    have hleft := mul_le_mul_of_nonneg_left (hstart.lower l hl) hrest
    have hright := mul_le_mul_of_nonneg_left (hend.lower l hl) h0
    linarith
  · intro u hu
    have hleft := mul_le_mul_of_nonneg_left (hstart.upper u hu) hrest
    have hright := mul_le_mul_of_nonneg_left (hend.upper u hu) h0
    linarith

/-! ### Several variables -/

/-- The step `r` is the longest one, at most `cap`, that the first `k` of several moving
values admit. -/
structure LongestFor {m : Nat} (kinds : Fin m → Bound ℝ) (a d : Fin m → ℝ) (cap : ℝ) (k : Nat)
    (r : ℝ) : Prop where
  nonneg : 0 ≤ r
  le_cap : r ≤ cap
  admits_iff : ∀ t, 0 ≤ t → t ≤ cap →
    ((∀ j : Fin m, j.val < k → (kinds j).Admits (a j + t * d j)) ↔ t ≤ r)

section

variable {m : Nat} {kinds : Fin m → Bound ℝ} {a d : Fin m → ℝ} {cap r : ℝ}

theorem longestFor_zero (hcap : 0 ≤ cap) : LongestFor kinds a d cap 0 cap where
  nonneg := hcap
  le_cap := le_refl cap
  admits_iff _ _ ht := ⟨fun _ => ht, fun _ _ hj => absurd hj (Nat.not_lt_zero _)⟩

theorem LongestFor.next {i : Fin m} (h : LongestFor kinds a d cap i r)
    (ha : (kinds i).Admits (a i)) :
    LongestFor kinds a d cap (i + 1) ((kinds i).reach (a i) (d i) r) := by
  have hreach := reaches_reach ha h.nonneg (d i)
  refine ⟨hreach.nonneg, le_trans hreach.le_cap h.le_cap, ?_⟩
  intro t h0 ht
  constructor
  · intro hall
    have hr : t ≤ r := (h.admits_iff t h0 ht).mp fun j hj => hall j (Nat.lt_succ_of_lt hj)
    exact (hreach.admits_iff t h0 hr).mp (hall i (Nat.lt_succ_self _))
  · intro hle j hj
    have hr := le_trans hle hreach.le_cap
    rcases Nat.lt_succ_iff_lt_or_eq.mp hj with hlt | heq
    · exact (h.admits_iff t h0 ht).mpr hr j hlt
    · obtain rfl : j = i := Fin.ext heq
      exact (hreach.admits_iff t h0 hr).mpr hle

theorem LongestFor.all_admit_iff (h : LongestFor kinds a d cap m r) {t : ℝ} (h0 : 0 ≤ t)
    (ht : t ≤ cap) : (∀ j, (kinds j).Admits (a j + t * d j)) ↔ t ≤ r := by
  rw [← h.admits_iff t h0 ht]
  exact ⟨fun hall j _ => hall j, fun hall j => hall j j.isLt⟩

theorem LongestFor.isGreatest (h : LongestFor kinds a d cap m r) :
    IsGreatest {t | t ∈ Set.Icc 0 cap ∧ ∀ j, (kinds j).Admits (a j + t * d j)} r := by
  constructor
  · exact ⟨⟨h.nonneg, h.le_cap⟩, (h.all_admit_iff h.nonneg h.le_cap).mpr le_rfl⟩
  · rintro t ⟨⟨h0, ht⟩, hall⟩
    exact (h.all_admit_iff h0 ht).mp hall

end

end Bound

namespace Box

variable {n : Nat} {box : Box ℝ n} {x : Vector ℝ n} {cap : ℝ}

theorem contains_addScaled_iff {d : Vector ℝ n} {t : ℝ} :
    box.contains (addScaled x t d) = true ↔
      ∀ i : Fin n, (box.kind i).Admits (coords x i + t * coords d i) := by
  have hentry : ∀ i : Fin n, (addScaled x t d)[i] = coords x i + t * coords d i :=
    congrFun (coords_addScaled x t d)
  simp only [contains_iff, hentry]

theorem longestFor_maxStep (hx : box.contains x = true) (hcap : 0 ≤ cap) (d : Vector ℝ n) :
    Bound.LongestFor box.kind (coords x) (coords d) cap n (box.maxStep x d cap) :=
  foldl_invariant (fun k acc => Bound.LongestFor box.kind (coords x) (coords d) cap k acc)
    (Bound.longestFor_zero hcap) fun i _ h => h.next (contains_iff.mp hx i)

/-- A step up to the cap stays in the box if it is at most `maxStep`, and leaves it if not. -/
theorem contains_addScaled_iff_le (hx : box.contains x = true) (d : Vector ℝ n) {t : ℝ}
    (ht : 0 ≤ t) (hcap : t ≤ cap) :
    box.contains (addScaled x t d) = true ↔ t ≤ box.maxStep x d cap := by
  rw [contains_addScaled_iff]
  exact (longestFor_maxStep hx (le_trans ht hcap) d).all_admit_iff ht hcap

theorem contains_between {d : Vector ℝ n} {t : ℝ} (hx : box.contains x = true)
    (hend : box.contains (x + d) = true) (h0 : 0 ≤ t) (h1 : t ≤ 1) :
    box.contains (addScaled x t d) = true := by
  rw [contains_addScaled_iff]
  intro i
  have hi := contains_iff.mp hend i
  rw [← coords_apply, coords_add] at hi
  exact (contains_iff.mp hx i).between hi h0 h1

theorem min_one_le_maxStep {d : Vector ℝ n} (hx : box.contains x = true)
    (hend : box.contains (x + d) = true) (hcap : 0 ≤ cap) : min 1 cap ≤ box.maxStep x d cap := by
  have h0 : 0 ≤ min 1 cap := le_min zero_le_one hcap
  have hstays := contains_between hx hend h0 (min_le_left 1 cap)
  exact (contains_addScaled_iff_le hx d h0 (min_le_right 1 cap)).mp hstays

/-- The greatest step up to the cap that stays in the box; not less than the whole way to `x + d`
if that is in the box, as far as the cap goes. -/
theorem isGreatest_maxStep (box : Box ℝ n) (x d : Vector ℝ n) (cap : ℝ)
    (hx : box.contains x = true) (hcap : 0 ≤ cap) :
    IsGreatest {t | t ∈ Set.Icc 0 cap ∧ box.contains (addScaled x t d) = true}
        (box.maxStep x d cap) ∧
      (box.contains (x + d) = true → min 1 cap ≤ box.maxStep x d cap) := by
  refine ⟨?_, fun hend => min_one_le_maxStep hx hend hcap⟩
  simp only [contains_addScaled_iff]
  exact (longestFor_maxStep hx hcap d).isGreatest

/-- Two variables, the first one at most 2 and the second one not negative. -/
noncomputable def corner : Box ℝ 2 :=
  .ofFn (fun i => if i = 0 then .atMost 2 else .atLeast 0) fun i => by
    split
    · exact valid_atMost 2
    · exact valid_atLeast 0

theorem kind_corner_zero : corner.kind 0 = .atMost 2 := kind_ofFn _ _ 0

theorem kind_corner_one : corner.kind 1 = .atLeast 0 := kind_ofFn _ _ 1

theorem contains_corner {a b : ℝ} (ha : a ≤ 2) (hb : 0 ≤ b) :
    corner.contains #v[a, b] = true := by
  rw [contains_iff, Fin.forall_fin_two, kind_corner_zero, kind_corner_one]
  constructor
  · exact ⟨fun l hl => (nomatch hl), fun u hu => by cases hu; exact ha⟩
  · exact ⟨fun l hl => by cases hl; exact hb, fun u hu => nomatch hu⟩

/-- The second variable ends a step that the first one has cut already; and a step that both
admit as a whole. -/
theorem isGreatest_maxStep_in_corner :
    corner.contains #v[1, 1] = true ∧ (0 : ℝ) ≤ 3 ∧ corner.maxStep #v[1, 1] #v[1, -4] 3 = 1 / 4 ∧
      IsGreatest {t : ℝ | t ∈ Set.Icc 0 3 ∧
        corner.contains (addScaled #v[1, 1] t #v[1, -4]) = true} (1 / 4) ∧
      corner.contains (#v[1, 1] + #v[1, -1]) = true ∧
      min 1 3 ≤ corner.maxStep #v[1, 1] #v[1, -1] 3 := by
  have hx : corner.contains #v[1, 1] = true := contains_corner one_le_two zero_le_one
  have hcap : (0 : ℝ) ≤ 3 := zero_le_three
  have hend : corner.contains (#v[1, 1] + #v[1, -1]) = true := by
    have hsum : (#v[1, 1] + #v[1, -1] : Vector ℝ 2) = #v[2, 0] := by
      apply coords_injective
      rw [coords_add]
      funext i
      fin_cases i
      · exact one_add_one_eq_two
      · exact add_neg_cancel 1
    rw [hsum]
    exact contains_corner le_rfl le_rfl
  have hstep : corner.maxStep #v[1, 1] #v[1, -4] 3 = 1 / 4 := by
    have hfirst : (corner.kind 0).reach 1 1 3 = 1 := by
      rw [kind_corner_zero]
      norm_num [Bound.reach, Bound.upper?]
    have hsecond : (corner.kind 1).reach 1 (-4) 1 = 1 / 4 := by
      rw [kind_corner_one]
      norm_num [Bound.reach, Bound.lower?]
    change (corner.kind 1).reach 1 (-4) ((corner.kind 0).reach 1 1 3) = 1 / 4
    rw [hfirst, hsecond]
  have hgreatest := (isGreatest_maxStep corner #v[1, 1] #v[1, -4] 3 hx hcap).1
  rw [hstep] at hgreatest
  exact ⟨hx, hcap, hstep, hgreatest, hend,
    (isGreatest_maxStep corner #v[1, 1] #v[1, -1] 3 hx hcap).2 hend⟩

end Box

end BoxDescent
