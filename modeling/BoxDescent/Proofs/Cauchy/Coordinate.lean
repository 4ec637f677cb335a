import BoxDescent.Proofs.Projection
import BoxDescent.Cauchy.Path

/-!
# One variable on the path

A variable that starts at an admitted value `a` and follows its velocity `v` is at
`clamp (a + t * v)` at time `t`.  If it is held it stays at `a`; if it moves, it follows
`a + t * v` until it reaches the limit ahead, at a positive time, and stays there.
-/

namespace BoxDescent

variable {b : Bound ℝ} {a v : ℝ}

namespace Departure

/-- There is room ahead of a value that moves with velocity `v`. -/
structure HasRoom (b : Bound ℝ) (a v : ℝ) : Prop where
  ne_zero : v ≠ 0
  lower_lt : v < 0 → ∀ l ∈ b.lower?, l < a
  lt_upper : 0 < v → ∀ u ∈ b.upper?, a < u

theorem isFixed_iff : b.isFixed = true ↔ ∃ l, b = .between l l := by
  cases b with
  | between l u =>
    have hbeq : (Bound.between l u).isFixed = true ↔ l = u := decide_eq_true_iff
    rw [hbeq]
    constructor
    · intro h
      exact ⟨l, by rw [h]⟩
    · rintro ⟨k, hk⟩
      cases hk
      rfl
  | unbounded => simp [Bound.isFixed]
  | atLeast l => simp [Bound.isFixed]
  | atMost u => simp [Bound.isFixed]

theorem lower_lt_upper (hb : b.Valid) (h : ¬b.isFixed = true) {l u : ℝ} (hl : l ∈ b.lower?)
    (hu : u ∈ b.upper?) : l < u := by
  apply lt_of_le_of_ne (Bound.lower_le_upper hb hl hu)
  intro he
  apply h
  rw [isFixed_iff]
  cases b with
  | between l' u' =>
    cases hl
    cases hu
    exact ⟨u, by rw [he]⟩
  | unbounded => cases hl
  | atLeast l' => cases hu
  | atMost u' => cases hl

theorem clamp_of_lower_le (hb : b.Valid) (ha : b.Admits a) {l : ℝ} (hl : l ∈ b.lower?)
    (hal : a ≤ l) (hv : v ≤ 0) {t : ℝ} (ht : 0 ≤ t) : b.clamp (a + t * v) = a := by
  have htv : t * v ≤ 0 := mul_nonpos_of_nonneg_of_nonpos ht hv
  rw [Bound.clamp_of_le_lower hb hl (by linarith)]
  exact le_antisymm (ha.lower l hl) hal

theorem clamp_of_le_upper (hb : b.Valid) (ha : b.Admits a) {u : ℝ} (hu : u ∈ b.upper?)
    (hua : u ≤ a) (hv : 0 ≤ v) {t : ℝ} (ht : 0 ≤ t) : b.clamp (a + t * v) = a := by
  have htv : 0 ≤ t * v := mul_nonneg ht hv
  rw [Bound.clamp_of_upper_le hb hu (by linarith)]
  exact le_antisymm hua (ha.upper u hu)

theorem clamp_of_isFixed (hb : b.Valid) (ha : b.Admits a) (h : b.isFixed = true) (c : ℝ) :
    b.clamp c = a := by
  obtain ⟨l, rfl⟩ := isFixed_iff.mp h
  have hal : a = l := le_antisymm (ha.upper l rfl) (ha.lower l rfl)
  rw [hal]
  rcases le_total c l with hc | hc
  · exact Bound.clamp_of_le_lower hb rfl hc
  · exact Bound.clamp_of_upper_le hb rfl hc

theorem any_lower_iff : (b.lower?.any fun l => decide (a - l ≤ 0)) = true ↔
    ∃ l ∈ b.lower?, a ≤ l := by
  rw [Option.any_eq_true]
  simp only [decide_eq_true_eq, sub_nonpos, Option.mem_def]

theorem any_upper_iff : (b.upper?.any fun u => decide (u - a ≤ 0)) = true ↔
    ∃ u ∈ b.upper?, u ≤ a := by
  rw [Option.any_eq_true]
  simp only [decide_eq_true_eq, sub_nonpos, Option.mem_def]

theorem lower_lt_of_not_any (h : ¬(b.lower?.any fun l => decide (a - l ≤ 0)) = true) :
    ∀ l ∈ b.lower?, l < a := by
  intro l hl
  by_contra hle
  exact h (any_lower_iff.mpr ⟨l, hl, not_lt.mp hle⟩)

theorem lt_upper_of_not_any (h : ¬(b.upper?.any fun u => decide (u - a ≤ 0)) = true) :
    ∀ u ∈ b.upper?, a < u := by
  intro u hu
  by_contra hle
  exact h (any_upper_iff.mpr ⟨u, hu, not_lt.mp hle⟩)

theorem hasRoom_of_unbounded (h : (!b.isBounded) = true) (hv : v ≠ 0) : HasRoom b a v := by
  cases b with
  | unbounded => exact ⟨hv, fun _ _ hl => (by cases hl), fun _ _ hu => (by cases hu)⟩
  | atLeast l => cases h
  | between l u => cases h
  | atMost u => cases h

/-- The three ways in which a variable leaves the start of the path. -/
theorem of_cases (hb : b.Valid) (ha : b.Admits a) (v : ℝ) :
    (of b a v = held ∧ ∀ t, 0 ≤ t → b.clamp (a + t * v) = a) ∨
    (of b a v = stationary ∧ b.isFixed = false ∧ v = 0) ∨
    (of b a v = moving ∧ b.isFixed = false ∧ HasRoom b a v) := by
  have hbeq : (v == 0) = decide (v = 0) := rfl
  unfold of
  split
  · rename_i hfix
    exact .inl ⟨rfl, fun t _ => clamp_of_isFixed hb ha hfix _⟩
  rename_i hfix
  have hfree : b.isFixed = false := Bool.eq_false_iff.mpr hfix
  split
  · -- Without limits only the velocity matters.
    rename_i hbounded
    split
    · rename_i hv
      exact .inr (.inl ⟨rfl, hfree, of_decide_eq_true hv⟩)
    · rename_i hv
      rw [hbeq, decide_eq_true_iff] at hv
      exact .inr (.inr ⟨rfl, hfree, hasRoom_of_unbounded hbounded hv⟩)
  split
  · rename_i hlow
    obtain ⟨l, hl, hal⟩ := any_lower_iff.mp hlow
    split
    · rename_i hv
      exact .inl ⟨rfl, fun t ht => clamp_of_lower_le hb ha hl hal hv ht⟩
    · rename_i hv
      rw [not_le] at hv
      refine .inr (.inr ⟨rfl, hfree, ne_of_gt hv, fun hneg => absurd hneg (lt_asymm hv), ?_⟩)
      intro _ u hu
      exact lt_of_le_of_lt hal (lower_lt_upper hb hfix hl hu)
  rename_i hlow
  have hlower := lower_lt_of_not_any hlow
  split
  · rename_i hup
    obtain ⟨u, hu, hua⟩ := any_upper_iff.mp hup
    split
    · rename_i hv
      exact .inl ⟨rfl, fun t ht => clamp_of_le_upper hb ha hu hua hv ht⟩
    · rename_i hv
      rw [not_le] at hv
      exact .inr (.inr ⟨rfl, hfree, ne_of_lt hv, fun _ => hlower,
        fun hpos => absurd hpos (lt_asymm hv)⟩)
  rename_i hup
  have hupper := lt_upper_of_not_any hup
  split
  · rename_i hv
    exact .inr (.inl ⟨rfl, hfree, of_decide_eq_true hv⟩)
  · rename_i hv
    rw [hbeq, decide_eq_true_iff] at hv
    exact .inr (.inr ⟨rfl, hfree, hv, fun _ => hlower, fun _ => hupper⟩)

end Departure

namespace Breakpoint

open Departure

/-- The value at which a variable stops that moves with velocity `v`. -/
noncomputable def stopValue (b : Bound ℝ) (a v : ℝ) : ℝ :=
  (if 0 < v then b.upper? else b.lower?).getD a

variable {τ t : ℝ}

/-- At its breakpoint a variable reaches the limit ahead. -/
theorem limit_of_time? (h : time? b a v = some τ) :
    (v < 0 ∧ a + τ * v ∈ b.lower?) ∨ (0 < v ∧ a + τ * v ∈ b.upper?) := by
  unfold time? at h
  split at h
  · rename_i hv
    obtain ⟨l, hl, rfl⟩ := Option.map_eq_some_iff.mp h
    refine .inl ⟨hv, ?_⟩
    have hne : v ≠ 0 := ne_of_lt hv
    have heq : a + (a - l) / -v * v = l := by
      field_simp
      ring
    rw [heq]
    exact hl
  · split at h
    · rename_i hv
      obtain ⟨u, hu, rfl⟩ := Option.map_eq_some_iff.mp h
      refine .inr ⟨hv, ?_⟩
      have heq : a + (u - a) / v * v = u := by
        field_simp
        ring
      rw [heq]
      exact hu
    · cases h

theorem time?_pos (hroom : HasRoom b a v) (h : time? b a v = some τ) : 0 < τ := by
  rcases limit_of_time? h with ⟨hv, hl⟩ | ⟨hv, hu⟩
  · have hlt := hroom.lower_lt hv _ hl
    exact (pos_iff_neg_of_mul_neg (by linarith)).mpr hv
  · have hlt := hroom.lt_upper hv _ hu
    exact (pos_iff_pos_of_mul_pos (by linarith)).mpr hv

theorem stopValue_eq (h : time? b a v = some τ) : stopValue b a v = a + τ * v := by
  unfold stopValue
  rcases limit_of_time? h with ⟨hv, hl⟩ | ⟨hv, hu⟩
  · rw [if_neg (lt_asymm hv), Option.mem_def.mp hl]
    rfl
  · rw [if_pos hv, Option.mem_def.mp hu]
    rfl

/-- A variable without a breakpoint follows its velocity forever. -/
theorem clamp_of_time?_none (ha : b.Admits a) (hv : v ≠ 0) (h : time? b a v = none)
    (ht : 0 ≤ t) : b.clamp (a + t * v) = a + t * v := by
  unfold time? at h
  apply Bound.clamp_of_admits
  rcases lt_or_gt_of_ne hv with hneg | hpos
  · rw [if_pos hneg, Option.map_eq_none_iff] at h
    have htv : t * v ≤ 0 := mul_nonpos_of_nonneg_of_nonpos ht (le_of_lt hneg)
    refine ⟨fun l hl => ?_, fun u hu => ?_⟩
    · rw [h] at hl
      cases hl
    · have hau := ha.upper u hu
      linarith
  · rw [if_neg (lt_asymm hpos), if_pos hpos, Option.map_eq_none_iff] at h
    have htv : 0 ≤ t * v := mul_nonneg ht (le_of_lt hpos)
    refine ⟨fun l hl => ?_, fun u hu => ?_⟩
    · have hal := ha.lower l hl
      linarith
    · rw [h] at hu
      cases hu

theorem clamp_before (ha : b.Admits a) (h : time? b a v = some τ) (ht : 0 ≤ t)
    (htτ : t ≤ τ) : b.clamp (a + t * v) = a + t * v := by
  apply Bound.clamp_of_admits
  rcases limit_of_time? h with ⟨hv, hlim⟩ | ⟨hv, hlim⟩
  · have htv : t * v ≤ 0 := mul_nonpos_of_nonneg_of_nonpos ht (le_of_lt hv)
    have hτv : τ * v ≤ t * v := mul_le_mul_of_nonpos_right htτ (le_of_lt hv)
    refine ⟨fun l hl => ?_, fun u hu => ?_⟩
    · rw [Option.mem_unique hl hlim]
      linarith
    · have hau := ha.upper u hu
      linarith
  · have htv : 0 ≤ t * v := mul_nonneg ht (le_of_lt hv)
    have hτv : t * v ≤ τ * v := mul_le_mul_of_nonneg_right htτ (le_of_lt hv)
    refine ⟨fun l hl => ?_, fun u hu => ?_⟩
    · have hal := ha.lower l hl
      linarith
    · rw [Option.mem_unique hu hlim]
      linarith

theorem clamp_after (hb : b.Valid) (h : time? b a v = some τ) (htτ : τ ≤ t) :
    b.clamp (a + t * v) = stopValue b a v := by
  rw [stopValue_eq h]
  rcases limit_of_time? h with ⟨hv, hlim⟩ | ⟨hv, hlim⟩
  · have hτv : t * v ≤ τ * v := mul_le_mul_of_nonpos_right htτ (le_of_lt hv)
    exact Bound.clamp_of_le_lower hb hlim (by linarith)
  · have hτv : τ * v ≤ t * v := mul_le_mul_of_nonneg_right htτ (le_of_lt hv)
    exact Bound.clamp_of_upper_le hb hlim (by linarith)

end Breakpoint

end BoxDescent
