import BoxDescent.Proofs.Exact
import BoxDescent.Box

/-!
# Projection onto a box

With real scalars `clamp` goes to the closest admitted value: an admitted value stays, and
one beyond a limit goes to that limit.  A projected gradient is the way from the
projection of `x - g` back to `x`.
-/

namespace BoxDescent

theorem valid_atLeast (l : ℝ) : (Bound.atLeast l).Valid :=
  Bound.valid_ofLimits (l := some l) (u := none) (fun _ _ => rfl) (fun _ h => nomatch h) rfl

theorem valid_atMost (u : ℝ) : (Bound.atMost u).Valid :=
  Bound.valid_ofLimits (l := none) (u := some u) (fun _ h => nomatch h) (fun _ _ => rfl) rfl

namespace Bound

/-- A value that lies between the limits. -/
structure Admits (b : Bound ℝ) (a : ℝ) : Prop where
  lower : ∀ l ∈ b.lower?, l ≤ a
  upper : ∀ u ∈ b.upper?, a ≤ u

variable {b : Bound ℝ} {a : ℝ}

theorem lower_le_upper (hb : b.Valid) {l u : ℝ} (hl : l ∈ b.lower?) (hu : u ∈ b.upper?) :
    l ≤ u := by
  have h := hb.2.2
  rw [Option.mem_def.mp hl, Option.mem_def.mp hu, crossed?] at h
  by_contra hlt
  rw [if_neg hlt] at h
  cases h

theorem clamp_of_admits (h : b.Admits a) : b.clamp a = a := by
  cases b with
  | unbounded => rfl
  | atLeast l =>
    rw [clamp, Scalar.larger_real]
    exact max_eq_left (h.lower l rfl)
  | atMost u =>
    rw [clamp, Scalar.smaller_real]
    exact min_eq_left (h.upper u rfl)
  | between l u =>
    rw [clamp, Scalar.smaller_real, Scalar.larger_real, max_eq_left (h.lower l rfl)]
    exact min_eq_left (h.upper u rfl)

theorem clamp_of_le_lower (hb : b.Valid) {l : ℝ} (hl : l ∈ b.lower?) (h : a ≤ l) :
    b.clamp a = l := by
  cases b with
  | unbounded => cases hl
  | atMost u => cases hl
  | atLeast l' =>
    cases hl
    rw [clamp, Scalar.larger_real]
    exact max_eq_right h
  | between l' u =>
    cases hl
    rw [clamp, Scalar.smaller_real, Scalar.larger_real, max_eq_right h]
    exact min_eq_left (lower_le_upper hb rfl rfl)

theorem clamp_of_upper_le (hb : b.Valid) {u : ℝ} (hu : u ∈ b.upper?) (h : u ≤ a) :
    b.clamp a = u := by
  cases b with
  | unbounded => cases hu
  | atLeast l => cases hu
  | atMost u' =>
    cases hu
    rw [clamp, Scalar.smaller_real]
    exact min_eq_right h
  | between l u' =>
    cases hu
    have hle : l ≤ a := le_trans (lower_le_upper hb rfl rfl) h
    rw [clamp, Scalar.smaller_real, Scalar.larger_real, max_eq_left hle]
    exact min_eq_right h

theorem admits_lower (hb : b.Valid) {l : ℝ} (hl : l ∈ b.lower?) : b.Admits l where
  lower _ hl' := le_of_eq (Option.mem_unique hl' hl)
  upper _ hu := lower_le_upper hb hl hu

theorem admits_upper (hb : b.Valid) {u : ℝ} (hu : u ∈ b.upper?) : b.Admits u where
  lower _ hl := lower_le_upper hb hl hu
  upper _ hu' := le_of_eq (Option.mem_unique hu hu')

theorem admits_clamp (hb : b.Valid) (a : ℝ) : b.Admits (b.clamp a) := by
  by_cases hl : ∀ l ∈ b.lower?, l ≤ a
  · by_cases hu : ∀ u ∈ b.upper?, a ≤ u
    · rw [clamp_of_admits ⟨hl, hu⟩]
      exact ⟨hl, hu⟩
    · push Not at hu
      obtain ⟨u, hmem, hlt⟩ := hu
      rw [clamp_of_upper_le hb hmem (le_of_lt hlt)]
      exact admits_upper hb hmem
  · push Not at hl
    obtain ⟨l, hmem, hlt⟩ := hl
    rw [clamp_of_le_lower hb hmem (le_of_lt hlt)]
    exact admits_lower hb hmem

theorem admits_unbounded (a : ℝ) : Bound.unbounded.Admits a where
  lower l hl := by cases hl
  upper u hu := by cases hu

theorem clamp_eq_self_iff (hb : b.Valid) : b.clamp a = a ↔ b.Admits a := by
  constructor
  · intro h
    rw [← h]
    exact admits_clamp hb a
  · exact clamp_of_admits

/-- A value above the lower limit can only be brought down. -/
theorem clamp_of_lower (h : ∀ l ∈ b.lower?, l ≤ a) : b.clamp a = b.upper?.elim a (min a) := by
  cases b with
  | unbounded => rfl
  | atLeast l =>
    rw [clamp, Scalar.larger_real]
    exact max_eq_left (h l rfl)
  | atMost u => exact Scalar.smaller_real a u
  | between l u =>
    rw [clamp, Scalar.smaller_real, Scalar.larger_real, max_eq_left (h l rfl)]
    rfl

/-- A value below the upper limit can only be brought up. -/
theorem clamp_of_upper (hb : b.Valid) (h : ∀ u ∈ b.upper?, a ≤ u) :
    b.clamp a = b.lower?.elim a (max a) := by
  cases b with
  | unbounded => rfl
  | atLeast l => exact Scalar.larger_real a l
  | atMost u =>
    rw [clamp, Scalar.smaller_real]
    exact min_eq_left (h u rfl)
  | between l u =>
    rw [clamp, Scalar.smaller_real, Scalar.larger_real]
    exact min_eq_left (max_le (h u rfl) (lower_le_upper hb rfl rfl))

/-- The slope cut to the distance from the limit is the way back from the clamped value. -/
theorem clipSlope_eq (hb : b.Valid) (ha : b.Admits a) (g : ℝ) :
    b.clipSlope a g = a - b.clamp (a - g) := by
  unfold clipSlope
  split
  · rename_i hneg
    have hlower : ∀ l ∈ b.lower?, l ≤ a - g := by
      intro l hl
      have hla := ha.lower l hl
      linarith
    rw [clamp_of_lower hlower]
    cases b.upper? with
    | none => exact (sub_sub_cancel a g).symm
    | some u =>
      simp only [Scalar.larger_real, Option.elim_some]
      rw [← max_sub_sub_left, sub_sub_cancel]
  · rename_i hnonneg
    have hupper : ∀ u ∈ b.upper?, a - g ≤ u := by
      intro u hu
      have hua := ha.upper u hu
      linarith
    rw [clamp_of_upper hb hupper]
    cases b.lower? with
    | none => exact (sub_sub_cancel a g).symm
    | some l =>
      simp only [Scalar.smaller_real, Option.elim_some]
      rw [← min_sub_sub_left, sub_sub_cancel]

end Bound

namespace Box

variable {n : Nat} {box : Box ℝ n}

theorem contains_iff {x : Vector ℝ n} :
    box.contains x = true ↔ ∀ i : Fin n, (box.kind i).Admits x[i] := by
  have hbeq : ∀ i : Fin n, ((box.kind i).clamp x[i] == x[i]) = true ↔
      (box.kind i).Admits x[i] := by
    intro i
    rw [← Bound.clamp_eq_self_iff (box.kind_valid i)]
    exact decide_eq_true_iff
  rw [contains, List.all_eq_true]
  constructor
  · intro h i
    exact (hbeq i).mp (h i (List.mem_finRange i))
  · intro h i _
    exact (hbeq i).mpr (h i)

theorem project_of_contains {x : Vector ℝ n} (h : box.contains x = true) :
    box.project x = x := by
  apply Vector.ext
  intro i hi
  have hclamp := Bound.clamp_of_admits (contains_iff.mp h ⟨i, hi⟩)
  rw [← getElem_project] at hclamp
  exact hclamp

theorem contains_project (x : Vector ℝ n) : box.contains (box.project x) = true := by
  rw [contains_iff]
  intro i
  rw [getElem_project]
  exact Bound.admits_clamp (box.kind_valid i) _

theorem contains_unbounded (x : Vector ℝ n) : (unbounded n).contains x = true := by
  rw [contains_iff]
  intro i
  rw [kind_unbounded]
  exact Bound.admits_unbounded _

end Box

end BoxDescent
