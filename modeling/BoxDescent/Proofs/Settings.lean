import BoxDescent.Proofs.Extended
import BoxDescent.Settings

/-!
# Settings that pass their check

What the check asks of the settings, as facts about them.
-/

namespace BoxDescent

namespace Settings

variable {α : Type} [Scalar α]

/-- Tolerances are positive and finite, counts are not zero, and the constants of the line
search are in order. -/
structure Sound (s : Settings α) : Prop where
  reductionFactor_pos : 0 < s.reductionFactor
  reductionFactor_finite : Scalar.isFinite s.reductionFactor = true
  gradientTolerance_pos : 0 < s.gradientTolerance
  gradientTolerance_finite : Scalar.isFinite s.gradientTolerance = true
  bracketTolerance_pos : 0 < s.bracketTolerance
  bracketTolerance_finite : Scalar.isFinite s.bracketTolerance = true
  memory_pos : 0 < s.memory
  maxIterations_pos : 0 < s.maxIterations
  maxSearchEvals_pos : 0 < s.maxSearchEvals
  decrease_pos : 0 < s.decrease
  decrease_lt : s.decrease < s.curvature
  curvature_lt : s.curvature < 1
  ulps_nonneg : 0 ≤ s.ulps

variable {s : Settings α}

theorem checkPositive_eq_ok {setting : Setting} {value : α} :
    checkPositive setting value = .ok () ↔ 0 < value ∧ Scalar.isFinite value = true := by
  unfold checkPositive
  split
  · rename_i h
    exact iff_of_true rfl h
  · rename_i h
    exact iff_of_false nofun h

omit [Scalar α] in
theorem checkCount_eq_ok {setting : Setting} {count : Nat} :
    (checkCount setting count : Except (Error α) Unit) = .ok () ↔ 0 < count := by
  unfold checkCount
  split
  · rename_i h
    exact iff_of_false nofun (Nat.not_lt_of_le (Nat.le_of_eq h))
  · rename_i h
    exact iff_of_true rfl (Nat.pos_of_ne_zero h)

theorem bind_eq_ok {ε β : Type} {a : Except ε Unit} {b : Unit → Except ε β} {c : β} :
    (a >>= b) = .ok c ↔ a = .ok () ∧ b () = .ok c := by
  cases a with
  | error e => exact iff_of_false nofun (fun h => nomatch h.1)
  | ok u => exact ⟨fun h => ⟨rfl, h⟩, fun h => h.2⟩

/-- The check passes exactly the sound settings. -/
theorem check_eq_ok_iff : s.check = .ok () ↔ s.Sound := by
  unfold check
  simp only [bind_eq_ok, checkPositive_eq_ok, checkCount_eq_ok]
  constructor
  · rintro ⟨hreduction, hgradient, hbracket, hmemory, hiterations, hevals, hrest⟩
    split at hrest
    · cases hrest
    · rename_i hconstants
      rw [Decidable.not_not] at hconstants
      split at hrest
      · cases hrest
      · rename_i hulps
        exact
          { reductionFactor_pos := hreduction.1
            reductionFactor_finite := hreduction.2
            gradientTolerance_pos := hgradient.1
            gradientTolerance_finite := hgradient.2
            bracketTolerance_pos := hbracket.1
            bracketTolerance_finite := hbracket.2
            memory_pos := hmemory
            maxIterations_pos := hiterations
            maxSearchEvals_pos := hevals
            decrease_pos := hconstants.1
            decrease_lt := hconstants.2.1
            curvature_lt := hconstants.2.2
            ulps_nonneg := Int.not_lt.mp hulps }
  · intro h
    refine ⟨⟨h.reductionFactor_pos, h.reductionFactor_finite⟩,
      ⟨h.gradientTolerance_pos, h.gradientTolerance_finite⟩,
      ⟨h.bracketTolerance_pos, h.bracketTolerance_finite⟩, h.memory_pos, h.maxIterations_pos,
      h.maxSearchEvals_pos, ?_⟩
    rw [if_neg (not_not_intro ⟨h.decrease_pos, h.decrease_lt, h.curvature_lt⟩),
      if_neg (Int.not_lt.mpr h.ulps_nonneg)]
    rfl

/-! ### Defaults -/

theorem sound_default_real : (default : Settings ℝ).Sound := by
  constructor <;> norm_num [default]

theorem sound_default_extended : (default : Settings Extended).Sound := by
  obtain ⟨hreduction, -, hgradient, -, hbracket, -, -, -, -, hdecrease, hless, hcurvature, -⟩ :=
    sound_default_real
  exact
    { reductionFactor_pos := hreduction
      reductionFactor_finite := rfl
      gradientTolerance_pos := hgradient
      gradientTolerance_finite := rfl
      bracketTolerance_pos := hbracket
      bracketTolerance_finite := rfl
      memory_pos := Nat.succ_pos _
      maxIterations_pos := Nat.succ_pos _
      maxSearchEvals_pos := Nat.succ_pos _
      decrease_pos := hdecrease
      decrease_lt := hless
      curvature_lt := hcurvature
      ulps_nonneg := by decide }

end Settings

end BoxDescent
