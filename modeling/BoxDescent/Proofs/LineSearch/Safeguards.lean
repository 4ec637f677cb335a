import BoxDescent.Proofs.LineSearch.Bracketing

/-!
# What a safeguarded step promises

In exact arithmetic a trial toward which the best point descends leads to a step between the two
points where a minimum is between them, and otherwise to one that keeps away from the far end.
All of its square roots exist then, and all of its quotients.  Only the cubic through the trial
and the other point may fail to have a minimizer; it has one where the value falls slowly.
-/

namespace BoxDescent

/-! ### Cubics over which the value falls slowly -/

namespace Cubic

variable {a b drop d dp : ℝ}

theorem discriminant_nonneg_of_slow (hfall : d * (b - a) < 0) (hslow : 4 * drop ≤ -(d * (b - a))) :
    0 ≤ discriminant (weight drop (b - a) d dp) d dp := by
  have hgap : b - a ≠ 0 := right_ne_zero_of_mul (ne_of_lt hfall)
  have hne : a ≠ b := Ne.symm (sub_ne_zero.mp hgap)
  rw [discriminant_nonneg_iff (left_ne_zero_of_mul (ne_of_lt hfall))]
  refine le_of_mul_le_mul_right ?_ (sq_pos_iff.mpr hgap)
  have hscaled : d * (b - a) * (dp * (b - a)) ≤
      (weight drop (b - a) d dp * (b - a)) ^ 2 := by
    rw [weight_mul_gap hne]
    exact mul_le_sq_of_slow hfall hslow
  linarith

theorem divisor_ne_zero_of_slow (hfall : d * (b - a) < 0) (hslow : 4 * drop ≤ -(d * (b - a))) :
    let root := root (weight drop (b - a) d dp) d dp
    let gamma := if b < a then -root else root
    ((gamma - d) + gamma) + dp ≠ 0 := by
  intro root gamma
  have hd : d ≠ 0 := left_ne_zero_of_mul (ne_of_lt hfall)
  have hne : a ≠ b := Ne.symm (sub_ne_zero.mp (right_ne_zero_of_mul (ne_of_lt hfall)))
  have hgamma : gamma * (b - a) = _ := directed_root hne hd
  rw [weight_mul_gap hne] at hgamma
  have hpos : 0 < ((gamma * (b - a) - d * (b - a)) + gamma * (b - a)) + dp * (b - a) := by
    rw [hgamma]
    exact divisor_pos_of_slow hfall hslow
  have hproduct : 0 < (((gamma - d) + gamma) + dp) * (b - a) := by linarith
  exact left_ne_zero_of_mul (ne_of_gt hproduct)

end Cubic

namespace Interval

variable {iv : Interval ℝ} {best trial : Endpoint ℝ} {lo hi : ℝ}

/-! ### Square roots and quotients -/

/-- The numbers whose square roots a trial needs. -/
noncomputable def radicands (iv : Interval ℝ) (trial : Endpoint ℝ) : List ℝ :=
  let best := iv.best
  let other := iv.other
  let w := Cubic.weight (best.f - trial.f) (trial.stp - best.stp) best.dg trial.dg
  match trialCase best trial with
  | .higher | .opposite => [Cubic.discriminant w best.dg trial.dg]
  | .flatter => [max (Cubic.discriminant w best.dg trial.dg) 0]
  | .steeper =>
    if iv.bracketed then
      let w := Cubic.weight (trial.f - other.f) (other.stp - trial.stp) other.dg trial.dg
      [Cubic.discriminant w other.dg trial.dg]
    else []

/-- The numbers that a trial divides by, constants apart. -/
noncomputable def divisors (iv : Interval ℝ) (trial : Endpoint ℝ) : List ℝ :=
  let best := iv.best
  let other := iv.other
  let gap := trial.stp - best.stp
  let w := Cubic.weight (best.f - trial.f) gap best.dg trial.dg
  let root := Cubic.root w best.dg trial.dg
  |best.dg| ::
    match trialCase best trial with
    | .higher =>
      let gamma := if trial.stp < best.stp then -root else root
      [gap, Cubic.size w best.dg trial.dg, ((gamma - best.dg) + gamma) + trial.dg,
        (best.f - trial.f) / gap + best.dg]
    | .opposite =>
      let gamma := if best.stp < trial.stp then -root else root
      [gap, Cubic.size w best.dg trial.dg, ((gamma - trial.dg) + gamma) + best.dg,
        trial.dg - best.dg]
    | .flatter =>
      let root := Cubic.clippedRoot w best.dg trial.dg
      let gamma := if best.stp < trial.stp then -root else root
      [gap, Cubic.size w best.dg trial.dg, (gamma + (best.dg - trial.dg)) + gamma,
        trial.dg - best.dg]
    | .steeper =>
      if iv.bracketed then
        let gap := other.stp - trial.stp
        let w := Cubic.weight (trial.f - other.f) gap other.dg trial.dg
        let root := Cubic.root w other.dg trial.dg
        let gamma := if other.stp < trial.stp then -root else root
        [gap, Cubic.size w other.dg trial.dg, ((gamma - trial.dg) + gamma) + other.dg]
      else []

/-- No square root of a trial is of a negative number, and no quotient by zero. -/
structure Computes (iv : Interval ℝ) (trial : Endpoint ℝ) : Prop where
  radicands : ∀ r ∈ iv.radicands trial, 0 ≤ r
  divisors : ∀ q ∈ iv.divisors trial, q ≠ 0

theorem sub_mul_pos_of_flat {d d' : ℝ} (h : |d'| < |d|) : 0 < (d - d') * d := by
  have hproduct : d' * d < d * d := by
    calc d' * d ≤ |d'| * |d| := (le_abs_self _).trans_eq (abs_mul d' d)
      _ < |d| * |d| := mul_lt_mul_of_pos_right h (lt_of_le_of_lt (abs_nonneg _) h)
      _ = d * d := abs_mul_abs_self d
  linarith

section

variable (hdescent : iv.best.dg * (trial.stp - iv.best.stp) < 0)

include hdescent

theorem computes_of_higher (hvalue : iv.best.f < trial.f) : iv.Computes trial := by
  have hdg : iv.best.dg ≠ 0 := left_ne_zero_of_mul (ne_of_lt hdescent)
  have hgap : trial.stp - iv.best.stp ≠ 0 := right_ne_zero_of_mul (ne_of_lt hdescent)
  have hslow : 4 * (iv.best.f - trial.f) ≤ -(iv.best.dg * (trial.stp - iv.best.stp)) := by
    linarith
  have hsecant : (iv.best.f - trial.f) / (trial.stp - iv.best.stp) + iv.best.dg ≠ 0 := by
    have hpos := secant_mul_pos hdescent hvalue
    have hsquare : 0 < iv.best.dg * iv.best.dg := mul_self_pos.mpr hdg
    have hproduct : 0 < ((iv.best.f - trial.f) / (trial.stp - iv.best.stp) + iv.best.dg) *
        iv.best.dg := by
      linarith
    exact left_ne_zero_of_mul (ne_of_gt hproduct)
  refine { radicands := ?_, divisors := ?_ }
  · simp only [radicands, trialCase_of_higher hvalue, List.forall_mem_singleton]
    exact Cubic.discriminant_nonneg_of_slow hdescent hslow
  · simp only [divisors, trialCase_of_higher hvalue, List.forall_mem_cons, List.not_mem_nil,
      false_implies, implies_true, and_true]
    exact ⟨abs_ne_zero.mpr hdg, hgap, ne_of_gt (Cubic.size_pos hdg),
      Cubic.divisor_ne_zero_of_slow hdescent hslow, hsecant⟩

theorem computes_of_opposite (hvalue : ¬iv.best.f < trial.f) (hturn : trial.dg * iv.best.dg < 0) :
    iv.Computes trial := by
  have hdg : iv.best.dg ≠ 0 := left_ne_zero_of_mul (ne_of_lt hdescent)
  have hgap : trial.stp - iv.best.stp ≠ 0 := right_ne_zero_of_mul (ne_of_lt hdescent)
  have hcase : trialCase iv.best trial = .opposite :=
    trialCase_of_opposite hvalue ((signedSlope_neg_iff hdg).mpr hturn)
  have hproper : ∀ {x y : ℝ}, 0 < x / y → y ≠ 0 := fun h => (div_ne_zero_iff.mp (ne_of_gt h)).2
  refine { radicands := ?_, divisors := ?_ }
  · simp only [radicands, hcase, List.forall_mem_singleton]
    rw [Cubic.discriminant_nonneg_iff hdg, mul_comm]
    exact le_trans (le_of_lt hturn) (sq_nonneg _)
  · simp only [divisors, hcase, List.forall_mem_cons, List.not_mem_nil, false_implies,
      implies_true, and_true]
    exact ⟨abs_ne_zero.mpr hdg, hgap, ne_of_gt (Cubic.size_pos hdg),
      hproper (cubic_share_of_opposite hdescent hturn).1, hproper (turn_share hturn).1⟩

theorem computes_of_flatter (hvalue : ¬iv.best.f < trial.f)
    (hsign : ¬signedSlope iv.best trial < 0) (hflat : |trial.dg| < |iv.best.dg|) :
    iv.Computes trial := by
  have hdg : iv.best.dg ≠ 0 := left_ne_zero_of_mul (ne_of_lt hdescent)
  have hgap : trial.stp - iv.best.stp ≠ 0 := right_ne_zero_of_mul (ne_of_lt hdescent)
  have hcase : trialCase iv.best trial = .flatter := trialCase_of_flatter hvalue hsign hflat
  have hdiff : trial.dg - iv.best.dg ≠ 0 := by
    intro hzero
    rw [sub_eq_zero.mp hzero] at hflat
    exact lt_irrefl _ hflat
  refine { radicands := ?_, divisors := ?_ }
  · simp only [radicands, hcase, List.forall_mem_singleton]
    exact le_max_right _ _
  · simp only [divisors, hcase, List.forall_mem_cons, List.not_mem_nil, false_implies,
      implies_true, and_true]
    refine ⟨abs_ne_zero.mpr hdg, hgap, ne_of_gt (Cubic.size_pos hdg), ?_, hdiff⟩
    generalize hclipped : Cubic.clippedRoot
      (Cubic.weight (iv.best.f - trial.f) (trial.stp - iv.best.stp) iv.best.dg trial.dg)
      iv.best.dg trial.dg = root
    have hroot : 0 ≤ root := by
      rw [← hclipped]
      exact mul_nonneg (le_of_lt (Cubic.size_pos hdg)) (Real.sqrt_nonneg _)
    have hback := Cubic.directed_mul_gap (sub_ne_zero.mp hgap) root
    have hroot' : 0 ≤ root * |iv.best.stp - trial.stp| := mul_nonneg hroot (abs_nonneg _)
    -- seen from the trial, the difference of the slopes has the sign of the best one
    have hslopes := mul_neg_of_same_sign hdescent (sub_mul_pos_of_flat hflat)
    refine left_ne_zero_of_mul (ne_of_gt (?_ : 0 < _ * (iv.best.stp - trial.stp)))
    linarith

/-- Where the slope is steeper, nothing is promised unless the value falls slowly to the far end. -/
theorem computes_of_steeper (hvalue : ¬iv.best.f < trial.f) (hsign : ¬signedSlope iv.best trial < 0)
    (hsteep : ¬|trial.dg| < |iv.best.dg|)
    (hslow : iv.bracketed = true → trial.dg * (iv.other.stp - trial.stp) < 0 ∧
      4 * (trial.f - iv.other.f) ≤ -(trial.dg * (iv.other.stp - trial.stp))) :
    iv.Computes trial := by
  have hdg : iv.best.dg ≠ 0 := left_ne_zero_of_mul (ne_of_lt hdescent)
  have hcase : trialCase iv.best trial = .steeper := trialCase_of_steeper hvalue hsign hsteep
  cases hbracketed : iv.bracketed with
  | true =>
    obtain ⟨hfall, hslow⟩ := hslow hbracketed
    have hgap : iv.other.stp - trial.stp ≠ 0 := right_ne_zero_of_mul (ne_of_lt hfall)
    have htrial : trial.dg ≠ 0 := left_ne_zero_of_mul (ne_of_lt hfall)
    have hw : Cubic.weight (trial.f - iv.other.f) (iv.other.stp - trial.stp) iv.other.dg trial.dg =
        Cubic.weight (trial.f - iv.other.f) (iv.other.stp - trial.stp) trial.dg iv.other.dg := by
      rw [Cubic.weight_real, Cubic.weight_real, add_right_comm]
    refine { radicands := ?_, divisors := ?_ }
    · simp only [radicands, hcase, hbracketed, if_true, List.forall_mem_singleton]
      rw [hw, Cubic.discriminant_comm]
      exact Cubic.discriminant_nonneg_of_slow hfall hslow
    · simp only [divisors, hcase, hbracketed, if_true, List.forall_mem_cons, List.not_mem_nil,
        false_implies, implies_true, and_true]
      rw [hw, Cubic.size_comm, Cubic.root_comm]
      exact ⟨abs_ne_zero.mpr hdg, hgap, ne_of_gt (Cubic.size_pos htrial),
        Cubic.divisor_ne_zero_of_slow hfall hslow⟩
  | false =>
    refine { radicands := ?_, divisors := ?_ }
    · simp only [radicands, hcase, hbracketed, Bool.false_eq_true, if_false, List.not_mem_nil,
        false_implies, implies_true]
    · simp only [divisors, hcase, hbracketed, Bool.false_eq_true, if_false,
        List.forall_mem_singleton]
      exact abs_ne_zero.mpr hdg

end

/-! ### Where the step lies -/

theorem IsShare.inside {a b c : ℝ} (h : IsShare a b c) (hne : a ≠ b) :
    min a b < c ∧ c < max a b := by
  rcases lt_or_gt_of_ne hne with hab | hba
  · rw [min_eq_left (le_of_lt hab), max_eq_right (le_of_lt hab)]
    exact h.between hab
  · rw [min_eq_right (le_of_lt hba), max_eq_left (le_of_lt hba)]
    exact h.symm.between hba

/-- A flatter slope inside a bracket leads on, at most two thirds of the way to the far end. -/
theorem stepFlatter_of_bracketed (hbracketed : iv.bracketed = true)
    (hmin : min iv.best.stp iv.other.stp < trial.stp)
    (hmax : trial.stp < max iv.best.stp iv.other.stp) (hsign : ¬signedSlope iv.best trial < 0)
    (hflat : |trial.dg| < |iv.best.dg|) :
    iv.stepFlatter trial (min iv.best.stp iv.other.stp) (max iv.best.stp iv.other.stp) ∈
      Set.uIcc trial.stp (trial.stp + 0.66 * (iv.other.stp - trial.stp)) := by
  obtain ⟨c, hc, hstep⟩ := stepFlatter_onward iv trial (min iv.best.stp iv.other.stp)
    (max iv.best.stp iv.other.stp)
  have hshare : (0 : ℝ) ≤ 0.66 := by norm_num
  rw [hstep, if_pos hbracketed]
  rcases le_total iv.best.stp iv.other.stp with hright | hleft
  · have hahead : iv.best.stp < trial.stp := by rwa [min_eq_left hright] at hmin
    have hbefore : trial.stp < iv.other.stp := by rwa [max_eq_right hright] at hmax
    have hfence : trial.stp ≤ trial.stp + 0.66 * (iv.other.stp - trial.stp) :=
      le_add_of_nonneg_right (mul_nonneg hshare (sub_nonneg.mpr (le_of_lt hbefore)))
    rw [if_pos hahead, Set.uIcc_of_le hfence]
    exact ⟨le_min (hc.le hsign hflat hahead (le_of_lt hmax)) hfence, min_le_right _ _⟩
  · have hback : trial.stp < iv.best.stp := by rwa [max_eq_left hleft] at hmax
    have hafter : iv.other.stp < trial.stp := by rwa [min_eq_right hleft] at hmin
    have hfence : trial.stp + 0.66 * (iv.other.stp - trial.stp) ≤ trial.stp :=
      add_le_of_nonpos_right
        (mul_nonpos_of_nonneg_of_nonpos hshare (sub_nonpos.mpr (le_of_lt hafter)))
    rw [if_neg (lt_asymm hback), Set.uIcc_of_ge hfence]
    exact ⟨le_max_right _ _, max_le (hc.ge hsign hflat hback (le_of_lt hmin)) hfence⟩

theorem stepFlatter_of_free (hfree : iv.bracketed = false) (h : lo ≤ hi) :
    iv.stepFlatter trial lo hi ∈ Set.Icc lo hi := by
  obtain ⟨c, -, hstep⟩ := stepFlatter_onward iv trial lo hi
  rw [hstep, hfree, if_neg Bool.false_ne_true]
  exact ⟨le_max_right _ _, max_le (min_le_right _ _) h⟩

/-! ### The interval afterwards -/

theorem best_f_absorb (iv : Interval ℝ) (trial : Endpoint ℝ) :
    (iv.absorb trial).best.f = min iv.best.f trial.f := by
  obtain ⟨step, hmoves⟩ := absorb_moves iv trial
  generalize iv.absorb trial = after at hmoves ⊢
  cases hmoves with
  | higher value => exact (min_eq_left (le_of_lt value)).symm
  | opposite value sign => exact (min_eq_right (not_lt.mp value)).symm
  | flatter value sign flat => exact (min_eq_right (not_lt.mp value)).symm
  | steeper value sign steep => exact (min_eq_right (not_lt.mp value)).symm

theorem mul_nonpos_of_same_sign {x y z : ℝ} (hxy : x * y < 0) (hzx : 0 ≤ z * x) : z * y ≤ 0 := by
  rcases eq_or_lt_of_le hzx with hzero | hpos
  · have hx : x ≠ 0 := left_ne_zero_of_mul (ne_of_lt hxy)
    rw [(mul_eq_zero_iff_right hx).mp hzero.symm, zero_mul]
  · exact le_of_lt (mul_neg_of_same_sign hxy hpos)

/-- The best point does not ascend toward the far end. -/
theorem absorb_toward (hdescent : iv.best.dg * (trial.stp - iv.best.stp) < 0)
    (hinside : iv.bracketed = true →
      min iv.best.stp iv.other.stp < trial.stp ∧ trial.stp < max iv.best.stp iv.other.stp)
    (hbracketed : (iv.absorb trial).bracketed = true) :
    (iv.absorb trial).best.dg * ((iv.absorb trial).other.stp - (iv.absorb trial).best.stp) ≤ 0 := by
  have hdg : iv.best.dg ≠ 0 := left_ne_zero_of_mul (ne_of_lt hdescent)
  have honward : ¬signedSlope iv.best trial < 0 → iv.bracketed = true →
      trial.dg * (iv.other.stp - trial.stp) ≤ 0 := by
    intro hsign hbefore
    rw [signedSlope_neg_iff hdg, not_lt] at hsign
    obtain ⟨hmin, hmax⟩ := hinside hbefore
    exact mul_nonpos_of_same_sign (mul_rest_neg hdescent hmin hmax) hsign
  obtain ⟨step, hmoves⟩ := absorb_moves iv trial
  generalize iv.absorb trial = after at hmoves hbracketed ⊢
  cases hmoves with
  | higher value => exact le_of_lt hdescent
  | opposite value sign =>
    exact le_of_lt (toward_best hdescent ((signedSlope_neg_iff hdg).mp sign)).1
  | flatter value sign flat => exact honward sign hbracketed
  | steeper value sign steep => exact honward sign hbracketed

/-! ### The whole step -/

/-- What a safeguarded step promises, for a trial toward which the best point descends. -/
theorem safeguarded (iv : Interval ℝ) (trial : Endpoint ℝ) (lo hi : ℝ)
    (hdescent : iv.best.dg * (trial.stp - iv.best.stp) < 0)
    (hinside : iv.bracketed = true →
      (min iv.best.stp iv.other.stp < trial.stp ∧ trial.stp < max iv.best.stp iv.other.stp) ∧
        lo = min iv.best.stp iv.other.stp ∧ hi = max iv.best.stp iv.other.stp) :
    let after := iv.absorb trial
    let next := iv.nextStep trial lo hi
    (iv.best.f < trial.f ∨ trial.f ≤ iv.best.f ∧ trial.dg * iv.best.dg < 0 →
      iv.Computes trial ∧ after.bracketed = true ∧
        min iv.best.stp trial.stp < next ∧ next < max iv.best.stp trial.stp) ∧
      (trial.f ≤ iv.best.f → ¬trial.dg * iv.best.dg < 0 → |trial.dg| < |iv.best.dg| →
        iv.Computes trial ∧
          (iv.bracketed = true →
            next ∈ Set.uIcc trial.stp (trial.stp + 0.66 * (iv.other.stp - trial.stp))) ∧
          (iv.bracketed = false → lo ≤ hi → next ∈ Set.Icc lo hi)) ∧
      after.best.f = min iv.best.f trial.f ∧
      (after.bracketed = true → after.best.dg * (after.other.stp - after.best.stp) ≤ 0) := by
  intro after next
  have hdg : iv.best.dg ≠ 0 := left_ne_zero_of_mul (ne_of_lt hdescent)
  have hne : iv.best.stp ≠ trial.stp :=
    Ne.symm (sub_ne_zero.mp (right_ne_zero_of_mul (ne_of_lt hdescent)))
  refine ⟨?_, ?_, best_f_absorb iv trial,
    absorb_toward hdescent fun hbracketed => (hinside hbracketed).1⟩
  · rintro (hvalue | ⟨hvalue, hturn⟩)
    · have hcase := trialCase_of_higher hvalue
      have hnext : next = stepHigher iv.best trial := by simp only [next, nextStep, hcase]
      refine ⟨computes_of_higher hdescent hvalue, ?_, ?_⟩
      · simp only [after, absorb, hcase]
      · rw [hnext]
        exact (stepHigher_share hdescent hvalue).inside hne
    · have hcase := trialCase_of_opposite (not_lt.mpr hvalue) ((signedSlope_neg_iff hdg).mpr hturn)
      have hnext : next = stepOpposite iv.best trial := by simp only [next, nextStep, hcase]
      refine ⟨computes_of_opposite hdescent (not_lt.mpr hvalue) hturn, ?_, ?_⟩
      · simp only [after, absorb, hcase]
      · rw [hnext]
        exact (stepOpposite_share hdescent hturn).inside hne
  · intro hvalue hsame hflat
    have hsign : ¬signedSlope iv.best trial < 0 := fun h => hsame ((signedSlope_neg_iff hdg).mp h)
    have hcase := trialCase_of_flatter (not_lt.mpr hvalue) hsign hflat
    have hnext : next = iv.stepFlatter trial lo hi := by simp only [next, nextStep, hcase]
    rw [hnext]
    refine ⟨computes_of_flatter hdescent (not_lt.mpr hvalue) hsign hflat, fun hbracketed => ?_,
      fun hfree hle => stepFlatter_of_free hfree hle⟩
    obtain ⟨⟨hmin, hmax⟩, rfl, rfl⟩ := hinside hbracketed
    exact stepFlatter_of_bracketed hbracketed hmin hmax hsign hflat

/-- Half way through a bracket the slope has halved. -/
theorem safeguarded_of_half_slope :
    let iv : Interval ℝ :=
      { best := { stp := 0, f := 0, dg := -1 }
        other := { stp := 2, f := 1, dg := 1 }
        bracketed := true }
    let trial : Endpoint ℝ := { stp := 1, f := -1 / 2, dg := -1 / 2 }
    iv.best.dg * (trial.stp - iv.best.stp) < 0 ∧
      (min iv.best.stp iv.other.stp < trial.stp ∧ trial.stp < max iv.best.stp iv.other.stp) ∧
      iv.Computes trial ∧ iv.nextStep trial 0 2 ∈ Set.Icc 1 (1 + 0.66) ∧
      (iv.absorb trial).best.f = -1 / 2 := by
  intro iv trial
  have hdescent : iv.best.dg * (trial.stp - iv.best.stp) < 0 := by norm_num [iv, trial]
  have hends : min iv.best.stp iv.other.stp = 0 ∧ max iv.best.stp iv.other.stp = 2 :=
    ⟨min_eq_left zero_le_two, max_eq_right zero_le_two⟩
  have hinside : min iv.best.stp iv.other.stp < trial.stp ∧
      trial.stp < max iv.best.stp iv.other.stp := by
    rw [hends.1, hends.2]
    exact ⟨one_pos, one_lt_two⟩
  have hvalue : trial.f ≤ iv.best.f := by norm_num [iv, trial]
  have hsame : ¬trial.dg * iv.best.dg < 0 := by norm_num [iv, trial]
  have hflat : |trial.dg| < |iv.best.dg| := by norm_num [iv, trial]
  obtain ⟨-, hflatter, hbest, -⟩ := safeguarded iv trial 0 2 hdescent
    fun _ => ⟨hinside, hends.1.symm, hends.2.symm⟩
  obtain ⟨hcomputes, hnext, -⟩ := hflatter hvalue hsame hflat
  have hfence : trial.stp + 0.66 * (iv.other.stp - trial.stp) = 1 + 0.66 := by
    norm_num [iv, trial]
  have hstep := hnext rfl
  rw [hfence, Set.uIcc_of_le (by norm_num [trial])] at hstep
  refine ⟨hdescent, hinside, hcomputes, hstep, ?_⟩
  rw [hbest]
  exact min_eq_right hvalue

end Interval

end BoxDescent
