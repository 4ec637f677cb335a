import BoxDescent.LineSearch.Verdict
import BoxDescent.Proofs.Exact

/-!
# Interpolated steps

In exact arithmetic the scaled root of a cubic is the square root of its discriminant, and the
minimizer that interpolation finds is a share of the way between two points.
-/

namespace BoxDescent

/-! ### What a trial does to an interval -/

namespace Interval

variable {α : Type} [Scalar α]

/-- The interval after a trial and the next step, in each of the four cases. -/
inductive Moves (iv : Interval α) (trial : Endpoint α) (lo hi : α) : Interval α → α → Prop
  | higher (value : iv.best.f < trial.f) :
      Moves iv trial lo hi { best := iv.best, other := trial, bracketed := true }
        (stepHigher iv.best trial)
  | opposite (value : ¬iv.best.f < trial.f) (sign : signedSlope iv.best trial < 0) :
      Moves iv trial lo hi { best := trial, other := iv.best, bracketed := true }
        (stepOpposite iv.best trial)
  | flatter (value : ¬iv.best.f < trial.f) (sign : ¬signedSlope iv.best trial < 0)
      (flat : Scalar.abs trial.dg < Scalar.abs iv.best.dg) :
      Moves iv trial lo hi { iv with best := trial } (stepFlatter iv trial lo hi)
  | steeper (value : ¬iv.best.f < trial.f) (sign : ¬signedSlope iv.best trial < 0)
      (steep : ¬Scalar.abs trial.dg < Scalar.abs iv.best.dg) :
      Moves iv trial lo hi { iv with best := trial } (stepSteeper iv trial lo hi)

section

variable {best trial : Endpoint α}

theorem trialCase_of_higher (value : best.f < trial.f) : trialCase best trial = .higher :=
  if_pos value

theorem trialCase_of_opposite (value : ¬best.f < trial.f) (sign : signedSlope best trial < 0) :
    trialCase best trial = .opposite := by
  rw [trialCase, if_neg value, if_pos sign]

theorem trialCase_of_flatter (value : ¬best.f < trial.f) (sign : ¬signedSlope best trial < 0)
    (flat : Scalar.abs trial.dg < Scalar.abs best.dg) : trialCase best trial = .flatter := by
  rw [trialCase, if_neg value, if_neg sign, if_pos flat]

theorem trialCase_of_steeper (value : ¬best.f < trial.f) (sign : ¬signedSlope best trial < 0)
    (steep : ¬Scalar.abs trial.dg < Scalar.abs best.dg) : trialCase best trial = .steeper := by
  rw [trialCase, if_neg value, if_neg sign, if_neg steep]

end

theorem moves (iv : Interval α) (trial : Endpoint α) (lo hi : α) :
    Moves iv trial lo hi (iv.absorb trial) (iv.nextStep trial lo hi) := by
  unfold absorb nextStep
  by_cases hvalue : iv.best.f < trial.f
  · rw [trialCase_of_higher hvalue]
    exact .higher hvalue
  by_cases hsign : signedSlope iv.best trial < 0
  · rw [trialCase_of_opposite hvalue hsign]
    exact .opposite hvalue hsign
  by_cases hflat : Scalar.abs trial.dg < Scalar.abs iv.best.dg
  · rw [trialCase_of_flatter hvalue hsign hflat]
    exact .flatter hvalue hsign hflat
  · rw [trialCase_of_steeper hvalue hsign hflat]
    exact .steeper hvalue hsign hflat

/-- The interval after a trial does not depend on the limits. -/
theorem absorb_moves (iv : Interval α) (trial : Endpoint α) :
    ∃ step, Moves iv trial 0 0 (iv.absorb trial) step :=
  ⟨_, moves iv trial 0 0⟩

theorem absorb_of_higher {iv : Interval α} {trial : Endpoint α} (h : iv.best.f < trial.f) :
    iv.absorb trial = { best := iv.best, other := trial, bracketed := true } := by
  rw [absorb, trialCase_of_higher h]

end Interval

/-! ### Roots of cubics -/

namespace Cubic

variable {w d dp : ℝ}

theorem weight_real (drop gap d dp : ℝ) : weight drop gap d dp = 3 * drop / gap + d + dp := by
  change (3.0 : ℝ) * drop / gap + d + dp = 3 * drop / gap + d + dp
  norm_num

theorem size_real (w d dp : ℝ) : size w d dp = max (max |w| |d|) |dp| := by
  unfold size
  rw [Scalar.larger_real, Scalar.larger_real]
  rfl

theorem size_pos (hd : d ≠ 0) : 0 < size w d dp := by
  rw [size_real]
  exact lt_of_lt_of_le (abs_pos.mpr hd) (le_trans (le_max_right |w| |d|) (le_max_left _ _))

theorem size_comm (w d dp : ℝ) : size w d dp = size w dp d := by
  rw [size_real, size_real, max_right_comm]

theorem discriminant_comm (w d dp : ℝ) : discriminant w d dp = discriminant w dp d := by
  show w / size w d dp * (w / size w d dp) - d / size w d dp * (dp / size w d dp) =
    w / size w dp d * (w / size w dp d) - dp / size w dp d * (d / size w dp d)
  rw [size_comm w d dp, mul_comm (d / _)]

theorem root_comm (w d dp : ℝ) : root w d dp = root w dp d := by
  rw [root, size_comm, discriminant_comm, ← root]

theorem scaled_discriminant (hd : d ≠ 0) :
    size w d dp ^ 2 * discriminant w d dp = w ^ 2 - d * dp := by
  have hsize : 0 < size w d dp := size_pos hd
  show size w d dp ^ 2 *
    (w / size w d dp * (w / size w d dp) - d / size w d dp * (dp / size w d dp)) = w ^ 2 - d * dp
  field_simp

theorem discriminant_nonneg_iff (hd : d ≠ 0) : 0 ≤ discriminant w d dp ↔ d * dp ≤ w ^ 2 := by
  rw [← sub_nonneg (b := d * dp), ← scaled_discriminant hd,
    mul_nonneg_iff_of_pos_left (pow_pos (size_pos hd) 2)]

theorem root_real (hd : d ≠ 0) : root w d dp = Real.sqrt (w ^ 2 - d * dp) := by
  rw [← scaled_discriminant hd, Real.sqrt_mul (sq_nonneg _), Real.sqrt_sq (le_of_lt (size_pos hd))]
  rfl

/-! Below, `d` and `dp` are the slopes at the two ends of a gap, seen from the end with `d`, from
which the minimizer is sought. -/

/-- The value falls over the gap by at most a quarter of what the slope promises. -/
theorem sq_le_of_slow {e : ℝ} (hd : d < 0) (hdp : dp < 0) (he : 4 * e ≤ -d) :
    (d / 4 + dp) ^ 2 ≤ (3 * e + d + dp) ^ 2 := by
  rw [← neg_sq (d / 4 + dp), ← neg_sq (3 * e + d + dp)]
  exact pow_le_pow_left₀ (by linarith) (by linarith) 2

theorem mul_le_sq_of_slow {e : ℝ} (hd : d < 0) (he : 4 * e ≤ -d) :
    d * dp ≤ (3 * e + d + dp) ^ 2 := by
  rcases le_or_gt 0 dp with hdp | hdp
  · exact le_trans (mul_nonpos_of_nonpos_of_nonneg (le_of_lt hd) hdp) (sq_nonneg _)
  · have hsquare := sq_le_of_slow hd hdp he
    have hdiff : 0 ≤ (d / 4 - dp) ^ 2 := sq_nonneg _
    linarith

theorem divisor_pos_of_slow {e : ℝ} (hd : d < 0) (he : 4 * e ≤ -d) :
    let root := Real.sqrt ((3 * e + d + dp) ^ 2 - d * dp)
    0 < ((root - d) + root) + dp := by
  intro root
  have hroot : 0 ≤ root := Real.sqrt_nonneg _
  rcases le_or_gt 0 dp with hdp | hdp
  · linarith
  · have hlong : d / 4 - dp ≤ root := by
      apply Real.le_sqrt_of_sq_le
      have hsquare := sq_le_of_slow hd hdp he
      linarith
    linarith

/-- Where the value rises over the gap, the minimizer of the cubic is a proper share of it. -/
theorem share (hd : d < 0) (hw : w < d + dp) :
    let root := Real.sqrt (w ^ 2 - d * dp)
    let p := (root - d) + w
    let q := ((root - d) + root) + dp
    0 < p / q ∧ p / q < 1 := by
  intro root p q
  have hroot : 0 ≤ root := Real.sqrt_nonneg _
  have hless : p < q := by
    have hdiff : q - p = root + (dp - w) := by ring
    linarith
  have hpos : 0 < p := by
    by_cases hside : 0 < w - d
    · change 0 < root - d + w
      linarith
    · -- here the root is longer than the way from `w` to `d`
      have hlong : d - w < root := by
        apply Real.lt_sqrt_of_sq_lt
        nlinarith
      change 0 < root - d + w
      linarith
  exact ⟨div_pos hpos (lt_trans hpos hless), (div_lt_one (lt_trans hpos hless)).mpr hless⟩

/-- So it is where the slope turns. -/
theorem share_of_turn (hd : d < 0) (hdp : 0 < dp) :
    let root := Real.sqrt (w ^ 2 - d * dp)
    let p := (root - d) + w
    let q := ((root - d) + root) + dp
    0 < p / q ∧ p / q < 1 := by
  intro root p q
  have hlong : |w| < root := by
    apply Real.lt_sqrt_of_sq_lt
    rw [sq_abs]
    linarith [mul_neg_of_neg_of_pos hd hdp]
  obtain ⟨hleft, hright⟩ := abs_lt.mp hlong
  have hpos : 0 < p := by
    show 0 < root - d + w
    linarith
  have hless : p < q := by
    show root - d + w < root - d + root + dp
    linarith
  exact ⟨div_pos hpos (lt_trans hpos hless), (div_lt_one (lt_trans hpos hless)).mpr hless⟩

/-! ### Either direction

A formula is written for a gap that leads to the right; for one that leads to the left the root is
negated.  Multiplied by the gap, both are one. -/

section

variable {a b r : ℝ}

theorem directed_mul_gap (hne : a ≠ b) (r : ℝ) :
    (if b < a then -r else r) * (b - a) = r * |b - a| := by
  rcases lt_or_gt_of_ne hne with hright | hleft
  · rw [if_neg (lt_asymm hright), abs_of_pos (sub_pos.mpr hright)]
  · rw [if_pos hleft, abs_of_neg (sub_neg.mpr hleft), neg_mul, mul_neg]

theorem directed_root (hne : a ≠ b) (hd : d ≠ 0) :
    (if b < a then -root w d dp else root w d dp) * (b - a) =
      Real.sqrt ((w * (b - a)) ^ 2 - d * (b - a) * (dp * (b - a))) := by
  have hscaled : (w * (b - a)) ^ 2 - d * (b - a) * (dp * (b - a)) =
      (w ^ 2 - d * dp) * (b - a) ^ 2 := by ring
  rw [directed_mul_gap hne, root_real hd, hscaled, Real.sqrt_mul' _ (sq_nonneg _),
    Real.sqrt_sq_eq_abs]

theorem quotient_eq (hne : a ≠ b) (hd : d ≠ 0) :
    let gamma := if b < a then -root w d dp else root w d dp
    let turned := Real.sqrt ((w * (b - a)) ^ 2 - d * (b - a) * (dp * (b - a)))
    ((gamma - d) + w) / (((gamma - d) + gamma) + dp) =
      ((turned - d * (b - a)) + w * (b - a)) /
        (((turned - d * (b - a)) + turned) + dp * (b - a)) := by
  intro gamma turned
  have hturned : turned = gamma * (b - a) := (directed_root hne hd).symm
  rw [hturned, ← mul_div_mul_right _ _ (sub_ne_zero.mpr (Ne.symm hne))]
  congr 1 <;> ring

/-- The minimizer is a proper share of the gap if the value rises over it or the slope turns. -/
theorem share_directed (hfall : d * (b - a) < 0)
    (h : w * (b - a) < d * (b - a) + dp * (b - a) ∨ 0 < dp * (b - a)) :
    let gamma := if b < a then -root w d dp else root w d dp
    let p := (gamma - d) + w
    let q := ((gamma - d) + gamma) + dp
    0 < p / q ∧ p / q < 1 := by
  intro gamma p q
  have hd : d ≠ 0 := left_ne_zero_of_mul (ne_of_lt hfall)
  have hne : a ≠ b := Ne.symm (sub_ne_zero.mp (right_ne_zero_of_mul (ne_of_lt hfall)))
  have hquotient : p / q = _ := quotient_eq hne hd
  rw [hquotient]
  rcases h with hrise | hturn
  · exact share hfall hrise
  · exact share_of_turn hfall hturn

theorem weight_mul_gap (hne : a ≠ b) (drop d dp : ℝ) :
    weight drop (b - a) d dp * (b - a) = 3 * drop + d * (b - a) + dp * (b - a) := by
  rw [weight_real, add_mul, add_mul, div_mul_cancel₀ _ (sub_ne_zero.mpr (Ne.symm hne))]

end

end Cubic

/-! ### Steps between two points -/

namespace Interval

/-- A value between two points, as a proper share of the way from one to the other. -/
def IsShare (a b c : ℝ) : Prop := ∃ r, 0 < r ∧ r < 1 ∧ c = a + r * (b - a)

theorem IsShare.middle {a b c c' : ℝ} (h : IsShare a b c) (h' : IsShare a b c') :
    IsShare a b (c + (c' - c) / 2) := by
  obtain ⟨r, hpos, hlt, rfl⟩ := h
  obtain ⟨r', hpos', hlt', rfl⟩ := h'
  refine ⟨r + (r' - r) / 2, by linarith, by linarith, by ring⟩

theorem IsShare.choose {a b c c' : ℝ} {first : Prop} [Decidable first] (h : IsShare a b c)
    (h' : IsShare a b c') : IsShare a b (if first then c else c') := by
  split
  · exact h
  · exact h'

theorem IsShare.symm {a b c : ℝ} (h : IsShare a b c) : IsShare b a c := by
  obtain ⟨r, hpos, hlt, rfl⟩ := h
  exact ⟨1 - r, sub_pos.mpr hlt, sub_lt_self 1 hpos, by ring⟩

theorem IsShare.between {a b c : ℝ} (h : IsShare a b c) (hab : a < b) : a < c ∧ c < b := by
  obtain ⟨r, hpos, hlt, rfl⟩ := h
  have hway : 0 < b - a := sub_pos.mpr hab
  have hstart : 0 < r * (b - a) := mul_pos hpos hway
  have hend : r * (b - a) < 1 * (b - a) := mul_lt_mul_of_pos_right hlt hway
  constructor <;> linarith

variable {best trial : Endpoint ℝ}

theorem half_share {a d : ℝ} (h : 0 < a * d) : 0 < d / (a + d) / 2 ∧ d / (a + d) / 2 < 1 := by
  have hd : d ≠ 0 := right_ne_zero_of_mul (ne_of_gt h)
  have hsum : 0 < (a + d) * d := by
    have hsq : 0 < d * d := mul_self_pos.mpr hd
    linarith [add_mul a d d]
  have hne : a + d ≠ 0 := left_ne_zero_of_mul (ne_of_gt hsum)
  -- both signs at once: the quotient is one of squares and products
  have hquotient : d / (a + d) = d * d / ((a + d) * d) := by
    rw [mul_div_mul_right _ _ hd]
  have hpos : 0 < d / (a + d) := by
    rw [hquotient]
    exact div_pos (mul_self_pos.mpr hd) hsum
  have hlt : d / (a + d) < 1 := by
    rw [hquotient, div_lt_one hsum]
    linarith [add_mul a d d]
  constructor <;> linarith

theorem turn_share {a b : ℝ} (h : a * b < 0) : 0 < a / (a - b) ∧ a / (a - b) < 1 := by
  rcases mul_neg_iff.mp h with ⟨ha, hb⟩ | ⟨ha, hb⟩
  · have hsum : 0 < a - b := by linarith
    exact ⟨div_pos ha hsum, (div_lt_one hsum).mpr (by linarith)⟩
  · have hsum : a - b < 0 := by linarith
    exact ⟨div_pos_of_neg_of_neg ha hsum, (div_lt_one_of_neg hsum).mpr (by linarith)⟩

section

variable (hdescent : best.dg * (trial.stp - best.stp) < 0) (hvalue : best.f < trial.f)

include hdescent hvalue

theorem cubic_share_of_higher :
    let w := Cubic.weight (best.f - trial.f) (trial.stp - best.stp) best.dg trial.dg
    let root := Cubic.root w best.dg trial.dg
    let gamma := if trial.stp < best.stp then -root else root
    let p := (gamma - best.dg) + w
    let q := ((gamma - best.dg) + gamma) + trial.dg
    0 < p / q ∧ p / q < 1 := by
  intro w root gamma p q
  have hne : best.stp ≠ trial.stp :=
    Ne.symm (sub_ne_zero.mp (right_ne_zero_of_mul (ne_of_lt hdescent)))
  refine Cubic.share_directed hdescent (.inl ?_)
  rw [Cubic.weight_mul_gap hne]
  linarith

/-- The line through both points has the sign of the slope at the best one. -/
theorem secant_mul_pos : 0 < (best.f - trial.f) / (trial.stp - best.stp) * best.dg := by
  have hgap : trial.stp - best.stp ≠ 0 := right_ne_zero_of_mul (ne_of_lt hdescent)
  have hsquare : 0 < (trial.stp - best.stp) ^ 2 := sq_pos_iff.mpr hgap
  have hproduct : (best.f - trial.f) / (trial.stp - best.stp) * best.dg =
      (best.f - trial.f) * (best.dg * (trial.stp - best.stp)) / (trial.stp - best.stp) ^ 2 := by
    field_simp
  rw [hproduct]
  exact div_pos (mul_pos_of_neg_of_neg (sub_neg.mpr hvalue) hdescent) hsquare

/-- The next step after a higher value lies between the best point and the trial. -/
theorem stepHigher_share : IsShare best.stp trial.stp (stepHigher best trial) := by
  obtain ⟨hpos, hlt⟩ := cubic_share_of_higher hdescent hvalue
  obtain ⟨hpos', hlt'⟩ := half_share (secant_mul_pos hdescent hvalue)
  have hcubic : IsShare best.stp trial.stp _ := ⟨_, hpos, hlt, rfl⟩
  have hquadratic : IsShare best.stp trial.stp _ := ⟨_, hpos', hlt', rfl⟩
  have htwo : (2.0 : ℝ) = 2 := by norm_num
  rw [← htwo] at hquadratic
  have hmiddle := hcubic.middle hquadratic
  rw [← htwo] at hmiddle
  exact hcubic.choose hmiddle

end

section

variable (hdescent : best.dg * (trial.stp - best.stp) < 0) (hturn : trial.dg * best.dg < 0)

include hdescent hturn

/-- Seen from the trial, the slopes lead to a minimum between the points. -/
theorem toward_best : trial.dg * (best.stp - trial.stp) < 0 ∧
    0 < best.dg * (best.stp - trial.stp) := by
  have hback : 0 < best.dg * (best.stp - trial.stp) := by linarith
  have hproduct : trial.dg * (best.stp - trial.stp) * (best.dg * best.dg) < 0 := by
    calc trial.dg * (best.stp - trial.stp) * (best.dg * best.dg)
        = trial.dg * best.dg * (best.dg * (best.stp - trial.stp)) := by ring
      _ < 0 := mul_neg_of_neg_of_pos hturn hback
  exact ⟨neg_of_mul_neg_left hproduct (mul_self_nonneg _), hback⟩

theorem cubic_share_of_opposite :
    let w := Cubic.weight (best.f - trial.f) (trial.stp - best.stp) best.dg trial.dg
    let root := Cubic.root w best.dg trial.dg
    let gamma := if best.stp < trial.stp then -root else root
    let p := (gamma - trial.dg) + w
    let q := ((gamma - trial.dg) + gamma) + best.dg
    0 < p / q ∧ p / q < 1 := by
  intro w root gamma p q
  obtain ⟨hfall, hrise⟩ := toward_best hdescent hturn
  have hshare := Cubic.share_directed (w := w) hfall (.inr hrise)
  rw [Cubic.root_comm] at hshare
  exact hshare

/-- The next step after a slope of the opposite sign lies between the points, too. -/
theorem stepOpposite_share : IsShare best.stp trial.stp (stepOpposite best trial) := by
  obtain ⟨hpos, hlt⟩ := cubic_share_of_opposite hdescent hturn
  obtain ⟨hpos', hlt'⟩ := turn_share hturn
  have hcubic : IsShare trial.stp best.stp _ := ⟨_, hpos, hlt, rfl⟩
  have hquadratic : IsShare trial.stp best.stp _ := ⟨_, hpos', hlt', rfl⟩
  exact (hcubic.choose hquadratic).symm

end

/-! ### Steps beyond the trial -/

/-- Slopes of one sign of which the trial's is smaller vanish beyond the trial. -/
theorem secant_nonpos (hsign : ¬signedSlope best trial < 0) (hflat : |trial.dg| < |best.dg|) :
    trial.dg / (trial.dg - best.dg) ≤ 0 := by
  have hsigned : 0 ≤ trial.dg * (best.dg / |best.dg|) := not_lt.mp hsign
  have hbest : best.dg ≠ 0 := by
    intro hzero
    rw [hzero, abs_zero] at hflat
    exact absurd hflat (not_lt.mpr (abs_nonneg _))
  rcases lt_or_gt_of_ne hbest with hneg | hpos
  · rw [abs_of_neg hneg, div_neg, div_self hbest, mul_neg_one] at hsigned
    have htrial := neg_abs_le trial.dg
    rw [abs_of_neg hneg] at hflat
    exact div_nonpos_of_nonpos_of_nonneg (by linarith) (by linarith)
  · rw [abs_of_pos hpos, div_self hbest, mul_one] at hsigned
    have htrial := le_abs_self trial.dg
    rw [abs_of_pos hpos] at hflat
    exact div_nonpos_of_nonneg_of_nonpos hsigned (by linarith)

section

variable {iv : Interval ℝ} {lo hi : ℝ}

/-- The places a smaller slope of the same sign leads to before any limit: one end of the range, or
along the line from the best point to the trial. -/
def Onward (iv : Interval ℝ) (trial : Endpoint ℝ) (lo hi c : ℝ) : Prop :=
  c = (if iv.best.stp < trial.stp then hi else lo) ∨
    ∃ r, c = trial.stp + r * (iv.best.stp - trial.stp) ∧
      (r < 0 ∨ r = trial.dg / (trial.dg - iv.best.dg))

theorem stepFlatter_onward (iv : Interval ℝ) (trial : Endpoint ℝ) (lo hi : ℝ) :
    ∃ c, Onward iv trial lo hi c ∧
      iv.stepFlatter trial lo hi =
        if iv.bracketed then
          if iv.best.stp < trial.stp then min c (trial.stp + 0.66 * (iv.other.stp - trial.stp))
          else max c (trial.stp + 0.66 * (iv.other.stp - trial.stp))
        else max (min c hi) lo := by
  have hchoose : ∀ (nearer cubic : Prop) [Decidable nearer] [Decidable cubic] (r : ℝ),
      (cubic → r < 0) →
      Onward iv trial lo hi
        (if nearer then
          if cubic then trial.stp + r * (iv.best.stp - trial.stp)
          else if iv.best.stp < trial.stp then hi else lo
        else trial.stp + trial.dg / (trial.dg - iv.best.dg) * (iv.best.stp - trial.stp)) := by
    intro nearer cubic _ _ r hr
    split
    · split
      · exact .inr ⟨r, rfl, .inl (hr ‹_›)⟩
      · exact .inl rfl
    · exact .inr ⟨_, rfl, .inr rfl⟩
  cases hbracketed : iv.bracketed with
  | true =>
    simp only [stepFlatter, hbracketed, if_true, Scalar.smaller_real, Scalar.larger_real]
    refine ⟨_, hchoose _ _ _ fun hcubic => ?_, rfl⟩
    rw [Bool.and_eq_true, decide_eq_true_eq] at hcubic
    exact hcubic.1
  | false =>
    simp only [stepFlatter, hbracketed, Bool.false_eq_true, if_false, Scalar.smaller_real,
      Scalar.larger_real]
    refine ⟨_, hchoose _ _ _ fun hcubic => ?_, rfl⟩
    rw [Bool.and_eq_true, decide_eq_true_eq] at hcubic
    exact hcubic.1

theorem Onward.le {c : ℝ} (h : Onward iv trial lo hi c) (hsign : ¬signedSlope iv.best trial < 0)
    (hflat : |trial.dg| < |iv.best.dg|) (hahead : iv.best.stp < trial.stp) (hhi : trial.stp ≤ hi) :
    trial.stp ≤ c := by
  rcases h with rfl | ⟨r, rfl, hr⟩
  · rw [if_pos hahead]
    exact hhi
  · have hbeyond : r ≤ 0 := by
      rcases hr with hneg | rfl
      · exact le_of_lt hneg
      · exact secant_nonpos hsign hflat
    exact le_add_of_nonneg_right
      (mul_nonneg_of_nonpos_of_nonpos hbeyond (sub_nonpos.mpr (le_of_lt hahead)))

theorem Onward.ge {c : ℝ} (h : Onward iv trial lo hi c) (hsign : ¬signedSlope iv.best trial < 0)
    (hflat : |trial.dg| < |iv.best.dg|) (hback : trial.stp < iv.best.stp) (hlo : lo ≤ trial.stp) :
    c ≤ trial.stp := by
  rcases h with rfl | ⟨r, rfl, hr⟩
  · rw [if_neg (lt_asymm hback)]
    exact hlo
  · have hbeyond : r ≤ 0 := by
      rcases hr with hneg | rfl
      · exact le_of_lt hneg
      · exact secant_nonpos hsign hflat
    exact add_le_of_nonpos_right
      (mul_nonpos_of_nonpos_of_nonneg hbeyond (sub_nonneg.mpr (le_of_lt hback)))

variable (hfree : iv.bracketed = false)

include hfree

theorem stepSteeper_of_free :
    iv.stepSteeper trial lo hi = if iv.best.stp < trial.stp then hi else lo := by
  simp only [stepSteeper, hfree, Bool.false_eq_true, if_false]

variable (hhi : trial.stp ≤ hi) (hway : iv.best.stp < trial.stp ∨ trial.stp ≤ lo)

include hhi hway

/-- While no minimum is bracketed, a smaller slope of the same sign does not lead back. -/
theorem le_stepFlatter (hsign : ¬signedSlope iv.best trial < 0)
    (hflat : |trial.dg| < |iv.best.dg|) : trial.stp ≤ iv.stepFlatter trial lo hi := by
  obtain ⟨c, hc, hstep⟩ := stepFlatter_onward iv trial lo hi
  rw [hstep, hfree, if_neg Bool.false_ne_true]
  rcases hway with hahead | hlo
  · exact le_max_of_le_left (le_min (hc.le hsign hflat hahead hhi) hhi)
  · exact le_max_of_le_right hlo

theorem le_stepSteeper : trial.stp ≤ iv.stepSteeper trial lo hi := by
  rw [stepSteeper_of_free hfree]
  split
  · exact hhi
  · rename_i hback
    exact hway.resolve_left hback

end

end Interval

end BoxDescent
