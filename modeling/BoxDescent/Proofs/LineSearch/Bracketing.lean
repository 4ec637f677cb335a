import BoxDescent.Proofs.Linear.Coordinates
import BoxDescent.Proofs.LineSearch.Ahead
import BoxDescent.Proofs.LineSearch.Stages

/-!
# Brackets that shrink

In exact arithmetic, as long as a search interpolates, its best point has sufficient decrease
and a slope too steep to accept.  Without a bracket that slope is negative and the steps grow; a
bracket lies on the descending side of the best point and only shrinks.  All of this would fail
after the first stage, where values are no longer compared with the line of sufficient decrease,
if the best value were not below that line at the far end of the bracket as well.
-/

namespace BoxDescent

variable {n : Nat} {line : Line ℝ n} {p : SearchParams ℝ}

/-! ### The line of sufficient decrease -/

theorem Line.testValue_anti (hfall : line.testSlope p ≤ 0) {a b : ℝ} (h : a ≤ b) :
    line.testValue p b ≤ line.testValue p a := by
  have hproduct := mul_le_mul_of_nonpos_right h hfall
  show line.f0 + b * line.testSlope p ≤ line.f0 + a * line.testSlope p
  linarith

/-- A value below the line at two steps is below it at every shorter one than the longer. -/
theorem Line.le_testValue_of_le_max (hfall : line.testSlope p ≤ 0) {v a b s : ℝ}
    (ha : v ≤ line.testValue p a) (hb : v ≤ line.testValue p b) (h : s ≤ max a b) :
    v ≤ line.testValue p s := by
  rcases le_max_iff.mp h with hsa | hsb
  · exact le_trans ha (testValue_anti hfall hsa)
  · exact le_trans hb (testValue_anti hfall hsb)

/-! ### Signs of slopes -/

theorem mul_neg_of_same_sign {x y z : ℝ} (hxy : x * y < 0) (hzx : 0 < z * x) : z * y < 0 := by
  have hsquare : z * y * (x * x) < 0 := by
    calc z * y * (x * x) = z * x * (x * y) := by ring
      _ < 0 := mul_neg_of_pos_of_neg hzx hxy
  exact neg_of_mul_neg_left hsquare (mul_self_nonneg x)

namespace Interval

theorem signedSlope_neg_iff {best trial : Endpoint ℝ} (h : best.dg ≠ 0) :
    signedSlope best trial < 0 ↔ trial.dg * best.dg < 0 := by
  have hsigned : signedSlope best trial = trial.dg * best.dg / |best.dg| :=
    (mul_div_assoc _ _ _).symm
  rw [hsigned, div_lt_iff₀ (abs_pos.mpr h), zero_mul]

theorem isShare_of_between {a b s : ℝ} (hmin : min a b < s) (hmax : s < max a b) :
    IsShare a b s := by
  wlog h : a ≤ b generalizing a b
  · rw [min_comm] at hmin
    rw [max_comm] at hmax
    exact (this hmin hmax (le_of_not_ge h)).symm
  rw [min_eq_left h] at hmin
  rw [max_eq_right h] at hmax
  have hway : 0 < b - a := sub_pos.mpr (lt_trans hmin hmax)
  refine ⟨(s - a) / (b - a), div_pos (sub_pos.mpr hmin) hway, ?_, ?_⟩
  · rw [div_lt_one hway]
    linarith
  · rw [div_mul_cancel₀ _ (ne_of_gt hway)]
    ring

/-- A slope that descends to a point in between descends from there to the far end. -/
theorem mul_rest_neg {d a b s : ℝ} (hdescent : d * (s - a) < 0) (hmin : min a b < s)
    (hmax : s < max a b) : d * (b - s) < 0 := by
  obtain ⟨r, hr, hlt, rfl⟩ := isShare_of_between hmin hmax
  have hpart : r * (d * (b - a)) < 0 := by linarith
  have hrest := mul_neg_of_pos_of_neg (sub_pos.mpr hlt) (neg_of_mul_neg_right hpart (le_of_lt hr))
  linarith

/-! ### Steps that grow -/

theorem lt_stepFlatter {iv : Interval ℝ} {trial : Endpoint ℝ} {lo hi : ℝ}
    (hfree : iv.bracketed = false) (hahead : iv.best.stp < trial.stp) (hhi : trial.stp < hi)
    (hdg : trial.dg < 0) (hflat : iv.best.dg < trial.dg) :
    trial.stp < iv.stepFlatter trial lo hi := by
  obtain ⟨c, hc, hstep⟩ := stepFlatter_onward iv trial lo hi
  rw [hstep, hfree, if_neg Bool.false_ne_true]
  refine lt_max_of_lt_left (lt_min ?_ hhi)
  rcases hc with rfl | ⟨r, rfl, hr⟩
  · rw [if_pos hahead]
    exact hhi
  · have hbeyond : r < 0 := by
      rcases hr with hneg | rfl
      · exact hneg
      · exact div_neg_of_neg_of_pos hdg (sub_pos.mpr hflat)
    exact lt_add_of_pos_right _ (mul_pos_of_neg_of_neg hbeyond (sub_neg.mpr hahead))

end Interval

/-! ### What interpolation keeps -/

/-- What holds of the best point at the start of each trial. -/
structure Endpoint.Low (line : Line ℝ n) (p : SearchParams ℝ) (stage1 : Bool) (e : Endpoint ℝ) :
    Prop where
  decrease : e.f ≤ line.testValue p e.stp
  steep : p.gtol * |line.slope| < |e.dg|
  falling : stage1 = true → e.dg < 0

theorem Endpoint.Low.dg_ne_zero {stage1 : Bool} {e : Endpoint ℝ} (h : e.Low line p stage1)
    (hgtol : 0 ≤ p.gtol) : e.dg ≠ 0 :=
  abs_pos.mp (lt_of_le_of_lt (mul_nonneg hgtol (abs_nonneg _)) h.steep)

theorem Endpoint.Low.dg_lt_testSlope {stage1 : Bool} {e : Endpoint ℝ} (h : e.Low line p stage1)
    (hfirst : stage1 = true) (hless : p.ftol < p.gtol) (hslope : line.slope < 0) :
    e.dg < line.testSlope p := by
  have hsteep := h.steep
  rw [abs_of_neg hslope, abs_of_neg (h.falling hfirst)] at hsteep
  have hproduct := mul_lt_mul_of_neg_right hless hslope
  show e.dg < p.ftol * line.slope
  linarith

namespace Interval

/-- What holds of the interval at the start of each trial. -/
structure Kept (line : Line ℝ n) (p : SearchParams ℝ) (stage1 : Bool) (iv : Interval ℝ) : Prop where
  low : iv.best.Low line p stage1
  toward : iv.bracketed = true → iv.best.dg * (iv.other.stp - iv.best.stp) < 0
  -- what carries sufficient decrease through the second stage
  second : stage1 = false → iv.bracketed = true ∧ iv.best.f ≤ line.testValue p iv.other.stp

/-- A step strictly inside the bracket, or beyond the best point where there is none. -/
structure Admits (iv : Interval ℝ) (s : ℝ) : Prop where
  inside : iv.bracketed = true →
    min iv.best.stp iv.other.stp < s ∧ s < max iv.best.stp iv.other.stp
  beyond : iv.bracketed = false → iv.best.stp < s

section

variable {stage1 : Bool} {iv : Interval ℝ} {s : ℝ} (h : iv.Kept line p stage1)

include h

theorem Kept.stage1_of_free (hfree : iv.bracketed = false) : stage1 = true := by
  by_contra hsecond
  rw [(h.second (Bool.eq_false_of_not_eq_true hsecond)).1] at hfree
  cases hfree

/-- The best point descends toward every admitted step. -/
theorem Kept.toward_step (hs : iv.Admits s) : iv.best.dg * (s - iv.best.stp) < 0 := by
  cases hbracketed : iv.bracketed with
  | true =>
    obtain ⟨hmin, hmax⟩ := hs.inside hbracketed
    obtain ⟨r, hr, -, rfl⟩ := isShare_of_between hmin hmax
    have htoward := mul_neg_of_pos_of_neg hr (h.toward hbracketed)
    linarith
  | false =>
    exact mul_neg_of_neg_of_pos (h.low.falling (h.stage1_of_free hbracketed))
      (sub_pos.mpr (hs.beyond hbracketed))

theorem Kept.le_testValue (hsecond : stage1 = false) (hfall : line.testSlope p ≤ 0)
    (hs : iv.Admits s) : iv.best.f ≤ line.testValue p s := by
  obtain ⟨hbracketed, hother⟩ := h.second hsecond
  exact Line.le_testValue_of_le_max hfall h.low.decrease hother (le_of_lt (hs.inside hbracketed).2)

end

/-! ### What a trial makes of an interval -/

/-- The interval after a trial and the step proposed then: the trial is the far end of a
bracket, or the best point, whose slope has turned or has not. -/
inductive Takes (line : Line ℝ n) (p : SearchParams ℝ) (stage1 : Bool) (iv : Interval ℝ)
    (here : Endpoint ℝ) : Interval ℝ → ℝ → Prop
  | far {next : ℝ} (under : stage1 = false → iv.best.f ≤ line.testValue p here.stp) :
      Takes line p stage1 iv here { best := iv.best, other := here, bracketed := true } next
  | turned {next : ℝ} (low : here.Low line p stage1)
      (under : here.f ≤ line.testValue p iv.best.stp) (sign : here.dg * iv.best.dg < 0) :
      Takes line p stage1 iv here { best := here, other := iv.best, bracketed := true } next
  | advanced {next : ℝ} (low : here.Low line p stage1)
      (under : stage1 = false → iv.bracketed = true ∧ here.f ≤ line.testValue p iv.other.stp)
      (sign : 0 < here.dg * iv.best.dg) (grows : iv.bracketed = false → here.stp < next) :
      Takes line p stage1 iv here { iv with best := here } next

section

variable {stage1 first : Bool} {iv iv' : Interval ℝ} {here : Endpoint ℝ} {next : ℝ}
  (h : iv.Kept line p first) (hadmits : iv.Admits here.stp)

include h hadmits in
theorem Takes.kept (hfirst : stage1 = true → first = true)
    (htakes : iv.Takes line p stage1 here iv' next) : iv'.Kept line p stage1 := by
  have htoward := h.toward_step hadmits
  cases htakes with
  | far under =>
    exact
      { low := { h.low with falling := fun hs => h.low.falling (hfirst hs) }
        toward := fun _ => htoward
        second := fun hs => ⟨rfl, under hs⟩ }
  | turned low under sign =>
    refine { low := low, toward := fun _ => ?_, second := fun _ => ⟨rfl, under⟩ }
    have hsame : 0 < -here.dg * iv.best.dg := by linarith
    have hback := mul_neg_of_same_sign htoward hsame
    show here.dg * (iv.best.stp - here.stp) < 0
    linarith
  | advanced low under sign grows =>
    refine { low := low, toward := fun hbracketed => ?_, second := under }
    obtain ⟨hmin, hmax⟩ := hadmits.inside hbracketed
    exact mul_neg_of_same_sign (mul_rest_neg htoward hmin hmax) sign

include hadmits in
theorem Takes.narrows (htakes : iv.Takes line p stage1 here iv' next)
    (hbracketed : iv.bracketed = true) :
    iv'.bracketed = true ∧ min iv.best.stp iv.other.stp ≤ min iv'.best.stp iv'.other.stp ∧
      max iv'.best.stp iv'.other.stp ≤ max iv.best.stp iv.other.stp := by
  obtain ⟨hmin, hmax⟩ := hadmits.inside hbracketed
  have hlo := le_of_lt hmin
  have hhi := le_of_lt hmax
  cases htakes with
  | far under =>
    exact ⟨rfl, le_min (min_le_left _ _) hlo, max_le (le_max_left _ _) hhi⟩
  | turned low under sign =>
    exact ⟨rfl, le_min hlo (min_le_left _ _), max_le hhi (le_max_left _ _)⟩
  | advanced low under sign grows =>
    exact ⟨hbracketed, le_min hlo (min_le_right _ _), max_le hhi (le_max_right _ _)⟩

theorem Takes.growing (htakes : iv.Takes line p stage1 here iv' next)
    (hfree : iv'.bracketed = false) :
    iv.bracketed = false ∧ iv'.best = here ∧ here.stp < next := by
  cases htakes with
  | far under => cases hfree
  | turned low under sign => cases hfree
  | advanced low under sign grows => exact ⟨hfree, rfl, grows hfree⟩

end

end Interval

namespace Bracket

section

variable {b : Bracket ℝ} {here : Endpoint ℝ} {stage1 tilted : Bool} (hstage : stage1 = true ↔
  b.stage1 = true ∧ ¬(here.f ≤ line.testValue p here.stp ∧ 0 ≤ here.dg))

include hstage

/-- The first stage has ended, before this trial or with it. -/
theorem second_cases (hsecond : stage1 = false) :
    b.stage1 = false ∨ b.stage1 = true ∧ here.f ≤ line.testValue p here.stp ∧ 0 ≤ here.dg := by
  by_cases hfirst : b.stage1 = true
  · refine .inr ⟨hfirst, ?_⟩
    by_contra hrest
    rw [hstage.mpr ⟨hfirst, hrest⟩] at hsecond
    cases hsecond
  · exact .inl (Bool.eq_false_of_not_eq_true hfirst)

variable (h : b.interval.Kept line p b.stage1)

include h

/-- A slope that has not turned keeps the first stage going. -/
theorem second_of_advanced (hle : here.f ≤ b.interval.best.f)
    (hsign : 0 < here.dg * b.interval.best.dg) (hsecond : stage1 = false) :
    b.interval.bracketed = true ∧ here.f ≤ line.testValue p b.interval.other.stp := by
  rcases second_cases hstage hsecond with hbefore | ⟨hfirst, -, hrise⟩
  · obtain ⟨hbracketed, hother⟩ := h.second hbefore
    exact ⟨hbracketed, le_trans hle hother⟩
  · have hfall := h.low.falling hfirst
    exact absurd hsign (not_lt.mpr (mul_nonpos_of_nonneg_of_nonpos hrise (le_of_lt hfall)))

variable (hadmits : b.interval.Admits here.stp) (hfall : line.testSlope p ≤ 0)
  (hsteep : here.f ≤ line.testValue p here.stp → p.gtol * |line.slope| < |here.dg|)

include hadmits hfall

include hsteep in
theorem low_of_le (hle : here.f ≤ b.interval.best.f)
    (hplain : stage1 = true → here.f ≤ line.testValue p here.stp) : here.Low line p stage1 := by
  have hdecrease : here.f ≤ line.testValue p here.stp := by
    cases hcase : stage1 with
    | true => exact hplain hcase
    | false =>
      rcases second_cases hstage hcase with hbefore | ⟨-, hdecrease, -⟩
      · exact le_trans hle (h.le_testValue hbefore hfall hadmits)
      · exact hdecrease
  exact
    { decrease := hdecrease
      steep := hsteep hdecrease
      falling := fun hs => not_le.mp fun hrise => (hstage.mp hs).2 ⟨hdecrease, hrise⟩ }

include hsteep in
/-- A trial on the function as it is. -/
theorem takes_plain (hgtol : 0 ≤ p.gtol) (hhi : b.interval.bracketed = false → here.stp < b.stmax)
    (hplain : ¬(stage1 = true ∧ here.f ≤ b.interval.best.f ∧
      line.testValue p here.stp < here.f)) :
    b.interval.Takes line p stage1 here (b.interval.absorb here)
      (b.interval.nextStep here b.stmin b.stmax) := by
  have hbest := h.low.dg_ne_zero hgtol
  have hlow : here.f ≤ b.interval.best.f → here.Low line p stage1 := fun hle =>
    low_of_le hstage h hadmits hfall hsteep hle fun hs => not_lt.mp fun hgt => hplain ⟨hs, hle, hgt⟩
  have hsame : here.f ≤ b.interval.best.f → ¬Interval.signedSlope b.interval.best here < 0 →
      0 < here.dg * b.interval.best.dg := by
    intro hle hsigned
    refine lt_of_le_of_ne (not_lt.mp fun hneg => ?_)
      (Ne.symm (mul_ne_zero ((hlow hle).dg_ne_zero hgtol) hbest))
    exact hsigned ((Interval.signedSlope_neg_iff hbest).mpr hneg)
  have hmoves := Interval.moves b.interval here b.stmin b.stmax
  generalize b.interval.absorb here = iv at hmoves ⊢
  generalize b.interval.nextStep here b.stmin b.stmax = next at hmoves ⊢
  cases hmoves with
  | higher value =>
    refine .far fun hsecond => ?_
    rcases second_cases hstage hsecond with hbefore | ⟨-, hdecrease, -⟩
    · exact h.le_testValue hbefore hfall hadmits
    · exact le_trans (le_of_lt value) hdecrease
  | opposite value sign =>
    have hle := not_lt.mp value
    exact .turned (hlow hle) (le_trans hle h.low.decrease)
      ((Interval.signedSlope_neg_iff hbest).mp sign)
  | flatter value sign flat =>
    have hle := not_lt.mp value
    have hsign := hsame hle sign
    refine .advanced (hlow hle) (second_of_advanced hstage h hle hsign) hsign fun hfree => ?_
    have hbestneg := h.low.falling (h.stage1_of_free hfree)
    have hneg : here.dg < 0 := (neg_iff_neg_of_mul_pos hsign).mpr hbestneg
    have hflat : |here.dg| < |b.interval.best.dg| := flat
    rw [abs_of_neg hneg, abs_of_neg hbestneg] at hflat
    exact Interval.lt_stepFlatter hfree (hadmits.beyond hfree) (hhi hfree) hneg
      (neg_lt_neg_iff.mp hflat)
  | steeper value sign steep =>
    have hle := not_lt.mp value
    have hsign := hsame hle sign
    refine .advanced (hlow hle) (second_of_advanced hstage h hle hsign) hsign fun hfree => ?_
    rw [Interval.stepSteeper_of_free hfree, if_pos (hadmits.beyond hfree)]
    exact hhi hfree

omit hstage hadmits hfall in
/-- On the tilted function the trial is higher than the best point. -/
theorem higher_tilted (habove : line.testValue p here.stp < here.f) :
    (b.interval.best.lower (line.testSlope p)).f < (here.lower (line.testSlope p)).f := by
  have hdecrease : b.interval.best.f ≤ line.f0 + b.interval.best.stp * line.testSlope p :=
    h.low.decrease
  have habove' : line.f0 + here.stp * line.testSlope p < here.f := habove
  show b.interval.best.f - b.interval.best.stp * line.testSlope p <
    here.f - here.stp * line.testSlope p
  linarith

omit hstage hadmits hfall in
theorem absorb_tilted (habove : line.testValue p here.stp < here.f) :
    (b.interpolate (line.testSlope p) true here).1 =
      { best := b.interval.best, other := here, bracketed := true } := by
  show ((b.interval.mapEnds (Endpoint.lower _)).absorb (here.lower _)).mapEnds _ = _
  rw [Interval.absorb_of_higher (higher_tilted h habove)]
  simp only [Interval.mapEnds, Endpoint.raise_lower]

include hsteep in
theorem takes (hgtol : 0 ≤ p.gtol) (hhi : b.interval.bracketed = false → here.stp < b.stmax)
    (htilted : tilted = true ↔ stage1 = true ∧ here.f ≤ b.interval.best.f ∧
      line.testValue p here.stp < here.f) :
    b.interval.Takes line p stage1 here (b.interpolate (line.testSlope p) tilted here).1
      (b.interpolate (line.testSlope p) tilted here).2 := by
  cases tilted with
  | true =>
    obtain ⟨hfirst, -, habove⟩ := htilted.mp rfl
    rw [absorb_tilted h habove]
    refine .far fun hsecond => ?_
    rw [hfirst] at hsecond
    cases hsecond
  | false =>
    refine takes_plain hstage h hadmits hfall hsteep hgtol hhi fun hrest => ?_
    cases htilted.mpr hrest

end

/-! ### One step -/

/-- What holds at the start of a trial with step `s`. -/
structure Closing (line : Line ℝ n) (p : SearchParams ℝ) (b : Bracket ℝ) (s : ℝ) : Prop where
  kept : b.interval.Kept line p b.stage1
  growing : b.interval.bracketed = false →
    0 ≤ b.interval.best.stp ∧ b.interval.best.stp < s ∧ s ≤ line.stpmax ∧ s < b.stmax
  ends : b.interval.bracketed = true →
    b.stmin = min b.interval.best.stp b.interval.other.stp ∧
      b.stmax = max b.interval.best.stp b.interval.other.stp ∧
      (b.stmin < s ∧ s < b.stmax ∨ s = b.interval.best.stp)

theorem Closing.admits {b : Bracket ℝ} {s : ℝ} (h : b.Closing line p s)
    (inside : b.interval.bracketed = true → ¬s ≤ b.stmin ∧ ¬b.stmax ≤ s) : b.interval.Admits s where
  inside hbracketed := by
    obtain ⟨hmin, hmax, -⟩ := h.ends hbracketed
    rw [← hmin, ← hmax]
    exact ⟨not_le.mp (inside hbracketed).1, not_le.mp (inside hbracketed).2⟩
  beyond hfree := (h.growing hfree).2.1

/-- From one trial to the next a bracket stays and shrinks, and without one the steps grow. -/
structure Narrows {α : Type} [Scalar α] (b b' : Bracket α) (s s' : α) : Prop where
  stays : b.interval.bracketed = true →
    b'.interval.bracketed = true ∧ b.stmin ≤ b'.stmin ∧ b'.stmax ≤ b.stmax
  grows : b'.interval.bracketed = false → s < s'

theorem stage1_update {α : Type} [Scalar α] (line : Line α n) (p : SearchParams α) (b : Bracket α)
    (stage1 tilted : Bool) (here : Endpoint α) :
    (b.update line p stage1 tilted here).1.stage1 = stage1 := by
  unfold update
  dsimp only
  split <;> rfl

theorem interval_update {α : Type} [Scalar α] (line : Line α n) (p : SearchParams α) (b : Bracket α)
    (stage1 tilted : Bool) (here : Endpoint α) :
    (b.update line p stage1 tilted here).1.interval =
      (b.interpolate (line.testSlope p) tilted here).1 := by
  unfold update
  dsimp only
  split <;> rfl

section

variable {b b' : Bracket ℝ} {here : Endpoint ℝ} {stage1 : Bool} {iv : Interval ℝ} {proposed s' : ℝ}
  (h : b.Closing line p here.stp) (hadmits : b.interval.Admits here.stp)
  (htakes : b.interval.Takes line p stage1 here iv proposed)
  (hfirst : stage1 = true → b.stage1 = true) (hinterval : b'.interval = iv)
  (hstage : b'.stage1 = stage1)

include h hadmits htakes hfirst hinterval hstage

/-- A bracket goes on with any step inside it, whatever step was proposed. -/
theorem Closing.of_bracketed (hbracketed : iv.bracketed = true)
    (hmin : b'.stmin = min iv.best.stp iv.other.stp)
    (hmax : b'.stmax = max iv.best.stp iv.other.stp)
    (hnext : b'.stmin < s' ∧ s' < b'.stmax ∨ s' = iv.best.stp) :
    b'.Closing line p s' ∧ b.Narrows b' here.stp s' := by
  have hkept := htakes.kept h.kept hadmits hfirst
  constructor
  · refine
      { kept := by rw [hinterval, hstage]; exact hkept
        growing := fun hfree => ?_
        ends := fun _ => ?_ }
    · rw [hinterval, hbracketed] at hfree
      cases hfree
    · rw [hinterval]
      exact ⟨hmin, hmax, hnext⟩
  · refine { stays := fun hbefore => ?_, grows := fun hfree => ?_ }
    · obtain ⟨-, hlo, hhi⟩ := htakes.narrows hadmits hbefore
      obtain ⟨hbmin, hbmax, -⟩ := h.ends hbefore
      rw [hmin, hmax, hbmin, hbmax, hinterval]
      exact ⟨hbracketed, hlo, hhi⟩
    · rw [hinterval, hbracketed] at hfree
      cases hfree

theorem Closing.of_free (hless : p.ftol < p.gtol) (hslope : line.slope < 0)
    (hbefore : here.f ≤ line.testValue p here.stp → here.dg ≤ line.testSlope p →
      here.stp ≠ line.stpmax) (hfree : iv.bracketed = false)
    (hmax : b'.stmax = proposed + 4.0 * (proposed - iv.best.stp))
    (hnext : s' = min (max proposed 0) line.stpmax) :
    b'.Closing line p s' ∧ b.Narrows b' here.stp s' := by
  have hkept := htakes.kept h.kept hadmits hfirst
  obtain ⟨hbfree, hbest, hproposed⟩ := htakes.growing hfree
  obtain ⟨hstart, hahead, hle, -⟩ := h.growing hbfree
  have hlow := hkept.low
  have hlast : here.stp < line.stpmax := by
    have hslow := hlow.dg_lt_testSlope (hkept.stage1_of_free hfree) hless hslope
    have hdecrease := hlow.decrease
    rw [hbest] at hslow hdecrease
    exact lt_of_le_of_ne hle (hbefore hdecrease (le_of_lt hslow))
  have hpos : 0 ≤ here.stp := le_of_lt (lt_of_le_of_lt hstart hahead)
  rw [max_eq_left (le_of_lt (lt_of_le_of_lt hpos hproposed))] at hnext
  have hgrown : here.stp < s' := hnext ▸ lt_min hproposed hlast
  constructor
  · refine
      { kept := by rw [hinterval, hstage]; exact hkept
        growing := fun _ => ?_
        ends := fun hbracketed => ?_ }
    · rw [hinterval, hbest]
      refine ⟨hpos, hgrown, hnext ▸ min_le_right _ _, ?_⟩
      have hback : s' ≤ proposed := hnext ▸ min_le_left _ _
      have hfour : (0 : ℝ) < 4.0 := by norm_num
      rw [hmax, hbest]
      exact lt_of_le_of_lt hback
        (lt_add_of_pos_right _ (mul_pos hfour (sub_pos.mpr hproposed)))
    · rw [hinterval, hfree] at hbracketed
      cases hbracketed
  · refine { stays := fun hbracketed => ?_, grows := fun _ => hgrown }
    rw [hbfree] at hbracketed
    cases hbracketed

end

/-- Where a bracket has no room the search goes on from its best point. -/
theorem inside_or_best {stmin stmax step best : ℝ} :
    let next := if noRoom p stmin stmax step then best else step
    stmin < next ∧ next < stmax ∨ next = best := by
  intro next
  cases hroom : noRoom p stmin stmax step with
  | true => exact .inr (if_pos hroom)
  | false =>
    have hnext : next = step := if_neg (Bool.eq_false_iff.mp hroom)
    rw [noRoom_eq_false_iff] at hroom
    rw [hnext]
    exact .inl ⟨hroom.1, hroom.2.1⟩

theorem Closing.update {b : Bracket ℝ} {here : Endpoint ℝ} {stage1 tilted : Bool}
    {iv : Interval ℝ} {proposed : ℝ} (h : b.Closing line p here.stp)
    (hadmits : b.interval.Admits here.stp)
    (hfound : b.interpolate (line.testSlope p) tilted here = (iv, proposed))
    (htakes : b.interval.Takes line p stage1 here iv proposed)
    (hfirst : stage1 = true → b.stage1 = true) (hless : p.ftol < p.gtol) (hslope : line.slope < 0)
    (hbefore : here.f ≤ line.testValue p here.stp → here.dg ≤ line.testSlope p →
      here.stp ≠ line.stpmax) :
    let found := b.update line p stage1 tilted here
    found.1.Closing line p found.2 := by
  intro found
  have hstage : found.1.stage1 = stage1 := stage1_update _ _ _ _ _ _
  cases hbracketed : iv.bracketed with
  | true =>
    obtain ⟨c, -, hiv, hmin, hmax, hnext⟩ := update_of_bracketed hfound hbracketed stage1
    rw [Scalar.smaller_real] at hmin
    rw [Scalar.larger_real] at hmax
    refine (h.of_bracketed hadmits htakes hfirst hiv hstage hbracketed hmin hmax ?_).1
    rw [hnext]
    exact inside_or_best
  | false =>
    obtain ⟨hiv, -, hmax, hnext⟩ := update_of_free hfound hbracketed stage1
    rw [Scalar.smaller_real, Scalar.larger_real] at hnext
    exact (h.of_free hadmits htakes hfirst hiv hstage hless hslope hbefore hbracketed hmax hnext).1

end Bracket

/-! ### Whole searches -/

section

variable [Spaced ℝ] (hnear : ∀ a : ℝ, Spaced.near p.ulps a a = true) (hftol : 0 < p.ftol)
  (hless : p.ftol < p.gtol) (hslope : line.slope < 0)

include hnear hftol hless hslope

theorem Verdict.closing_of {phase phase' : Phase ℝ} {t : Trial ℝ n} {stp' : ℝ}
    (h : ∀ b, phase = .interpolating b → b.Closing line p t.stp)
    (hnext : Verdict.of line p phase t = .next phase' stp') :
    ∀ b, phase' = .interpolating b → b.Closing line p stp' := by
  cases continues_of hnext with
  | backtracks => exact nofun
  | @interpolates b finite steep inside before_end stage1 tilted stage_iff tilted_iff =>
    have hb := h b rfl
    let here := line.endpoint t
    have hfall : line.testSlope p ≤ 0 := le_of_lt (mul_neg_of_pos_of_neg hftol hslope)
    have hgtol : 0 ≤ p.gtol := le_of_lt (lt_trans hftol hless)
    have hadmits : b.interval.Admits here.stp := hb.admits inside
    have hsteep : here.f ≤ line.testValue p here.stp → p.gtol * |line.slope| < |here.dg| := by
      intro hdecrease
      rw [abs_of_neg hslope]
      exact not_le.mp (steep hdecrease)
    have htakes := Bracket.takes stage_iff hb.kept hadmits hfall hsteep hgtol
      (fun hfree => (hb.growing hfree).2.2.2) tilted_iff
    have hbefore : here.f ≤ line.testValue p here.stp → here.dg ≤ line.testSlope p →
        here.stp ≠ line.stpmax := by
      intro hdecrease hdg hend
      exact before_end (hend ▸ hnear here.stp) hdecrease hdg
    rintro _ ⟨⟩
    exact hb.update hadmits rfl htakes (fun hs => (stage_iff.mp hs).1) hless hslope hbefore

end

theorem Bracket.closing_begin (hgtol : p.gtol < 1) (hslope : line.slope < 0)
    (hmax : 0 < line.stpmax) {stp : ℝ} (hstp : 0 < stp) :
    (begin line stp).Closing line p (min stp line.stpmax) where
  kept :=
    { low :=
        { decrease := by
            show line.f0 ≤ line.f0 + 0 * line.testSlope p
            rw [zero_mul, add_zero]
          steep := mul_lt_of_lt_one_left (abs_pos.mpr (ne_of_lt hslope)) hgtol
          falling := fun _ => hslope }
      toward := nofun
      second := nofun }
  growing _ := by
    have hfour : (0 : ℝ) < 4.0 := by norm_num
    exact ⟨le_refl 0, lt_min hstp hmax, min_le_right _ _,
      lt_of_le_of_lt (min_le_left _ _) (lt_add_of_pos_right stp (mul_pos hfour hstp))⟩
  ends := nofun

end BoxDescent
