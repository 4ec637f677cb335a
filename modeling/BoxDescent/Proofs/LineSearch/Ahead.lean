import BoxDescent.Proofs.LineSearch.Interpolation
import BoxDescent.Proofs.LineSearch.Steps
import BoxDescent.Proofs.LineSearch.Trials

/-!
# Trials ahead of the start

In exact arithmetic, with a bracket tolerance below one, every trial of a search along a line
that descends has a positive step, at most the longest one.
-/

namespace BoxDescent

variable {n : Nat}

/-! ### Tilted intervals -/

namespace Endpoint

theorem lower_zero (e : Endpoint ℝ) : e.lower 0 = e := by
  have hf : e.f - e.stp * 0 = e.f := by ring
  have hdg : e.dg - 0 = e.dg := sub_zero _
  exact congrArg₂ (Endpoint.mk e.stp) hf hdg

theorem raise_lower (slope : ℝ) (e : Endpoint ℝ) : (e.lower slope).raise slope = e := by
  have hf : e.f - e.stp * slope + e.stp * slope = e.f := by ring
  have hdg : e.dg - slope + slope = e.dg := by ring
  exact congrArg₂ (Endpoint.mk e.stp) hf hdg

theorem raise_zero (e : Endpoint ℝ) : e.raise 0 = e := by
  have h := raise_lower 0 e
  rw [lower_zero] at h
  exact h

end Endpoint

namespace Bracket

/-- Nothing is removed where the function is taken as it is. -/
theorem interpolate_eq (b : Bracket ℝ) (slope : ℝ) (tilted : Bool) (here : Endpoint ℝ) :
    let s := if tilted then slope else 0
    let lowered := b.interval.mapEnds (Endpoint.lower s)
    b.interpolate slope tilted here =
      ((lowered.absorb (here.lower s)).mapEnds (Endpoint.raise s),
        lowered.nextStep (here.lower s) b.stmin b.stmax) := by
  cases tilted with
  | true => rfl
  | false =>
    have hraise : ∀ iv : Interval ℝ, iv.mapEnds (Endpoint.raise 0) = iv := by
      intro iv
      rw [Interval.mapEnds, Endpoint.raise_zero, Endpoint.raise_zero]
    have hlower : b.interval.mapEnds (Endpoint.lower 0) = b.interval := by
      rw [Interval.mapEnds, Endpoint.lower_zero, Endpoint.lower_zero]
    simp only [Bool.false_eq_true, if_false]
    rw [hraise, hlower, Endpoint.lower_zero]
    rfl

section

variable {α : Type} [Scalar α] {line : Line α n} {p : SearchParams α} {b : Bracket α}
  {tilted : Bool} {here : Endpoint α} {iv : Interval α} {proposed : α}

/-- With a bracket the next step is the one proposed, or the middle if the bracket has not shrunk,
moved into the range of steps, or the best one if there is no room for it. -/
theorem update_of_bracketed (h : b.interpolate (line.testSlope p) tilted here = (iv, proposed))
    (hbracketed : iv.bracketed = true) (stage1 : Bool) :
    ∃ c, (c = if 0.66 * b.lastWidth ≤ iv.width then
        iv.best.stp + 0.5 * (iv.other.stp - iv.best.stp) else proposed) ∧
      let found := b.update line p stage1 tilted here
      let step := Scalar.smaller (Scalar.larger c 0) line.stpmax
      found.1.interval = iv ∧
        found.1.stmin = Scalar.smaller iv.best.stp iv.other.stp ∧
        found.1.stmax = Scalar.larger iv.best.stp iv.other.stp ∧
        found.2 = if noRoom p found.1.stmin found.1.stmax step then iv.best.stp else step := by
  refine ⟨_, rfl, ?_⟩
  simp only [update, h, hbracketed, if_true, and_self]

theorem update_of_free (h : b.interpolate (line.testSlope p) tilted here = (iv, proposed))
    (hfree : iv.bracketed = false) (stage1 : Bool) :
    let found := b.update line p stage1 tilted here
    found.1.interval = iv ∧
      found.1.stmin = proposed + 1.1 * (proposed - iv.best.stp) ∧
      found.1.stmax = proposed + 4.0 * (proposed - iv.best.stp) ∧
      found.2 = Scalar.smaller (Scalar.larger proposed 0) line.stpmax := by
  simp only [update, h, hfree, Bool.false_eq_true, if_false, and_self]

end

/-! ### Ahead of the start -/

/-- The ends of the interval are not behind the start, and the best one is the start itself or
ahead of it.  Without a bracket the steps have been growing. -/
structure Ahead (line : Line ℝ n) (b : Bracket ℝ) (stp : ℝ) : Prop where
  best_nonneg : 0 ≤ b.interval.best.stp
  best_le : b.interval.best.stp ≤ line.stpmax
  other_nonneg : 0 ≤ b.interval.other.stp
  start : b.interval.best.stp = 0 → b.interval.best = { stp := 0, f := line.f0, dg := line.slope }
  growing : b.interval.bracketed = false →
    b.interval.best.stp ≤ stp ∧ stp ≤ b.stmax ∧ (b.interval.best.stp < stp ∨ stp ≤ b.stmin)

variable {line : Line ℝ n} {p : SearchParams ℝ}

theorem ahead_begin (hmax : 0 < line.stpmax) {stp : ℝ} (hstp : 0 < stp) :
    Ahead line (begin line stp) (min stp line.stpmax) where
  best_nonneg := le_refl 0
  best_le := le_of_lt hmax
  other_nonneg := le_refl 0
  start _ := rfl
  growing _ := by
    have hfirst : 0 < min stp line.stpmax := lt_min hstp hmax
    have hmore : stp ≤ stp + 4.0 * stp := by
      have hfour : (0 : ℝ) < 4.0 := by norm_num
      exact le_add_of_nonneg_right (le_of_lt (mul_pos hfour hstp))
    exact ⟨le_of_lt hfirst, le_trans (min_le_left _ _) hmore, .inl hfirst⟩

section

variable {b : Bracket ℝ} {here : Endpoint ℝ} {iv : Interval ℝ} {proposed s : ℝ}

/-- What a trial ahead of the start leaves: an interval whose best end is the start only if a
minimum is bracketed between the start and the trial, and then the step proposed lies there. -/
structure Found (line : Line ℝ n) (here : Endpoint ℝ) (iv : Interval ℝ) (proposed : ℝ) : Prop where
  best_nonneg : 0 ≤ iv.best.stp
  best_le : iv.best.stp ≤ line.stpmax
  other_nonneg : 0 ≤ iv.other.stp
  start : iv.best.stp = 0 → iv.best = { stp := 0, f := line.f0, dg := line.slope } ∧
    iv.bracketed = true ∧ iv.other.stp = here.stp ∧ 0 < proposed ∧ proposed < here.stp
  growing : iv.bracketed = false → iv.best.stp = here.stp ∧ here.stp ≤ proposed

variable (h : Ahead line b here.stp) (hpos : 0 < here.stp) (hle : here.stp ≤ line.stpmax)

include h hpos

theorem Ahead.found_higher (hs : line.slope - s < 0)
    (hvalue : (b.interval.best.lower s).f < (here.lower s).f) :
    Found line here { best := b.interval.best, other := here, bracketed := true }
      (Interval.stepHigher (b.interval.best.lower s) (here.lower s)) where
  best_nonneg := h.best_nonneg
  best_le := h.best_le
  other_nonneg := le_of_lt hpos
  growing := nofun
  start hzero := by
    have hbest := h.start hzero
    have hdescent : (b.interval.best.lower s).dg * (here.stp - b.interval.best.stp) < 0 := by
      have hdg : (b.interval.best.lower s).dg = line.slope - s := by
        rw [hbest]
        rfl
      have hzero' : b.interval.best.stp = 0 := hzero
      rw [hdg, hzero', sub_zero]
      exact mul_neg_of_neg_of_pos hs hpos
    have hshare : Interval.IsShare b.interval.best.stp here.stp
        (Interval.stepHigher (b.interval.best.lower s) (here.lower s)) :=
      Interval.stepHigher_share hdescent hvalue
    obtain ⟨hafter, hbefore⟩ := hshare.between (lt_of_le_of_lt (le_of_eq hzero) hpos)
    exact ⟨hbest, rfl, rfl, lt_of_le_of_lt (le_of_eq hzero.symm) hafter, hbefore⟩

include hle

theorem Ahead.found (hs : line.slope - s < 0) :
    let lowered := b.interval.mapEnds (Endpoint.lower s)
    Found line here ((lowered.absorb (here.lower s)).mapEnds (Endpoint.raise s))
      (lowered.nextStep (here.lower s) b.stmin b.stmax) := by
  intro lowered
  have hraised : (here.lower s).raise s = here := Endpoint.raise_lower s here
  -- with the trial as the best end only the growth of the steps is left to show
  have hadvanced : ∀ (other : Endpoint ℝ) (bracketed : Bool) (step : ℝ), 0 ≤ other.stp →
      (bracketed = false → here.stp ≤ step) →
      Found line here { best := here, other := other, bracketed := bracketed } step := by
    intro other bracketed step hother hgrows
    exact
      { best_nonneg := le_of_lt hpos
        best_le := hle
        other_nonneg := hother
        start := fun hzero => absurd hzero (ne_of_gt hpos)
        growing := fun hfree => ⟨rfl, hgrows hfree⟩ }
  have hmoves := Interval.moves lowered (here.lower s) b.stmin b.stmax
  generalize lowered.absorb (here.lower s) = found at hmoves ⊢
  generalize lowered.nextStep (here.lower s) b.stmin b.stmax = step at hmoves ⊢
  cases hmoves with
  | higher value =>
    have hback : lowered.best.raise s = b.interval.best := Endpoint.raise_lower s _
    rw [Interval.mapEnds, hback, hraised]
    exact h.found_higher hpos hs value
  | opposite value sign =>
    rw [Interval.mapEnds, hraised]
    exact hadvanced _ _ _ h.best_nonneg nofun
  | flatter value sign flat =>
    rw [Interval.mapEnds, hraised]
    refine hadvanced _ _ _ h.other_nonneg fun hfree => ?_
    obtain ⟨-, hhi, hway⟩ := h.growing hfree
    have hstep : (here.lower s).stp ≤ lowered.stepFlatter (here.lower s) b.stmin b.stmax :=
      Interval.le_stepFlatter hfree hhi hway sign flat
    exact hstep
  | steeper value sign steep =>
    rw [Interval.mapEnds, hraised]
    refine hadvanced _ _ _ h.other_nonneg fun hfree => ?_
    obtain ⟨-, hhi, hway⟩ := h.growing hfree
    have hstep : (here.lower s).stp ≤ lowered.stepSteeper (here.lower s) b.stmin b.stmax :=
      Interval.le_stepSteeper hfree hhi hway
    exact hstep

end

/-! ### The step that follows -/

theorem noRoom_eq_false_iff {stmin stmax stp : ℝ} :
    noRoom p stmin stmax stp = false ↔
      stmin < stp ∧ stp < stmax ∧ p.xtol * stmax < stmax - stmin := by
  rw [noRoom, Bool.or_eq_false_iff, Bool.or_eq_false_iff, decide_eq_false_iff_not,
    decide_eq_false_iff_not, decide_eq_false_iff_not, not_le, not_le, not_le, and_assoc]

section

variable {here : Endpoint ℝ} {iv : Interval ℝ} {proposed c : ℝ}
  (h : Found line here iv proposed)
  (hc : c = proposed ∨ c = iv.best.stp + 0.5 * (iv.other.stp - iv.best.stp))

include h hc

/-- From the start the middle and the proposed step both lead into the bracket. -/
theorem Found.inside (hzero : iv.best.stp = 0) : 0 < c ∧ c < here.stp := by
  obtain ⟨-, -, hother, hafter, hbefore⟩ := h.start hzero
  rcases hc with rfl | rfl
  · exact ⟨hafter, hbefore⟩
  · have hpos : 0 < here.stp := lt_trans hafter hbefore
    rw [hzero, hother]
    constructor <;> linarith

theorem Found.step_pos (hpos : 0 < here.stp) (hle : here.stp ≤ line.stpmax) (hxtol : p.xtol < 1) :
    let step := min (max c 0) line.stpmax
    let next := if noRoom p (min iv.best.stp iv.other.stp) (max iv.best.stp iv.other.stp) step
      then iv.best.stp else step
    0 < next ∧ next ≤ line.stpmax := by
  intro step next
  have hnext : next ≤ line.stpmax := by
    simp only [next]
    split
    · exact h.best_le
    · exact min_le_right _ _
  refine ⟨?_, hnext⟩
  by_cases hzero : iv.best.stp = 0
  · obtain ⟨hafter, hbefore⟩ := h.inside hc hzero
    obtain ⟨-, -, hother, -, -⟩ := h.start hzero
    have hstep : step = c := by
      change min (max c 0) line.stpmax = c
      rw [max_eq_left (le_of_lt hafter), min_eq_left (le_trans (le_of_lt hbefore) hle)]
    have hroom : noRoom p (min iv.best.stp iv.other.stp) (max iv.best.stp iv.other.stp) step =
        false := by
      rw [noRoom_eq_false_iff, hzero, hother, hstep, min_eq_left (le_of_lt hpos),
        max_eq_right (le_of_lt hpos), sub_zero]
      exact ⟨hafter, hbefore, mul_lt_of_lt_one_left hpos hxtol⟩
    simp only [next]
    rw [hroom, if_neg Bool.false_ne_true, hstep]
    exact hafter
  · have hbest : 0 < iv.best.stp := lt_of_le_of_ne h.best_nonneg (Ne.symm hzero)
    simp only [next]
    split
    · exact hbest
    · rename_i hroom
      rw [Bool.not_eq_true, noRoom_eq_false_iff] at hroom
      exact lt_of_le_of_lt (le_min h.best_nonneg h.other_nonneg) hroom.1

end

theorem Ahead.update {b : Bracket ℝ} {here : Endpoint ℝ} (h : Ahead line b here.stp)
    (hpos : 0 < here.stp) (hle : here.stp ≤ line.stpmax) (hslope : line.slope < 0)
    (hftol : p.ftol < 1) (hxtol : p.xtol < 1) (stage1 tilted : Bool) :
    let found := b.update line p stage1 tilted here
    0 < found.2 ∧ found.2 ≤ line.stpmax ∧ Ahead line found.1 found.2 := by
  intro found
  have htilt : line.slope - (if tilted then line.testSlope p else 0) < 0 := by
    cases tilted with
    | true =>
      have hrest : line.slope - line.testSlope p = (1 - p.ftol) * line.slope := by
        change line.slope - p.ftol * line.slope = _
        ring
      rw [if_pos rfl, hrest]
      exact mul_neg_of_pos_of_neg (sub_pos.mpr hftol) hslope
    | false =>
      rw [if_neg Bool.false_ne_true, sub_zero]
      exact hslope
  obtain ⟨iv, proposed, hinterpolate, hleft⟩ : ∃ iv proposed,
      b.interpolate (line.testSlope p) tilted here = (iv, proposed) ∧
        Found line here iv proposed :=
    ⟨_, _, b.interpolate_eq _ _ _, h.found hpos hle htilt⟩
  cases hbracketed : iv.bracketed with
  | true =>
    obtain ⟨c, hstep, hiv, hmin, hmax, hnext⟩ := update_of_bracketed hinterpolate hbracketed stage1
    rw [hmin, hmax, Scalar.smaller_real, Scalar.smaller_real, Scalar.larger_real,
      Scalar.larger_real] at hnext
    have hc : c = proposed ∨ c = iv.best.stp + 0.5 * (iv.other.stp - iv.best.stp) := by
      rw [hstep]
      exact (ite_eq_or_eq _ _ _).symm
    obtain ⟨hafter, hbefore⟩ := hleft.step_pos hc hpos hle hxtol
    rw [← hnext] at hafter hbefore
    refine ⟨hafter, hbefore, ?_⟩
    exact
      { best_nonneg := hiv ▸ hleft.best_nonneg
        best_le := hiv ▸ hleft.best_le
        other_nonneg := hiv ▸ hleft.other_nonneg
        start := hiv ▸ fun hzero => (hleft.start hzero).1
        growing := fun hfree => by
          rw [hiv, hbracketed] at hfree
          cases hfree }
  | false =>
    obtain ⟨hiv, hmin, hmax, hnext⟩ := update_of_free hinterpolate hbracketed stage1
    obtain ⟨hbest, hgrows⟩ := hleft.growing hbracketed
    have hproposed : 0 < proposed := lt_of_lt_of_le hpos hgrows
    rw [Scalar.smaller_real, Scalar.larger_real, max_eq_left (le_of_lt hproposed)] at hnext
    have hmaxpos : 0 < line.stpmax := lt_of_lt_of_le hpos hle
    have hback : found.2 ≤ proposed := hnext ▸ min_le_left _ _
    have hahead : here.stp ≤ found.2 := hnext ▸ le_min hgrows hle
    have hgain : 0 ≤ proposed - here.stp := sub_nonneg.mpr hgrows
    refine ⟨lt_of_lt_of_le hpos hahead, hnext ▸ min_le_right _ _, ?_⟩
    exact
      { best_nonneg := hiv ▸ hleft.best_nonneg
        best_le := hiv ▸ hleft.best_le
        other_nonneg := hiv ▸ hleft.other_nonneg
        start := hiv ▸ fun hzero => (hleft.start hzero).1
        growing := fun _ => by
          rw [hiv, hmin, hmax, hbest]
          refine ⟨hahead, le_trans hback ?_, .inr (le_trans hback ?_)⟩
          · have hfour : (0 : ℝ) ≤ 4.0 := by norm_num
            exact le_add_of_nonneg_right (mul_nonneg hfour hgain)
          · have hmore : (0 : ℝ) ≤ 1.1 := by norm_num
            exact le_add_of_nonneg_right (mul_nonneg hmore hgain) }

end Bracket

/-! ### Whole searches -/

/-- The next step is ahead of the start and at most the longest one. -/
def Phase.Ahead (line : Line ℝ n) (phase : Phase ℝ) (stp : ℝ) : Prop :=
  0 < stp ∧ stp ≤ line.stpmax ∧
    match phase with
    | .interpolating b => b.Ahead line stp
    | .backtracking a => 0 ≤ a ∧ a ≤ line.stpmax

section

variable {line : Line ℝ n} {p : SearchParams ℝ}

theorem Phase.Ahead.anchor {phase : Phase ℝ} {stp : ℝ} (h : phase.Ahead line stp) :
    0 ≤ phase.anchor ∧ phase.anchor ≤ line.stpmax := by
  obtain ⟨-, -, hrest⟩ := h
  cases phase with
  | interpolating b => exact ⟨hrest.best_nonneg, hrest.best_le⟩
  | backtracking a => exact hrest

variable [Spaced ℝ] (hslope : line.slope < 0) (hftol : p.ftol < 1) (hxtol : p.xtol < 1)

include hslope hftol hxtol

theorem Verdict.ahead_of {phase phase' : Phase ℝ} {t : Trial ℝ n} {stp' : ℝ}
    (h : phase.Ahead line t.stp) (hnext : Verdict.of line p phase t = .next phase' stp') :
    phase'.Ahead line stp' := by
  have ⟨hpos, hle, hrest⟩ := h
  cases continues_of hnext with
  | interpolates => exact Bracket.Ahead.update hrest hpos hle hslope hftol hxtol _ _
  | backtracks =>
    obtain ⟨hanchor, hanchormax⟩ := h.anchor
    refine ⟨?_, ?_, hanchor, hanchormax⟩
    · rw [halfway_real]
      linarith
    · rw [halfway_real]
      linarith

end

/-- A first trial above the start is the far end of a bracket. -/
theorem Verdict.next_of_above [Spaced ℝ] {line : Line ℝ n} {p : SearchParams ℝ}
    (hslope : line.slope < 0) (hftol : 0 < p.ftol) {t : Trial ℝ n}
    (hfinite : t.eval.isFinite = true) (hpos : 0 < t.stp) (hhigher : line.f0 < t.eval.f) (stp : ℝ) :
    ∃ b step, Verdict.of line p (.interpolating (Bracket.begin line stp)) t =
        .next (.interpolating b) step ∧
      b.interval =
        { best := { stp := 0, f := line.f0, dg := line.slope }
          other := line.endpoint t
          bracketed := true } ∧
      b.stmin = 0 ∧ b.stmax = t.stp ∧
      ∃ c, step = if Bracket.noRoom p 0 t.stp c then 0 else c := by
  have htest : ¬t.eval.f ≤ line.testValue p t.stp := by
    have hfall : t.stp * (p.ftol * line.slope) < 0 :=
      mul_neg_of_pos_of_neg hpos (mul_neg_of_pos_of_neg hftol hslope)
    have hvalue : line.testValue p t.stp = line.f0 + t.stp * (p.ftol * line.slope) := rfl
    rw [hvalue]
    linarith
  let here := line.endpoint t
  let first := Bracket.begin line stp
  have hinterpolate : first.interpolate (line.testSlope p) false here =
      ({ best := first.interval.best, other := here, bracketed := true },
        first.interval.nextStep here first.stmin first.stmax) := by
    change (first.interval.absorb here, _) = _
    rw [Interval.absorb_of_higher hhigher]
  obtain ⟨c, -, hinterval, hmin, hmax, hnext⟩ :=
    Bracket.update_of_bracketed hinterpolate rfl true
  have hstmin : (first.update line p true false here).1.stmin = 0 := by
    rw [hmin, Scalar.smaller_real]
    exact min_eq_left (le_of_lt hpos)
  have hstmax : (first.update line p true false here).1.stmax = t.stp := by
    rw [hmax, Scalar.larger_real]
    exact max_eq_right (le_of_lt hpos)
  rw [hstmin, hstmax] at hnext
  refine ⟨_, _, ?_, hinterval, hstmin, hstmax, _, hnext⟩
  have hbest : ¬t.eval.f ≤ (Bracket.begin line stp).interval.best.f := not_le.mpr hhigher
  unfold Verdict.of
  rw [if_pos hfinite]
  dsimp only
  unfold interpolating
  dsimp only
  rw [if_neg fun hwolfe => htest hwolfe.1, decide_eq_false htest, decide_eq_false hbest]
  have hfree : (Bracket.begin line stp).interval.bracketed = false := rfl
  have hstage : (Bracket.begin line stp).stage1 = true := rfl
  simp only [hfree, hstage, Bool.false_and, Bool.and_false, Bool.or_false, Bool.not_false,
    Bool.and_true, Bool.false_eq_true, if_false]
  rfl

/-- Every trial of a search has a positive step, at most the longest one, and is the point of
the line for it. -/
theorem Search.ahead_of_mem [Spaced ℝ] {line : Line ℝ n} {p : SearchParams ℝ} (hftol : p.ftol < 1)
    (hxtol : p.xtol < 1) (hmax : 0 < line.stpmax) {objective : Objective ℝ n} {calls : Nat}
    {stp : ℝ} (hstp : 0 < stp) {t : Trial ℝ n}
    (ht : t ∈ (Search.of line p objective calls stp).trials) :
    0 < t.stp ∧ t.stp ≤ line.stpmax ∧ t.x = line.point t.stp := by
  by_cases hslope : line.slope < 0
  · rw [of_descent hslope] at ht
    have hbegin : (Phase.interpolating (Bracket.begin line stp)).Ahead line
        (Scalar.smaller stp line.stpmax) := by
      rw [Scalar.smaller_real]
      exact ⟨lt_min hstp hmax, min_le_right _ _, Bracket.ahead_begin hmax hstp⟩
    obtain ⟨k, phase, ⟨hpos, hle, -⟩, htrial⟩ := probe_mem (Phase.Ahead line)
      (fun _ _ _ _ _ h hnext => Verdict.ahead_of hslope hftol hxtol h hnext) hbegin ht
    exact ⟨hpos, hle, congrArg Trial.x htrial⟩
  · rw [of_not_descent hslope] at ht
    cases ht

end BoxDescent
