import BoxDescent.Proofs.LineSearch.Finite
import BoxDescent.Proofs.Projection

/-!
# The steps a search asks for

Each trial that neither ends a search nor makes it backtrack leads to one call for a safeguarded
step.  In exact arithmetic such a call only goes wrong where the slope is steeper, a minimum is
bracketed, and the far end lies lower than the trial: an end that was kept for its value above the
line of sufficient decrease can.  It does not if the constant of the curvature condition is at
least four times the constant of sufficient decrease.
-/

namespace BoxDescent

variable {n : Nat}

/-! ### Calls -/

/-- A call for a safeguarded step. -/
structure Query (α : Type) where
  interval : Interval α
  trial : Endpoint α
  lo : α
  hi : α

section

variable {α : Type} [Scalar α]

def Query.step (q : Query α) : α := q.interval.nextStep q.trial q.lo q.hi

namespace Bracket

/-- The call that interpolation makes. -/
def query (b : Bracket α) (slope : α) (tilted : Bool) (here : Endpoint α) : Query α :=
  if tilted then
    { interval := b.interval.mapEnds (Endpoint.lower slope)
      trial := here.lower slope
      lo := b.stmin
      hi := b.stmax }
  else
    { interval := b.interval, trial := here, lo := b.stmin, hi := b.stmax }

theorem interpolate_snd (b : Bracket α) (slope : α) (tilted : Bool) (here : Endpoint α) :
    (b.interpolate slope tilted here).2 = (b.query slope tilted here).step := by
  cases tilted <;> rfl

/-- The first stage goes on after this trial. -/
def staysFirst (line : Line α n) (p : SearchParams α) (b : Bracket α) (here : Endpoint α) : Bool :=
  b.stage1 && !(decide (here.f ≤ line.testValue p here.stp) && decide (0 ≤ here.dg))

/-- The function is taken with the line of sufficient decrease removed. -/
def tilts (line : Line α n) (p : SearchParams α) (b : Bracket α) (here : Endpoint α) : Bool :=
  b.staysFirst line p here && decide (here.f ≤ b.interval.best.f) &&
    decide (line.testValue p here.stp < here.f)

theorem staysFirst_iff {line : Line α n} {p : SearchParams α} {b : Bracket α}
    {here : Endpoint α} : b.staysFirst line p here = true ↔
      b.stage1 = true ∧ ¬(here.f ≤ line.testValue p here.stp ∧ 0 ≤ here.dg) := by
  rw [staysFirst, Bool.and_eq_true, Bool.not_eq_true', ← Bool.not_eq_true, Bool.and_eq_true,
    decide_eq_true_eq, decide_eq_true_eq]

theorem tilts_iff {line : Line α n} {p : SearchParams α} {b : Bracket α} {here : Endpoint α} :
    b.tilts line p here = true ↔ b.staysFirst line p here = true ∧
      here.f ≤ b.interval.best.f ∧ line.testValue p here.stp < here.f := by
  rw [tilts, Bool.and_eq_true, Bool.and_eq_true, decide_eq_true_eq, decide_eq_true_eq, and_assoc]

end Bracket

variable [Spaced α] {line : Line α n} {p : SearchParams α} {b : Bracket α} {t : Trial α n}

namespace Verdict

/-- The call made on a trial, unless the trial ends the search or its interpolation. -/
def query? (line : Line α n) (p : SearchParams α) (phase : Phase α) (t : Trial α n) :
    Option (Query α) :=
  match phase, Verdict.of line p phase t with
  | .interpolating b, .next (.interpolating _) _ =>
    let here := line.endpoint t
    some (b.query (line.testSlope p) (b.tilts line p here) here)
  | _, _ => none

/-- A finite trial inside the bracket that is not accepted, with a step that is not the longest
one, is followed by an interpolated step. -/
theorem of_inside (hfinite : t.eval.isFinite = true)
    (hsteep : ¬(t.eval.f ≤ line.testValue p t.stp ∧
      Scalar.abs (dot t.eval.g line.d) ≤ p.gtol * -line.slope))
    (hinside : b.interval.bracketed = true →
      ¬t.stp ≤ b.stmin ∧ ¬b.stmax ≤ t.stp ∧ ¬b.stmax - b.stmin ≤ p.xtol * b.stmax)
    (hbefore : Spaced.near p.ulps t.stp line.stpmax = false) :
    let here := line.endpoint t
    let found := b.update line p (b.staysFirst line p here) (b.tilts line p here) here
    Verdict.of line p (.interpolating b) t = .next (.interpolating found.1) found.2 := by
  unfold Verdict.of
  rw [if_pos hfinite]
  dsimp only
  unfold interpolating
  dsimp only
  rw [if_neg hsteep, hbefore]
  cases hbracketed : b.interval.bracketed with
  | true =>
    obtain ⟨hmin, hmax, hwidth⟩ := hinside hbracketed
    rw [decide_eq_false hmin, decide_eq_false hmax, decide_eq_false hwidth]
    rfl
  | false => rfl

theorem query?_of_inside (h : ∃ b' stp', Verdict.of line p (.interpolating b) t =
      .next (.interpolating b') stp') :
    query? line p (.interpolating b) t =
      some (b.query (line.testSlope p) (b.tilts line p (line.endpoint t)) (line.endpoint t)) := by
  obtain ⟨b', stp', hverdict⟩ := h
  unfold query?
  rw [hverdict]

end Verdict

/-- The calls that a search makes for safeguarded steps. -/
def Search.queries (line : Line α n) (p : SearchParams α) (objective : Objective α n)
    (calls : Nat) (stp : α) : List (Query α) :=
  (Search.stagesOf line p objective calls stp).zipIdx.filterMap fun (st, i) =>
    Verdict.query? line p st.phase (line.trial objective (calls + 1 + i) st.stp)

theorem Search.mem_queries {objective : Objective α n} {calls : Nat} {stp : α} {q : Query α} :
    q ∈ Search.queries line p objective calls stp ↔
      ∃ i st, (Search.stagesOf line p objective calls stp)[i]? = some st ∧
        Verdict.query? line p st.phase (line.trial objective (calls + 1 + i) st.stp) = some q := by
  simp only [queries, List.mem_filterMap, Prod.exists, List.mem_zipIdx_iff_getElem?]
  exact exists_comm

end

/-! ### What the far end is -/

section

variable {line : Line ℝ n} {p : SearchParams ℝ}

/-- The fourth case, with a far end that lies lower than the trial. -/
def Query.Exposed (q : Query ℝ) : Prop :=
  Interval.trialCase q.interval.best q.trial = .steeper ∧ q.interval.bracketed = true ∧
    q.interval.other.f < q.trial.f

/-- The far end does not lie lower than the best point, or it lies above the line of sufficient
decrease. -/
def Interval.Far (line : Line ℝ n) (p : SearchParams ℝ) (iv : Interval ℝ) : Prop :=
  iv.bracketed = true → iv.best.f ≤ iv.other.f ∨ line.testValue p iv.other.stp ≤ iv.other.f

namespace Bracket

variable {b : Bracket ℝ} {here : Endpoint ℝ} {stage1 tilted : Bool}

theorem far_interpolate (h : b.interval.Kept line p b.stage1) (hfar : b.interval.Far line p)
    (htilted : tilted = true → line.testValue p here.stp < here.f) :
    (b.interpolate (line.testSlope p) tilted here).1.Far line p := by
  cases tilted with
  | true =>
    rw [absorb_tilted h (htilted rfl)]
    exact fun _ => .inr (le_of_lt (htilted rfl))
  | false =>
    show (b.interval.absorb here).Far line p
    obtain ⟨step, hmoves⟩ := b.interval.absorb_moves here
    have hadvanced : ¬b.interval.best.f < here.f →
        ({ b.interval with best := here } : Interval ℝ).Far line p := by
      intro hvalue hbracketed
      rcases hfar hbracketed with hother | hother
      · exact .inl (le_trans (not_lt.mp hvalue) hother)
      · exact .inr hother
    generalize b.interval.absorb here = after at hmoves ⊢
    cases hmoves with
    | higher value => exact fun _ => .inl (le_of_lt value)
    | opposite value sign => exact fun _ => .inl (not_lt.mp value)
    | flatter value sign flat => exact hadvanced value
    | steeper value sign steep => exact hadvanced value

/-! ### What each call asks for -/

/-- Toward a far end that lies lower the value falls slowly, as that end lies above the line of
sufficient decrease and the slope at the trial is steep. -/
theorem slow_to_far (hfar : b.interval.Far line p) (hbracketed : b.interval.bracketed = true)
    (hvalue : here.f ≤ b.interval.best.f) (hlow : here.Low line p stage1) (hftol : 0 ≤ p.ftol)
    (hfall : here.dg * (b.interval.other.stp - here.stp) < 0)
    (hrest : b.interval.other.f < here.f → 4 * p.ftol ≤ p.gtol) :
    4 * (here.f - b.interval.other.f) ≤ -(here.dg * (b.interval.other.stp - here.stp)) := by
  rcases le_or_gt here.f b.interval.other.f with hle | hlower
  · linarith
  have hother : line.testValue p b.interval.other.stp ≤ b.interval.other.f :=
    (hfar hbracketed).resolve_left (not_le.mpr (lt_of_lt_of_le hlower hvalue))
  have hdrop : here.f - b.interval.other.f ≤
      p.ftol * |line.slope| * |b.interval.other.stp - here.stp| := by
    have hdecrease : here.f ≤ line.f0 + here.stp * (p.ftol * line.slope) := hlow.decrease
    have hfarther : line.f0 + b.interval.other.stp * (p.ftol * line.slope) ≤ b.interval.other.f :=
      hother
    calc here.f - b.interval.other.f
        ≤ -(p.ftol * (line.slope * (b.interval.other.stp - here.stp))) := by linarith
      _ ≤ p.ftol * |line.slope * (b.interval.other.stp - here.stp)| := by
        rw [← mul_neg]
        exact mul_le_mul_of_nonneg_left (neg_le_abs _) hftol
      _ = p.ftol * |line.slope| * |b.interval.other.stp - here.stp| := by
        rw [abs_mul, mul_assoc]
  have hway : 0 ≤ |b.interval.other.stp - here.stp| := abs_nonneg _
  calc 4 * (here.f - b.interval.other.f)
      ≤ 4 * (p.ftol * |line.slope| * |b.interval.other.stp - here.stp|) :=
        mul_le_mul_of_nonneg_left hdrop zero_le_four
    _ = 4 * p.ftol * |line.slope| * |b.interval.other.stp - here.stp| := by ring
    _ ≤ p.gtol * |line.slope| * |b.interval.other.stp - here.stp| :=
        mul_le_mul_of_nonneg_right (mul_le_mul_of_nonneg_right (hrest hlower) (abs_nonneg _)) hway
    _ ≤ |here.dg| * |b.interval.other.stp - here.stp| :=
        mul_le_mul_of_nonneg_right (le_of_lt hlow.steep) hway
    _ = -(here.dg * (b.interval.other.stp - here.stp)) := by rw [← abs_mul, abs_of_neg hfall]

section

variable (h : b.interval.Kept line p b.stage1) (hadmits : b.interval.Admits here.stp)
  (hftol : 0 < p.ftol) (hless : p.ftol < p.gtol) (hslope : line.slope < 0)

include h hadmits hless hslope

theorem computes_tilted (htilts : b.tilts line p here = true) :
    (b.interval.mapEnds (Endpoint.lower (line.testSlope p))).Computes
      (here.lower (line.testSlope p)) := by
  obtain ⟨hstays, -, habove⟩ := tilts_iff.mp htilts
  obtain ⟨hfirst, -⟩ := staysFirst_iff.mp hstays
  have hslow := h.low.dg_lt_testSlope hfirst hless hslope
  have hahead : 0 < here.stp - b.interval.best.stp :=
    pos_of_mul_neg_right (h.toward_step hadmits) (le_of_lt (h.low.falling hfirst))
  have hdescent : (b.interval.best.dg - line.testSlope p) * (here.stp - b.interval.best.stp) < 0 :=
    mul_neg_of_neg_of_pos (sub_neg.mpr hslow) hahead
  exact Interval.computes_of_higher hdescent (higher_tilted h habove)

include hftol

theorem computes_plain (hfar : b.interval.Far line p)
    (hsteep : here.f ≤ line.testValue p here.stp → p.gtol * |line.slope| < |here.dg|)
    (htilts : b.tilts line p here = false)
    (hrest : Interval.trialCase b.interval.best here = .steeper → b.interval.bracketed = true →
      b.interval.other.f < here.f → 4 * p.ftol ≤ p.gtol) :
    b.interval.Computes here := by
  have hgtol : 0 ≤ p.gtol := le_of_lt (lt_trans hftol hless)
  have hfall : line.testSlope p ≤ 0 := le_of_lt (mul_neg_of_pos_of_neg hftol hslope)
  have hdescent := h.toward_step hadmits
  have hbest := h.low.dg_ne_zero hgtol
  by_cases hvalue : b.interval.best.f < here.f
  · exact Interval.computes_of_higher hdescent hvalue
  by_cases hsign : Interval.signedSlope b.interval.best here < 0
  · exact Interval.computes_of_opposite hdescent hvalue
      ((Interval.signedSlope_neg_iff hbest).mp hsign)
  by_cases hflat : |here.dg| < |b.interval.best.dg|
  · exact Interval.computes_of_flatter hdescent hvalue hsign hflat
  refine Interval.computes_of_steeper hdescent hvalue hsign hflat fun hbracketed => ?_
  have hlow : here.Low line p (b.staysFirst line p here) := by
    refine low_of_le staysFirst_iff h hadmits hfall hsteep (not_lt.mp hvalue) fun hstays => ?_
    by_contra habove
    rw [tilts_iff.mpr ⟨hstays, not_lt.mp hvalue, not_le.mp habove⟩] at htilts
    cases htilts
  have hsame : 0 < here.dg * b.interval.best.dg := by
    rw [Interval.signedSlope_neg_iff hbest, not_lt] at hsign
    exact lt_of_le_of_ne hsign (Ne.symm (mul_ne_zero (hlow.dg_ne_zero hgtol) hbest))
  obtain ⟨hmin, hmax⟩ := hadmits.inside hbracketed
  have hway := mul_neg_of_same_sign (Interval.mul_rest_neg hdescent hmin hmax) hsame
  exact ⟨hway, slow_to_far hfar hbracketed (not_lt.mp hvalue) hlow (le_of_lt hftol) hway
    (hrest (Interval.trialCase_of_steeper hvalue hsign hflat) hbracketed)⟩

end

end Bracket

/-! ### Whole searches -/

section

variable [Spaced ℝ] (hnear : ∀ a : ℝ, Spaced.near p.ulps a a = true) (hftol : 0 < p.ftol)
  (hless : p.ftol < p.gtol) (hslope : line.slope < 0)

include hftol hless hslope

theorem Verdict.computes_of {b : Bracket ℝ} {t : Trial ℝ n} {q : Query ℝ}
    (h : b.Closing line p t.stp) (hfar : b.interval.Far line p)
    (hquery : Verdict.query? line p (.interpolating b) t = some q)
    (hrest : q.Exposed → 4 * p.ftol ≤ p.gtol) : q.interval.Computes q.trial := by
  unfold query? at hquery
  split at hquery
  · rename_i b' b'' stp' hphase hverdict
    cases hphase
    dsimp only at hquery
    cases continues_of hverdict with
    | interpolates finite steep inside before_end stage_iff tilted_iff =>
      have hadmits : b.interval.Admits (line.endpoint t).stp := h.admits inside
      have hsteep : t.eval.f ≤ line.testValue p t.stp →
          p.gtol * |line.slope| < |dot t.eval.g line.d| := by
        intro hdecrease
        rw [abs_of_neg hslope]
        exact not_le.mp (steep hdecrease)
      cases htilts : b.tilts line p (line.endpoint t) with
      | true =>
        rw [htilts] at hquery
        cases hquery
        exact b.computes_tilted h.kept hadmits hless hslope htilts
      | false =>
        rw [htilts] at hquery
        cases hquery
        exact b.computes_plain h.kept hadmits hftol hless hslope hfar hsteep htilts
          fun hcase hbracketed hlower => hrest ⟨hcase, hbracketed, hlower⟩
  · cases hquery

include hnear

theorem Verdict.far_of {phase phase' : Phase ℝ} {t : Trial ℝ n} {stp' : ℝ}
    (h : ∀ b, phase = .interpolating b → b.Closing line p t.stp ∧ b.interval.Far line p)
    (hnext : Verdict.of line p phase t = .next phase' stp') :
    ∀ b, phase' = .interpolating b → b.Closing line p stp' ∧ b.interval.Far line p := by
  have hclosing := Verdict.closing_of hnear hftol hless hslope (fun b hb => (h b hb).1) hnext
  refine fun b hb => ⟨hclosing b hb, ?_⟩
  cases continues_of hnext with
  | backtracks => cases hb
  | @interpolates b finite steep inside before_end stage1 tilted stage_iff tilted_iff =>
    obtain ⟨hb', hfar⟩ := h b rfl
    cases hb
    rw [Bracket.interval_update]
    exact Bracket.far_interpolate hb'.kept hfar fun htilted => (tilted_iff.mp htilted).2.2

end

namespace Search

variable [Spaced ℝ]

/-- Every call for a safeguarded step computes, and among values that may be infinite it gives the
same step, unless it is exposed and the constants are close. -/
theorem computes_of_mem_queries (hnear : ∀ a : ℝ, Spaced.near p.ulps a a = true)
    (hftol : 0 < p.ftol) (hless : p.ftol < p.gtol) (hgtol : p.gtol < 1) (hmax : 0 < line.stpmax)
    {stp : ℝ} (hstp : 0 < stp) (objective : Objective ℝ n) (calls : Nat) :
    ∀ q ∈ queries line p objective calls stp, (q.Exposed → 4 * p.ftol ≤ p.gtol) →
      (∀ r ∈ q.interval.radicands q.trial, 0 ≤ r) ∧
        (∀ s ∈ q.interval.divisors q.trial, s ≠ 0) ∧
        q.interval.toExtended.nextStep q.trial.toExtended (.finite q.lo) (.finite q.hi) =
          .finite q.step := by
  intro q hq hrest
  obtain ⟨i, ⟨phase, s⟩, hstage, hquery⟩ := mem_queries.mp hq
  have hst : ⟨phase, s⟩ ∈ stagesOf line p objective calls stp := List.mem_of_getElem? hstage
  have hslope := slope_of_mem_stagesOf hst
  have hbegin : ∀ b, Phase.interpolating (Bracket.begin line stp) = .interpolating b →
      b.Closing line p (Scalar.smaller stp line.stpmax) ∧ b.interval.Far line p := by
    rintro _ ⟨⟩
    rw [Scalar.smaller_real]
    exact ⟨Bracket.closing_begin hgtol hslope hmax hstp, nofun⟩
  rw [stagesOf_of_descent hslope] at hst
  have hkept := (stages_invariant
    (fun phase s => ∀ b, phase = .interpolating b →
      b.Closing line p s ∧ b.interval.Far line p) (fun _ _ => True)
    (fun _ _ _ _ _ h hnext => ⟨Verdict.far_of hnear hftol hless hslope h hnext, True.intro⟩)
    hbegin).1 _ hst
  cases phase with
  | interpolating b =>
    obtain ⟨hclosing, hfar⟩ := hkept b rfl
    have hcomputes := Verdict.computes_of hftol hless hslope hclosing hfar hquery hrest
    exact ⟨hcomputes.radicands, hcomputes.divisors, Interval.nextStep_toExtended hcomputes⟩
  | backtracking a => cases hquery

end Search

end

/-! ### An end that lies lower -/

noncomputable def dip (t : ℝ) : ℝ := -t - 33 / 16 * t ^ 2 + 11 / 2 * t ^ 3 - 3 * t ^ 4

noncomputable def dipSlope (t : ℝ) : ℝ := -1 - 33 / 8 * t + 33 / 2 * t ^ 2 - 12 * t ^ 3

noncomputable def dipping : Objective ℝ 1 := fun _ x => (dip x.head, #[dipSlope x.head])

noncomputable def dippingLine : Line ℝ 1 :=
  { box := .unbounded 1, x := #v[0], d := #v[1], f0 := 0, slope := -1, stpmax := 1e10 }

/-- Constants that are close to each other. -/
noncomputable def closeParams : SearchParams ℝ :=
  { ulps := 4, maxEvals := 20, ftol := 5 / 8, gtol := 3 / 4, xtol := 1 / 10 }

theorem constants_close : 0 < closeParams.ftol ∧ closeParams.ftol < closeParams.gtol ∧
    closeParams.gtol < 1 ∧ 0 < closeParams.xtol := by
  norm_num [closeParams]

theorem stpmax_pos_dipping : 0 < dippingLine.stpmax := by norm_num [dippingLine]

section

variable {k : Nat} {stp : ℝ}

theorem endpoint_dipping : dippingLine.endpoint (dippingLine.trial dipping k stp) =
    { stp := stp, f := dip stp, dg := dipSlope stp } := by
  have hpoint : dippingLine.point stp = #v[stp] := by
    rw [Line.point, dippingLine, Box.project_of_contains (Box.contains_unbounded _)]
    apply eq_of_one_variable
    show 0 + stp * 1 = stp
    rw [zero_add, mul_one]
  have heval : (dippingLine.trial dipping k stp).eval = dipping.eval k #v[stp] := by
    rw [← hpoint]
    rfl
  have hdg : dot (dipping.eval k #v[stp]).g dippingLine.d = dipSlope stp :=
    (dot_singleton _ 1).trans (mul_one _)
  rw [Line.endpoint, heval, hdg]
  rfl

theorem isFinite_dipping (x : Vector ℝ 1) : (dipping.eval k x).isFinite = true :=
  (Evaluation.isFinite_real _).trans rfl

end

/-- The points the search reaches first. -/
noncomputable def dipStart : Endpoint ℝ := { stp := 0, f := 0, dg := -1 }

noncomputable def dipFar : Endpoint ℝ := { stp := 1, f := -9 / 16, dg := -5 / 8 }

noncomputable def dipNear : Endpoint ℝ := { stp := 1 / 4, f := -39 / 128, dg := -19 / 16 }

theorem endpoint_far {k : Nat} : dippingLine.endpoint (dippingLine.trial dipping k 1) = dipFar := by
  rw [endpoint_dipping, dipFar]
  norm_num [dip, dipSlope]

theorem endpoint_near {k : Nat} :
    dippingLine.endpoint (dippingLine.trial dipping k (1 / 4)) = dipNear := by
  rw [endpoint_dipping, dipNear]
  norm_num [dip, dipSlope]

theorem above_far : dippingLine.testValue closeParams dipFar.stp < dipFar.f := by
  norm_num [Line.testValue, Line.testSlope, dippingLine, closeParams, dipFar]

/-- The first trial lies above the line of sufficient decrease, which is removed. -/
theorem tilts_far : (Bracket.begin dippingLine 1).tilts dippingLine closeParams dipFar = true := by
  have hbelow : (-9 / 16 : ℝ) ≤ 0 := by norm_num
  rw [Bracket.tilts_iff, Bracket.staysFirst_iff]
  exact ⟨⟨rfl, fun h => absurd h.1 (not_le.mpr above_far)⟩, hbelow, above_far⟩

theorem step_far : ((Bracket.begin dippingLine 1).query (dippingLine.testSlope closeParams) true
    dipFar).step = 1 / 4 := by
  have hslope : dippingLine.testSlope closeParams = -5 / 8 := by
    norm_num [Line.testSlope, dippingLine, closeParams]
  have hbest : dipStart.lower (-5 / 8) = { stp := 0, f := 0, dg := -3 / 8 } := by
    norm_num [Endpoint.lower, dipStart]
  have htrial : dipFar.lower (-5 / 8) = { stp := 1, f := 1 / 16, dg := 0 } := by
    norm_num [Endpoint.lower, dipFar]
  have hroot : Cubic.root (-9 / 16 : ℝ) (-3 / 8) 0 = 9 / 16 := by
    have hsquare : (-9 / 16 : ℝ) ^ 2 - -3 / 8 * 0 = (9 / 16) ^ 2 := by norm_num
    rw [Cubic.root_real (by norm_num), hsquare, Real.sqrt_sq (by norm_num)]
  have hw : Cubic.weight (0 - 1 / 16 : ℝ) (1 - 0) (-3 / 8) 0 = -9 / 16 := by
    rw [Cubic.weight_real]
    norm_num
  rw [hslope]
  show Interval.nextStep ⟨dipStart.lower (-5 / 8), dipStart.lower (-5 / 8), false⟩
    (dipFar.lower (-5 / 8)) _ _ = 1 / 4
  rw [hbest, htrial, Interval.nextStep, Interval.trialCase_of_higher (by norm_num)]
  simp only [Interval.stepHigher]
  rw [hw, hroot, if_neg (not_lt.mpr zero_le_one)]
  refine (if_pos ?_).trans ?_
  · show |_| < |_|
    norm_num
  · norm_num

theorem kept_begin : (Bracket.begin dippingLine 1).interval.Kept dippingLine closeParams true := by
  have hslope : dippingLine.slope < 0 := by norm_num [dippingLine]
  obtain ⟨-, -, hgtol, -⟩ := constants_close
  exact (Bracket.closing_begin hgtol hslope stpmax_pos_dipping one_pos).kept

theorem interpolate_far :
    (Bracket.begin dippingLine 1).interpolate (dippingLine.testSlope closeParams) true dipFar =
      ({ best := dipStart, other := dipFar, bracketed := true }, 1 / 4) := by
  refine Prod.ext (Bracket.absorb_tilted kept_begin above_far) ?_
  rw [Bracket.interpolate_snd, step_far]

/-- The second trial has sufficient decrease and is too steep. -/
theorem steep_near : ¬|dipNear.dg| ≤ closeParams.gtol * -dippingLine.slope := by
  norm_num [closeParams, dippingLine, dipNear]

theorem tilts_near {b : Bracket ℝ} : b.tilts dippingLine closeParams dipNear = false := by
  have hbelow : dipNear.f ≤ dippingLine.testValue closeParams dipNear.stp := by
    norm_num [Line.testValue, Line.testSlope, dippingLine, closeParams, dipNear]
  rw [← Bool.not_eq_true, Bracket.tilts_iff]
  exact fun h => absurd h.2.2 (not_lt.mpr hbelow)

theorem inside_near {b : Bracket ℝ} (hmin : b.stmin = 0) (hmax : b.stmax = 1) :
    ¬dipNear.stp ≤ b.stmin ∧ ¬b.stmax ≤ dipNear.stp ∧
      ¬b.stmax - b.stmin ≤ closeParams.xtol * b.stmax := by
  rw [hmin, hmax]
  norm_num [dipNear, closeParams]

section

variable [Spaced ℝ] {k : Nat}

/-- The first trial is the far end of a bracket. -/
theorem next_far (hnear : Spaced.near closeParams.ulps 1 dippingLine.stpmax = false) :
    ∃ b, Verdict.of dippingLine closeParams (.interpolating (Bracket.begin dippingLine 1))
        (dippingLine.trial dipping k 1) = .next (.interpolating b) (1 / 4) ∧
      b.interval = { best := dipStart, other := dipFar, bracketed := true } ∧
      b.stmin = 0 ∧ b.stmax = 1 := by
  let t := dippingLine.trial dipping k 1
  let first := Bracket.begin dippingLine 1
  have hhere : dippingLine.endpoint t = dipFar := endpoint_far
  have hvalue : t.eval.f = dipFar.f := congrArg Endpoint.f hhere
  have hverdict := Verdict.of_inside (b := first) (t := t) (isFinite_dipping _)
    (fun h => absurd h.1 (not_le.mpr (lt_of_lt_of_eq above_far hvalue.symm))) nofun hnear
  dsimp only at hverdict
  rw [hhere, tilts_far] at hverdict
  obtain ⟨c, hc, hinterval, hmin, hmax, hnext⟩ := Bracket.update_of_bracketed interpolate_far rfl
    (first.staysFirst dippingLine closeParams dipFar)
  have hwide : ¬0.66 * first.lastWidth ≤
      ({ best := dipStart, other := dipFar, bracketed := true } : Interval ℝ).width := by
    show ¬0.66 * (2.0 * 1e10) ≤ |(1 : ℝ) - 0|
    norm_num
  rw [if_neg hwide] at hc
  have hstmin : Scalar.smaller dipStart.stp dipFar.stp = 0 := by
    rw [Scalar.smaller_real]
    exact min_eq_left zero_le_one
  have hstmax : Scalar.larger dipStart.stp dipFar.stp = 1 := by
    rw [Scalar.larger_real]
    exact max_eq_right zero_le_one
  have hstep : Scalar.smaller (Scalar.larger c 0) dippingLine.stpmax = 1 / 4 := by
    rw [hc, Scalar.larger_real, Scalar.smaller_real]
    norm_num [dippingLine]
  have hroom : Bracket.noRoom closeParams 0 1 (1 / 4) = false := by
    rw [Bracket.noRoom_eq_false_iff]
    norm_num [closeParams]
  rw [hmin, hmax, hstmin, hstmax, hstep, hroom, if_neg Bool.false_ne_true] at hnext
  exact ⟨_, hnext ▸ hverdict, hinterval, hmin.trans hstmin, hmax.trans hstmax⟩

/-- The second trial asks for a step that is no number. -/
theorem query_near (hnear : Spaced.near closeParams.ulps (1 / 4) dippingLine.stpmax = false)
    {b : Bracket ℝ} (hmin : b.stmin = 0) (hmax : b.stmax = 1) :
    Verdict.query? dippingLine closeParams (.interpolating b)
        (dippingLine.trial dipping k (1 / 4)) =
      some { interval := b.interval, trial := dipNear, lo := 0, hi := 1 } := by
  let t := dippingLine.trial dipping k (1 / 4)
  have hhere : dippingLine.endpoint t = dipNear := endpoint_near
  have hdg : dot t.eval.g dippingLine.d = dipNear.dg := congrArg Endpoint.dg hhere
  have hverdict := Verdict.of_inside (b := b) (t := t) (isFinite_dipping _)
    (fun h => steep_near (by rw [← hdg]; exact h.2)) (fun _ => inside_near hmin hmax) hnear
  rw [Verdict.query?_of_inside ⟨_, _, hverdict⟩, hhere, tilts_near, ← hmin, ← hmax]
  rfl

/-- The first two stages. -/
theorem stages_dipping (hnear : Spaced.near closeParams.ulps 1 dippingLine.stpmax = false) :
    ∃ b, (Search.stagesOf dippingLine closeParams dipping 1 1)[0]? =
        some ⟨.interpolating (Bracket.begin dippingLine 1), 1⟩ ∧
      (Search.stagesOf dippingLine closeParams dipping 1 1)[1]? =
        some ⟨.interpolating b, 1 / 4⟩ ∧
      b.interval = { best := dipStart, other := dipFar, bracketed := true } ∧
      b.stmin = 0 ∧ b.stmax = 1 := by
  obtain ⟨b, hnext, hb⟩ := next_far (k := 2) hnear
  have hslope : dippingLine.slope < 0 := by norm_num [dippingLine]
  have hfirst : Scalar.smaller 1 dippingLine.stpmax = 1 := by
    rw [Scalar.smaller_real]
    norm_num [dippingLine]
  have hevals : closeParams.maxEvals = 18 + 2 := rfl
  refine ⟨b, ?_, ?_, hb⟩
  · rw [Search.stagesOf_of_descent hslope, hfirst, hevals, Search.stages]
    rfl
  · rw [Search.stagesOf_of_descent hslope, hfirst, hevals, Search.stages, hnext]
    rfl

end

/-- The second trial meets the fourth case. -/
theorem trialCase_near : Interval.trialCase dipStart dipNear = .steeper := by
  have hdg : dipStart.dg ≠ 0 := by norm_num [dipStart]
  refine Interval.trialCase_of_steeper ?_ ?_ ?_
  · show ¬(0 : ℝ) < -39 / 128
    norm_num
  · rw [Interval.signedSlope_neg_iff hdg]
    norm_num [dipStart, dipNear]
  · show ¬|(-19 / 16 : ℝ)| < |-1|
    norm_num

/-- The cubic through the second trial and the first has no minimizer. -/
theorem discriminant_near : Cubic.discriminant
    (Cubic.weight (dipNear.f - dipFar.f) (dipFar.stp - dipNear.stp) dipFar.dg dipNear.dg)
    dipFar.dg dipNear.dg < 0 := by
  have hdg : dipFar.dg ≠ 0 := by norm_num [dipFar]
  rw [← not_le, Cubic.discriminant_nonneg_iff hdg, Cubic.weight_real]
  norm_num [dipFar, dipNear]

namespace Search

/-- The first call of a search with close constants leads a quarter of the way. -/
theorem computes_of_mem_queries_of_dipping :
    let _ : Spaced ℝ := ⟨fun _ a b => decide (a = b)⟩
    (∀ a : ℝ, Spaced.near closeParams.ulps a a = true) ∧ 0 < closeParams.ftol ∧
      closeParams.ftol < closeParams.gtol ∧ closeParams.gtol < 1 ∧ 0 < dippingLine.stpmax ∧
      (0 : ℝ) < 1 ∧
      ∃ q ∈ queries dippingLine closeParams dipping 1 1, ¬q.Exposed ∧
        (∀ r ∈ q.interval.radicands q.trial, 0 ≤ r) ∧
        (∀ s ∈ q.interval.divisors q.trial, s ≠ 0) ∧
        q.interval.toExtended.nextStep q.trial.toExtended (.finite q.lo) (.finite q.hi) =
          .finite (1 / 4) := by
  intro spaced
  have hequal : ∀ a : ℝ, Spaced.near closeParams.ulps a a = true := fun _ => decide_eq_true rfl
  have hfar : Spaced.near closeParams.ulps 1 dippingLine.stpmax = false := by
    apply decide_eq_false
    norm_num [dippingLine]
  obtain ⟨hftol, hless, hgtol, -⟩ := constants_close
  obtain ⟨b, hstage, -⟩ := stages_dipping hfar
  obtain ⟨b', hnext, -⟩ := next_far (k := 1 + 1 + 0) hfar
  have hquery := Verdict.query?_of_inside ⟨b', 1 / 4, hnext⟩
  rw [endpoint_far, tilts_far] at hquery
  have hmem := mem_queries.mpr ⟨0, _, hstage, hquery⟩
  have hplain : ¬((Bracket.begin dippingLine 1).query (dippingLine.testSlope closeParams) true
      dipFar).Exposed := fun hexposed => Bool.false_ne_true hexposed.2.1
  obtain ⟨hradicands, hdivisors, hstep⟩ := computes_of_mem_queries hequal hftol hless hgtol
    stpmax_pos_dipping one_pos dipping 1 _ hmem fun hexposed => absurd hexposed hplain
  rw [step_far] at hstep
  exact ⟨hequal, hftol, hless, hgtol, stpmax_pos_dipping, one_pos, _, hmem, hplain, hradicands,
    hdivisors, hstep⟩

/-- The second call takes the square root of a negative number. -/
theorem queries_take_negative_root :
    let _ : Spaced ℝ := ⟨fun _ a b => decide (a = b)⟩
    (∀ a : ℝ, Spaced.near closeParams.ulps a a = true) ∧ 0 < closeParams.ftol ∧
      closeParams.ftol < closeParams.gtol ∧ closeParams.gtol < 1 ∧ 0 < closeParams.xtol ∧
      0 < dippingLine.stpmax ∧ (∀ k x, (dipping.eval k x).isFinite = true) ∧
      ∃ q ∈ queries dippingLine closeParams dipping 1 1,
        (∃ r ∈ q.interval.radicands q.trial, r < 0) ∧
          q.interval.toExtended.nextStep q.trial.toExtended (.finite q.lo) (.finite q.hi) =
            .undefined := by
  intro spaced
  have hfar : Spaced.near closeParams.ulps 1 dippingLine.stpmax = false := by
    apply decide_eq_false
    norm_num [dippingLine]
  have hnear : Spaced.near closeParams.ulps (1 / 4) dippingLine.stpmax = false := by
    apply decide_eq_false
    norm_num [dippingLine]
  obtain ⟨b, -, hstage, hinterval, hmin, hmax⟩ := stages_dipping hfar
  have hquery := query_near (k := 1 + 1 + 1) hnear hmin hmax
  rw [hinterval] at hquery
  obtain ⟨hftol, hless, hgtol, hxtol⟩ := constants_close
  refine ⟨fun _ => decide_eq_true rfl, hftol, hless, hgtol, hxtol, stpmax_pos_dipping,
    fun _ => isFinite_dipping, _, mem_queries.mpr ⟨1, _, hstage, hquery⟩, ?_, ?_⟩
  · refine ⟨_, ?_, discriminant_near⟩
    simp only [Interval.radicands, trialCase_near, if_true, List.mem_singleton]
  · have hdg : dipStart.dg ≠ 0 := by norm_num [dipStart]
    have hgap : dipFar.stp - dipNear.stp ≠ 0 := by norm_num [dipFar, dipNear]
    exact Interval.nextStep_undefined hdg trialCase_near rfl hgap discriminant_near

end Search

end BoxDescent
