import BoxDescent.Proofs.LineSearch.Embedding
import BoxDescent.Proofs.LineSearch.Queries

/-!
# Brackets that shrink, in exact arithmetic with infinities

A search with finite data whose answers may be infinite or no number.  A safeguarded step may fail
to be a number as well; a bracket then goes on from its best point.  So while it interpolates a
search has finite values only, and they are those of a bracket that shrinks.
-/

namespace BoxDescent

open Extended

variable {n : Nat}

/-! ### One trial -/

def Bracket.toExtended (b : Bracket ℝ) : Bracket Extended where
  interval := b.interval.toExtended
  stage1 := b.stage1
  stmin := .finite b.stmin
  stmax := .finite b.stmax
  width := .finite b.width
  lastWidth := .finite b.lastWidth

namespace Extended

theorem larger_undefined (a : Extended) : Scalar.larger undefined a = a := by
  have hself : (undefined == undefined) = false := decide_eq_false id
  rw [Scalar.larger, if_neg (show ¬undefined < a from id), hself, if_neg Bool.false_ne_true]

theorem smaller_top (r : ℝ) : Scalar.smaller top (finite r) = finite r :=
  if_pos (show finite r < top from True.intro)

/-- Whatever is moved into a finite range is finite. -/
theorem exists_clamped (a : Extended) (lo hi : ℝ) :
    ∃ r, Scalar.smaller (Scalar.larger a (finite lo)) (finite hi) = finite r := by
  cases a with
  | finite r => exact ⟨min (max r lo) hi, by rw [finite_larger, finite_smaller]⟩
  | top =>
    have hself : (top == top) = true := decide_eq_true True.intro
    refine ⟨hi, ?_⟩
    rw [Scalar.larger, if_neg (show ¬top < finite lo from id), hself, if_pos rfl, smaller_top]
  | bottom =>
    refine ⟨min lo hi, ?_⟩
    rw [Scalar.larger, if_pos (show bottom < finite lo from True.intro), finite_smaller]
  | undefined => exact ⟨min lo hi, by rw [larger_undefined, finite_smaller]⟩

end Extended

theorem Interval.absorb_toExtended {iv : Interval ℝ} {here : Endpoint ℝ} (hdg : iv.best.dg ≠ 0) :
    iv.toExtended.absorb here.toExtended = (iv.absorb here).toExtended := by
  have hsame : trialCase iv.toExtended.best here.toExtended = trialCase iv.best here :=
    trialCase_toExtended hdg
  unfold absorb
  rw [hsame]
  cases trialCase iv.best here <;> rfl

variable {line : Line ℝ n} {p : SearchParams ℝ}

namespace Bracket

/-- The bracket between the ends of an interval. -/
noncomputable def closedOn (b : Bracket ℝ) (iv : Interval ℝ) (stage1 : Bool) : Bracket ℝ where
  interval := iv
  stage1 := stage1
  stmin := min iv.best.stp iv.other.stp
  stmax := max iv.best.stp iv.other.stp
  width := iv.width
  lastWidth := b.width

theorem noRoom_toExtended (lo hi s : ℝ) :
    noRoom p.toExtended (.finite lo) (.finite hi) (.finite s) = noRoom p lo hi s := by
  have hlo : decide (finite s ≤ finite lo) = decide (s ≤ lo) := decide_eq_decide.mpr Iff.rfl
  have hhi : decide (finite hi ≤ finite s) = decide (hi ≤ s) := decide_eq_decide.mpr Iff.rfl
  have hwidth : decide (finite hi - finite lo ≤ finite p.xtol * finite hi) =
      decide (hi - lo ≤ p.xtol * hi) := decide_eq_decide.mpr Iff.rfl
  show (decide (finite s ≤ finite lo) || decide (finite hi ≤ finite s) ||
    decide (finite hi - finite lo ≤ finite p.xtol * finite hi)) = _
  rw [hlo, hhi, hwidth]
  rfl

section

variable {b : Bracket ℝ} {here : Endpoint ℝ} {tilted : Bool}

theorem interpolate_toExtended (hdg : b.interval.best.dg ≠ 0)
    (htilted : tilted = true → b.interval.best.dg - line.testSlope p ≠ 0) :
    (b.toExtended.interpolate (line.toExtended.testSlope p.toExtended) tilted here.toExtended).1 =
      (b.interpolate (line.testSlope p) tilted here).1.toExtended := by
  cases tilted with
  | true =>
    let lowered := b.interval.mapEnds (Endpoint.lower (line.testSlope p))
    let here' := here.lower (line.testSlope p)
    have habsorb : lowered.toExtended.absorb here'.toExtended = (lowered.absorb here').toExtended :=
      Interval.absorb_toExtended (htilted rfl)
    exact congrArg (Interval.mapEnds (Endpoint.raise (finite (line.testSlope p)))) habsorb
  | false => exact Interval.absorb_toExtended hdg

/-- A bracket goes on with finite values, whatever step is proposed. -/
theorem update_toExtended_of_bracketed {iv : Interval ℝ} {proposed : Extended}
    (hfound : b.toExtended.interpolate (line.toExtended.testSlope p.toExtended) tilted
      here.toExtended = (iv.toExtended, proposed)) (hbracketed : iv.bracketed = true)
    (stage1 : Bool) {u : ℝ}
    (hu : Scalar.smaller (Scalar.larger
      (if finite (0.66 * b.lastWidth) ≤ finite iv.width then
        finite (iv.best.stp + 0.5 * (iv.other.stp - iv.best.stp)) else proposed) 0)
      (finite line.stpmax) = finite u) :
    let b' := b.closedOn iv stage1
    b.toExtended.update line.toExtended p.toExtended stage1 tilted here.toExtended =
      (b'.toExtended, .finite (if noRoom p b'.stmin b'.stmax u then iv.best.stp else u)) := by
  have hstep : Scalar.smaller (Scalar.larger
      (if 0.66 * b.toExtended.lastWidth ≤ iv.toExtended.width then
        finite iv.best.stp + 0.5 * (finite iv.other.stp - finite iv.best.stp) else proposed) 0)
      line.toExtended.stpmax = finite u := hu
  simp only [update, hfound, hbracketed, if_true, finite_smaller, finite_larger, hstep,
    noRoom_toExtended]
  exact Prod.ext rfl (finite_ite Iff.rfl)

theorem update_toExtended_of_free {iv : Interval ℝ} {proposed : ℝ}
    (hfound : b.toExtended.interpolate (line.toExtended.testSlope p.toExtended) tilted
      here.toExtended = (iv.toExtended, .finite proposed)) (hfree : iv.bracketed = false)
    (stage1 : Bool) :
    let b' : Bracket ℝ :=
      { interval := iv
        stage1 := stage1
        stmin := proposed + 1.1 * (proposed - iv.best.stp)
        stmax := proposed + 4.0 * (proposed - iv.best.stp)
        width := b.width
        lastWidth := b.lastWidth }
    b.toExtended.update line.toExtended p.toExtended stage1 tilted here.toExtended =
      (b'.toExtended, .finite (min (max proposed 0) line.stpmax)) := by
  have hstep : Scalar.smaller (Scalar.larger (finite proposed) 0) line.toExtended.stpmax =
      finite (min (max proposed 0) line.stpmax) := by
    have hzero : (0 : Extended) = finite 0 := rfl
    rw [hzero, finite_larger]
    exact finite_smaller _ _
  simp only [update, hfound, hfree, Bool.false_eq_true, if_false, hstep]
  rfl

end

end Bracket

/-- A phase of interpolation is that of a bracket among finite values, as it is at the start of a
trial with a finite step. -/
def Phase.Closes (line : Line ℝ n) (p : SearchParams ℝ) (phase : Phase Extended) (s : Extended) :
    Prop :=
  ∀ b, phase = .interpolating b →
    ∃ (r : Bracket ℝ) (t : ℝ), b = r.toExtended ∧ s = .finite t ∧ r.Closing line p t

/-- Brackets shrink from one stage of interpolation to the next. -/
def Stage.Narrows {α : Type} [Scalar α] (st st' : Stage α) : Prop :=
  ∀ b b', st.phase = .interpolating b → st'.phase = .interpolating b' → b.Narrows b' st.stp st'.stp

section

variable (hftol : 0 < p.ftol) (hless : p.ftol < p.gtol) (hslope : line.slope < 0)

include hftol hless hslope

/-- A trial that is not accepted leaves a bracket among finite values. -/
theorem Bracket.exists_update {b : Bracket ℝ} {here : Endpoint ℝ} {stage1 tilted : Bool}
    (h : b.Closing line p here.stp) (hadmits : b.interval.Admits here.stp)
    (hsteep : here.f ≤ line.testValue p here.stp → p.gtol * |line.slope| < |here.dg|)
    (hbefore : here.f ≤ line.testValue p here.stp → here.dg ≤ line.testSlope p →
      here.stp ≠ line.stpmax)
    (hstage : stage1 = b.staysFirst line p here) (htilted : tilted = b.tilts line p here) :
    ∃ (b' : Bracket ℝ) (s' : ℝ),
      b.toExtended.update line.toExtended p.toExtended stage1 tilted here.toExtended =
          (b'.toExtended, .finite s') ∧
        b'.Closing line p s' ∧ b.Narrows b' here.stp s' := by
  have hgtol : 0 ≤ p.gtol := le_of_lt (lt_trans hftol hless)
  have hfall : line.testSlope p ≤ 0 := le_of_lt (mul_neg_of_pos_of_neg hftol hslope)
  subst hstage htilted
  have htakes := takes staysFirst_iff h.kept hadmits hfall hsteep hgtol
    (fun hfree => (h.growing hfree).2.2.2) tilts_iff
  have hfirst : b.staysFirst line p here = true → b.stage1 = true := fun hs =>
    (staysFirst_iff.mp hs).1
  have hinterval : (b.toExtended.interpolate (line.toExtended.testSlope p.toExtended)
      (b.tilts line p here) here.toExtended).1 =
        (b.interpolate (line.testSlope p) (b.tilts line p here) here).1.toExtended := by
    refine interpolate_toExtended (h.kept.low.dg_ne_zero hgtol) fun htilts => ?_
    obtain ⟨hstays, -⟩ := tilts_iff.mp htilts
    exact ne_of_lt (sub_neg.mpr (h.kept.low.dg_lt_testSlope (hfirst hstays) hless hslope))
  cases hbracketed : (b.interpolate (line.testSlope p) (b.tilts line p here) here).1.bracketed with
  | true =>
    obtain ⟨u, hu⟩ := exists_clamped _ 0 line.stpmax
    have hupdate := update_toExtended_of_bracketed (Prod.ext hinterval rfl) hbracketed
      (b.staysFirst line p here) hu
    exact ⟨_, _, hupdate,
      h.of_bracketed hadmits htakes hfirst rfl rfl hbracketed rfl rfl inside_or_best⟩
  | false =>
    obtain ⟨hfree, -, -⟩ := htakes.growing hbracketed
    have hplain : b.tilts line p here = false := by
      by_contra htilts
      rw [Bool.not_eq_false] at htilts
      rw [htilts, absorb_tilted h.kept (tilts_iff.mp htilts).2.2] at hbracketed
      cases hbracketed
    have hcomputes : b.interval.Computes here := by
      refine computes_plain h.kept hadmits hftol hless hslope (fun hpair => ?_) hsteep hplain
        fun _ hpair _ => ?_
      all_goals
        rw [hfree] at hpair
        cases hpair
    rw [hplain] at hinterval hbracketed htakes ⊢
    have hnext : (b.toExtended.interpolate (line.toExtended.testSlope p.toExtended) false
        here.toExtended).2 = finite (b.interpolate (line.testSlope p) false here).2 :=
      Interval.nextStep_toExtended hcomputes
    have hupdate := update_toExtended_of_free (Prod.ext hinterval hnext) hbracketed
      (b.staysFirst line p here)
    exact ⟨_, _, hupdate,
      h.of_free hadmits htakes hfirst rfl rfl hless hslope hbefore hbracketed rfl rfl⟩

theorem Verdict.closes_of [Spaced Extended]
    (hnear : ∀ a : ℝ, Spaced.near p.ulps (finite a) (finite a) = true)
    {phase phase' : Phase Extended} {t : Trial Extended n} {stp' : Extended}
    (h : phase.Closes line p t.stp)
    (hnext : Verdict.of line.toExtended p.toExtended phase t = .next phase' stp') :
    phase'.Closes line p stp' ∧ Stage.Narrows ⟨phase, t.stp⟩ ⟨phase', stp'⟩ := by
  cases continues_of hnext with
  | backtracks =>
    refine ⟨fun b hb => ?_, fun b b' _ hb' => ?_⟩
    · cases hb
    · cases hb'
  | @interpolates b hfinite steep inside before_end stage1 tilted stage_iff tilted_iff =>
    obtain ⟨r, s, rfl, hstp, hclosing⟩ := h b rfl
    obtain ⟨here, hhere, rfl⟩ := line.exists_endpoint hstp hfinite
    have hf : t.eval.f = .finite here.f := congrArg Endpoint.f hhere
    have hdg : dot t.eval.g line.toExtended.d = .finite here.dg := congrArg Endpoint.dg hhere
    rw [hstp, hf, hdg] at steep before_end stage_iff
    rw [hstp, hf] at tilted_iff
    rw [hstp] at inside
    have hsteep : here.f ≤ line.testValue p here.stp → p.gtol * |line.slope| < |here.dg| := by
      intro hdecrease
      rw [abs_of_neg hslope]
      exact not_le.mp (steep hdecrease)
    have hbefore : here.f ≤ line.testValue p here.stp → here.dg ≤ line.testSlope p →
        here.stp ≠ line.stpmax := by
      intro hdecrease hslow hend
      exact before_end (hend ▸ hnear here.stp) hdecrease hslow
    have hstage : stage1 = r.staysFirst line p here := by
      rw [Bool.eq_iff_iff, Bracket.staysFirst_iff]
      exact stage_iff
    have htilted : tilted = r.tilts line p here := by
      rw [Bool.eq_iff_iff, Bracket.tilts_iff, ← hstage]
      exact tilted_iff
    obtain ⟨b', s', hupdate, hb', hnarrows⟩ := Bracket.exists_update hftol hless hslope hclosing
      (hclosing.admits inside) hsteep hbefore hstage htilted
    rw [hhere, hupdate, hstp]
    refine ⟨?_, ?_⟩
    · rintro _ ⟨⟩
      exact ⟨b', s', rfl, rfl, hb'⟩
    · rintro _ _ ⟨⟩ ⟨⟩
      exact ⟨hnarrows.stays, hnarrows.grows⟩

end

/-! ### Whole searches -/

namespace Search

variable [Spaced Extended]

/-- While a search interpolates its values are finite, and: the best point has sufficient decrease
and is too steep; without a bracket its slope is negative and the steps grow; a bracket lies on
its descending side, holds the next step, and only shrinks. -/
theorem brackets_shrink (hnear : ∀ a : ℝ, Spaced.near p.ulps (finite a) (finite a) = true)
    (hftol : 0 < p.ftol) (hless : p.ftol < p.gtol) (hgtol : p.gtol < 1) (hslope : line.slope < 0)
    (hmax : 0 < line.stpmax) {stp : ℝ} (hstp : 0 < stp) (objective : Objective Extended n)
    (calls : Nat) :
    let visited := stagesOf line.toExtended p.toExtended objective calls (.finite stp)
    (Search.of line.toExtended p.toExtended objective calls (.finite stp)).trials =
        visited.mapIdx (fun i st => line.toExtended.trial objective (calls + 1 + i) st.stp) ∧
      (∀ b s, ⟨.interpolating b, s⟩ ∈ visited →
        ∃ (r : Bracket ℝ) (t : ℝ), b = r.toExtended ∧ s = .finite t ∧
          let best := r.interval.best
          let other := r.interval.other
          best.f ≤ line.f0 + p.ftol * line.slope * best.stp ∧
            p.gtol * |line.slope| < |best.dg| ∧
            (r.interval.bracketed = false →
              best.dg < 0 ∧ best.stp < t ∧ t ≤ line.stpmax) ∧
            (r.interval.bracketed = true →
              best.dg * (other.stp - best.stp) < 0 ∧
                r.stmin = min best.stp other.stp ∧ r.stmax = max best.stp other.stp ∧
                (r.stmin < t ∧ t < r.stmax ∨ t = best.stp))) ∧
      visited.IsChain Stage.Narrows := by
  intro visited
  have hbegin : (Phase.interpolating (Bracket.begin line.toExtended (finite stp))).Closes line p
      (Scalar.smaller (finite stp) line.toExtended.stpmax) := by
    rintro _ ⟨⟩
    exact ⟨Bracket.begin line stp, min stp line.stpmax, rfl, finite_smaller _ _,
      Bracket.closing_begin hgtol hslope hmax hstp⟩
  have hvisited : visited = _ :=
    stagesOf_of_descent (show line.toExtended.slope < 0 from hslope)
  obtain ⟨hall, hchain⟩ : (∀ st ∈ visited, st.phase.Closes line p st.stp) ∧
      visited.IsChain Stage.Narrows := by
    rw [hvisited]
    exact stages_invariant (Phase.Closes line p) Stage.Narrows
      (fun _ _ _ _ _ h hnext => Verdict.closes_of hftol hless hslope hnear h hnext) hbegin
  refine ⟨trials_of, fun b s hmem => ?_, hchain⟩
  obtain ⟨r, t, hr, ht, hclosing⟩ := hall _ hmem b rfl
  have hlow := hclosing.kept.low
  refine ⟨r, t, hr, ht, ?_, hlow.steep, fun hfree => ?_, fun hbracketed => ?_⟩
  · rw [mul_comm]
    exact hlow.decrease
  · obtain ⟨-, hahead, hle, -⟩ := hclosing.growing hfree
    exact ⟨hlow.falling (hclosing.kept.stage1_of_free hfree), hahead, hle⟩
  · exact ⟨hclosing.kept.toward hbracketed, hclosing.ends hbracketed⟩

end Search

/-! ### A step that is no number -/

namespace Bracket

variable {b : Bracket ℝ} {here : Endpoint ℝ}

theorem staysFirst_toExtended :
    b.toExtended.staysFirst line.toExtended p.toExtended here.toExtended =
      b.staysFirst line p here := by
  rw [Bool.eq_iff_iff, staysFirst_iff, staysFirst_iff]
  rfl

theorem tilts_toExtended : b.toExtended.tilts line.toExtended p.toExtended here.toExtended =
    b.tilts line p here := by
  rw [Bool.eq_iff_iff, tilts_iff, tilts_iff, staysFirst_toExtended]
  rfl

/-- A bracket that has shrunk enough takes the step proposed, moved into the range of steps. -/
theorem update_toExtended_of_narrow {tilted : Bool} {iv : Interval ℝ} {proposed : Extended}
    (hinterval : (b.toExtended.interpolate (line.toExtended.testSlope p.toExtended) tilted
      here.toExtended).1 = iv.toExtended)
    (hproposed : (b.toExtended.interpolate (line.toExtended.testSlope p.toExtended) tilted
      here.toExtended).2 = proposed)
    (hbracketed : iv.bracketed = true) (hnarrow : ¬0.66 * b.lastWidth ≤ iv.width)
    (stage1 : Bool) {u : ℝ}
    (hu : Scalar.smaller (Scalar.larger proposed 0) (finite line.stpmax) = finite u) :
    let b' := b.closedOn iv stage1
    b.toExtended.update line.toExtended p.toExtended stage1 tilted here.toExtended =
      (b'.toExtended, .finite (if noRoom p b'.stmin b'.stmax u then iv.best.stp else u)) := by
  have hnarrow : ¬finite (0.66 * b.lastWidth) ≤ finite iv.width := hnarrow
  refine update_toExtended_of_bracketed (Prod.ext hinterval hproposed) hbracketed stage1 ?_
  rw [if_neg hnarrow]
  exact hu

end Bracket

/-- A finite trial inside the bracket that is not accepted. -/
theorem Verdict.of_inside_toExtended [Spaced Extended] {b : Bracket ℝ} {here : Endpoint ℝ}
    {t : Trial Extended n} (hhere : line.toExtended.endpoint t = here.toExtended)
    (hfinite : t.eval.isFinite = true)
    (hsteep : ¬(here.f ≤ line.testValue p here.stp ∧ |here.dg| ≤ p.gtol * -line.slope))
    (hinside : b.interval.bracketed = true →
      ¬here.stp ≤ b.stmin ∧ ¬b.stmax ≤ here.stp ∧ ¬b.stmax - b.stmin ≤ p.xtol * b.stmax)
    (hbefore : Spaced.near p.ulps (finite here.stp) (finite line.stpmax) = false) :
    let found := b.toExtended.update line.toExtended p.toExtended (b.staysFirst line p here)
      (b.tilts line p here) here.toExtended
    Verdict.of line.toExtended p.toExtended (.interpolating b.toExtended) t =
      .next (.interpolating found.1) found.2 := by
  have hstp : t.stp = .finite here.stp := congrArg Endpoint.stp hhere
  have hf : t.eval.f = .finite here.f := congrArg Endpoint.f hhere
  have hdg : dot t.eval.g line.toExtended.d = .finite here.dg := congrArg Endpoint.dg hhere
  rw [← hstp] at hbefore
  have hsteep' : ¬(t.eval.f ≤ line.toExtended.testValue p.toExtended t.stp ∧
      Scalar.abs (dot t.eval.g line.toExtended.d) ≤
        p.toExtended.gtol * -line.toExtended.slope) := by
    rw [hf, hdg, hstp]
    exact hsteep
  have hinside' : b.toExtended.interval.bracketed = true → ¬t.stp ≤ b.toExtended.stmin ∧
      ¬b.toExtended.stmax ≤ t.stp ∧
      ¬b.toExtended.stmax - b.toExtended.stmin ≤ p.toExtended.xtol * b.toExtended.stmax := by
    rw [hstp]
    exact hinside
  have hverdict := of_inside hfinite hsteep' hinside' hbefore
  dsimp only at hverdict
  rw [hhere, Bracket.staysFirst_toExtended, Bracket.tilts_toExtended] at hverdict
  exact hverdict

section

variable {k : Nat}

theorem endpoint_dipping_toExtended (e : Endpoint ℝ)
    (h : dippingLine.endpoint (dippingLine.trial dipping k e.stp) = e) :
    let t := dippingLine.toExtended.trial dipping.toExtended k (.finite e.stp)
    dippingLine.toExtended.endpoint t = e.toExtended ∧ t.eval.isFinite = true := by
  intro t
  have hsize : (dipping k (dippingLine.point e.stp)).2.size = 1 := rfl
  obtain ⟨hhere, hfinite⟩ := dippingLine.endpoint_toExtended hsize
  rw [h] at hhere
  exact ⟨hhere, hfinite⟩

/-- The bracket after the first trial. -/
noncomputable def dipBracket : Bracket ℝ :=
  let first := Bracket.begin dippingLine 1
  first.closedOn { best := dipStart, other := dipFar, bracketed := true }
    (first.staysFirst dippingLine closeParams dipFar)

/-- The bracket after the second trial. -/
noncomputable def dipNarrowed : Bracket ℝ :=
  dipBracket.closedOn { best := dipNear, other := dipFar, bracketed := true }
    (dipBracket.staysFirst dippingLine closeParams dipNear)

theorem ends_dipBracket : dipBracket.stmin = 0 ∧ dipBracket.stmax = 1 :=
  ⟨min_eq_left zero_le_one, max_eq_right zero_le_one⟩

theorem ends_dipNarrowed : dipNarrowed.stmin = 1 / 4 ∧ dipNarrowed.stmax = 1 := by
  have hle : (1 / 4 : ℝ) ≤ 1 := by norm_num
  exact ⟨min_eq_left hle, max_eq_right hle⟩

theorem update_far :
    let first := Bracket.begin dippingLine 1
    first.toExtended.update dippingLine.toExtended closeParams.toExtended
        (first.staysFirst dippingLine closeParams dipFar)
        (first.tilts dippingLine closeParams dipFar) dipFar.toExtended =
      (dipBracket.toExtended, .finite (1 / 4)) := by
  intro first
  have hslope : dippingLine.slope < 0 := by norm_num [dippingLine]
  obtain ⟨-, hless, -, -⟩ := constants_close
  have hslow := kept_begin.low.dg_lt_testSlope rfl hless hslope
  have hinterval : (first.toExtended.interpolate
      (dippingLine.toExtended.testSlope closeParams.toExtended) true dipFar.toExtended).1 =
        dipBracket.interval.toExtended :=
    (Bracket.interpolate_toExtended (ne_of_lt hslope)
      fun _ => ne_of_lt (sub_neg.mpr hslow)).trans
        (congrArg (fun found => found.1.toExtended) interpolate_far)
  have hadmits : first.interval.Admits dipFar.stp :=
    ⟨fun hbracketed => Bool.noConfusion hbracketed, fun _ => one_pos⟩
  have hcomputes := Bracket.computes_tilted kept_begin hadmits hless hslope tilts_far
  have hproposed : (first.toExtended.interpolate
      (dippingLine.toExtended.testSlope closeParams.toExtended) true dipFar.toExtended).2 =
        finite (1 / 4) :=
    (Interval.nextStep_toExtended hcomputes).trans (congrArg finite step_far)
  have hnarrow : ¬0.66 * first.lastWidth ≤ dipBracket.interval.width := by
    show ¬0.66 * (2.0 * 1e10) ≤ |(1 : ℝ) - 0|
    norm_num
  have hstep : Scalar.smaller (Scalar.larger (finite (1 / 4)) 0) (finite dippingLine.stpmax) =
      finite (1 / 4) := by
    have hzero : (0 : Extended) = finite 0 := rfl
    rw [hzero, finite_larger, finite_smaller]
    norm_num [dippingLine]
  have hroom : Bracket.noRoom closeParams dipBracket.stmin dipBracket.stmax (1 / 4) = false := by
    rw [ends_dipBracket.1, ends_dipBracket.2, Bracket.noRoom_eq_false_iff]
    norm_num [closeParams]
  rw [tilts_far]
  refine (Bracket.update_toExtended_of_narrow hinterval hproposed rfl hnarrow _ hstep).trans ?_
  exact Prod.ext rfl (congrArg finite (if_neg (Bool.eq_false_iff.mp hroom)))

theorem update_near :
    dipBracket.toExtended.update dippingLine.toExtended closeParams.toExtended
        (dipBracket.staysFirst dippingLine closeParams dipNear)
        (dipBracket.tilts dippingLine closeParams dipNear) dipNear.toExtended =
      (dipNarrowed.toExtended, .finite (1 / 4)) := by
  have hdg : dipStart.dg ≠ 0 := by norm_num [dipStart]
  have hgap : dipFar.stp - dipNear.stp ≠ 0 := by norm_num [dipFar, dipNear]
  have habsorb : dipBracket.interval.absorb dipNear = dipNarrowed.interval := by
    show Interval.absorb { best := dipStart, other := dipFar, bracketed := true } dipNear = _
    rw [Interval.absorb, trialCase_near]
    rfl
  have hinterval : (dipBracket.toExtended.interpolate
      (dippingLine.toExtended.testSlope closeParams.toExtended) false dipNear.toExtended).1 =
        dipNarrowed.interval.toExtended :=
    (Interval.absorb_toExtended hdg).trans (congrArg Interval.toExtended habsorb)
  have hproposed : (dipBracket.toExtended.interpolate
      (dippingLine.toExtended.testSlope closeParams.toExtended) false dipNear.toExtended).2 =
        undefined :=
    Interval.nextStep_undefined hdg trialCase_near rfl hgap discriminant_near
  have hnarrow : ¬0.66 * dipBracket.lastWidth ≤ dipNarrowed.interval.width := by
    show ¬0.66 * 1e10 ≤ |(1 : ℝ) - 1 / 4|
    norm_num
  have hstep : Scalar.smaller (Scalar.larger undefined 0) (finite dippingLine.stpmax) =
      finite 0 := by
    rw [larger_undefined]
    refine (finite_smaller 0 _).trans ?_
    norm_num [dippingLine]
  have hroom : Bracket.noRoom closeParams dipNarrowed.stmin dipNarrowed.stmax 0 = true := by
    by_contra hroom
    rw [Bool.not_eq_true, Bracket.noRoom_eq_false_iff, ends_dipNarrowed.1] at hroom
    norm_num at hroom
  rw [tilts_near]
  refine (Bracket.update_toExtended_of_narrow hinterval hproposed rfl hnarrow _ hstep).trans ?_
  exact Prod.ext rfl (congrArg finite (if_pos hroom))

section

variable [Spaced Extended]

theorem next_far_toExtended
    (hfar : Spaced.near closeParams.ulps (finite 1) (finite dippingLine.stpmax) = false) :
    Verdict.of dippingLine.toExtended closeParams.toExtended
        (.interpolating (Bracket.begin dippingLine 1).toExtended)
        (dippingLine.toExtended.trial dipping.toExtended k (finite 1)) =
      .next (.interpolating dipBracket.toExtended) (finite (1 / 4)) := by
  obtain ⟨hhere, hfinite⟩ := endpoint_dipping_toExtended (k := k) dipFar endpoint_far
  have hverdict := Verdict.of_inside_toExtended (b := Bracket.begin dippingLine 1) hhere hfinite
    (fun h => absurd h.1 (not_le.mpr above_far)) nofun hfar
  rw [update_far] at hverdict
  exact hverdict

theorem next_near_toExtended
    (hnear : Spaced.near closeParams.ulps (finite (1 / 4)) (finite dippingLine.stpmax) = false) :
    Verdict.of dippingLine.toExtended closeParams.toExtended
        (.interpolating dipBracket.toExtended)
        (dippingLine.toExtended.trial dipping.toExtended k (finite (1 / 4))) =
      .next (.interpolating dipNarrowed.toExtended) (finite (1 / 4)) := by
  obtain ⟨hhere, hfinite⟩ := endpoint_dipping_toExtended (k := k) dipNear endpoint_near
  have hverdict := Verdict.of_inside_toExtended (b := dipBracket) hhere hfinite
    (fun h => steep_near h.2) (fun _ => inside_near ends_dipBracket.1 ends_dipBracket.2) hnear
  rw [update_near] at hverdict
  exact hverdict

theorem accept_near_toExtended :
    ∃ how, Verdict.of dippingLine.toExtended closeParams.toExtended
        (.interpolating dipNarrowed.toExtended)
        (dippingLine.toExtended.trial dipping.toExtended k (finite (1 / 4))) = .accept how := by
  obtain ⟨hhere, hfinite⟩ := endpoint_dipping_toExtended (k := k) dipNear endpoint_near
  have hvalue : (dippingLine.toExtended.trial dipping.toExtended k (finite dipNear.stp)).eval.f =
      finite dipNear.f := congrArg Endpoint.f hhere
  have hedge : 1 / 4 ≤ dipNarrowed.stmin := ge_of_eq ends_dipNarrowed.1
  have hbelow : dipNear.f ≤ 0 := by norm_num [dipNear]
  refine Verdict.accept_at_edge hfinite rfl hedge ?_
  rw [hvalue]
  exact hbelow

/-- The whole search: the third trial repeats the second one. -/
theorem stages_dipping_toExtended
    (hfar : Spaced.near closeParams.ulps (finite 1) (finite dippingLine.stpmax) = false)
    (hnear : Spaced.near closeParams.ulps (finite (1 / 4)) (finite dippingLine.stpmax) = false) :
    Search.stagesOf dippingLine.toExtended closeParams.toExtended dipping.toExtended 0 (finite 1) =
      [⟨.interpolating (Bracket.begin dippingLine 1).toExtended, finite 1⟩,
        ⟨.interpolating dipBracket.toExtended, finite (1 / 4)⟩,
        ⟨.interpolating dipNarrowed.toExtended, finite (1 / 4)⟩] := by
  have hslope : dippingLine.slope < 0 := by norm_num [dippingLine]
  have hfirst : Scalar.smaller (finite 1) dippingLine.toExtended.stpmax = finite 1 := by
    refine (finite_smaller 1 _).trans ?_
    norm_num [dippingLine]
  have hevals : closeParams.toExtended.maxEvals = 17 + 1 + 1 + 1 := rfl
  obtain ⟨how, haccept⟩ := accept_near_toExtended (k := 3)
  rw [Search.stagesOf_of_descent (show dippingLine.toExtended.slope < 0 from hslope), hfirst,
    hevals]
  refine (Search.stages_of_next (next_far_toExtended hfar)).trans (congrArg _ ?_)
  refine (Search.stages_of_next (next_near_toExtended hnear)).trans (congrArg _ ?_)
  exact Search.stages_of_accept haccept

end

end

namespace Search

/-- The undefined step leads back to the best point, and the bracket shrinks all the same. -/
theorem brackets_shrink_past_undefined :
    let _ : Spaced Extended := ⟨fun _ a b => a == b⟩
    (∀ a : ℝ, Spaced.near closeParams.ulps (finite a) (finite a) = true) ∧ 0 < closeParams.ftol ∧
      closeParams.ftol < closeParams.gtol ∧ closeParams.gtol < 1 ∧ dippingLine.slope < 0 ∧
      0 < dippingLine.stpmax ∧ (0 : ℝ) < 1 ∧
      (Search.of dippingLine.toExtended closeParams.toExtended dipping.toExtended 0
          (finite 1)).trials.map (fun t => t.stp) = [finite 1, finite (1 / 4), finite (1 / 4)] ∧
      dipBracket.toExtended.Narrows dipNarrowed.toExtended (finite (1 / 4)) (finite (1 / 4)) ∧
      dipBracket.stmin = 0 ∧ dipNarrowed.stmin = 1 / 4 ∧ dipNarrowed.stmax = 1 := by
  intro spaced
  have hequal : ∀ a : ℝ, Spaced.near closeParams.ulps (finite a) (finite a) = true := fun _ =>
    beq_iff.mpr rfl
  have hfar : Spaced.near closeParams.ulps (finite 1) (finite dippingLine.stpmax) = false := by
    refine decide_eq_false (show ¬(1 : ℝ) = dippingLine.stpmax from ?_)
    norm_num [dippingLine]
  have hnear : Spaced.near closeParams.ulps (finite (1 / 4)) (finite dippingLine.stpmax) =
      false := by
    refine decide_eq_false (show ¬(1 / 4 : ℝ) = dippingLine.stpmax from ?_)
    norm_num [dippingLine]
  have hslope : dippingLine.slope < 0 := by norm_num [dippingLine]
  obtain ⟨hftol, hless, hgtol, -⟩ := constants_close
  obtain ⟨htrials, -, hchain⟩ := brackets_shrink hequal hftol hless hgtol hslope
    stpmax_pos_dipping one_pos dipping.toExtended 0
  rw [stages_dipping_toExtended hfar hnear] at htrials hchain
  have hnarrows := (List.isChain_cons_cons.mp (List.isChain_cons_cons.mp hchain).2).1 _ _ rfl rfl
  refine ⟨hequal, hftol, hless, hgtol, hslope, stpmax_pos_dipping, one_pos, ?_, hnarrows,
    ends_dipBracket.1, ends_dipNarrowed⟩
  rw [htrials]
  rfl

end Search

end BoxDescent
