import BoxDescent.LineSearch.Interval
import BoxDescent.LineSearch.Line

/-!
# Verdicts on trials

What follows from one trial of a line search.  It is accepted if it satisfies the strong
Wolfe conditions

    f(x + a d) ≤ f(x) + ftol * a * g · d
    |g(x + a d) · d| ≤ gtol * |g · d|.

Otherwise the next step is found by interpolation in an interval that shrinks around a
minimum.  Where the interval degenerates or a value is not finite, the search
backtracks: it halves the distance to the best point, and a step is accepted as soon as
it has sufficient decrease.
-/

namespace BoxDescent

variable {α : Type} [Scalar α] {n : Nat}

/-! ### Interpolation -/

/-- The state of the interpolation. -/
structure Bracket (α : Type) where
  interval : Interval α
  /-- No trial yet had sufficient decrease and a slope that is not negative. -/
  stage1 : Bool
  stmin : α
  stmax : α
  width : α
  /-- The width before the last trial. -/
  lastWidth : α
  deriving Repr

namespace Bracket

/-- The state before the first trial, with step `stp`. -/
def begin (line : Line α n) (stp : α) : Bracket α :=
  let origin : Endpoint α := { stp := 0, f := line.f0, dg := line.slope }
  { interval := { best := origin, other := origin, bracketed := false }
    stage1 := true
    stmin := 0
    stmax := stp + 4.0 * stp
    width := line.stpmax
    lastWidth := 2.0 * line.stpmax }

/-- The interval after a trial and the step that interpolation proposes.  As long as the
first stage lasts and decrease does not suffice, the function is taken with the line of
sufficient decrease removed. -/
def interpolate (b : Bracket α) (slope : α) (tilted : Bool) (here : Endpoint α) :
    Interval α × α :=
  if tilted then
    let lowered := b.interval.mapEnds (Endpoint.lower slope)
    let here' := here.lower slope
    ((lowered.absorb here').mapEnds (Endpoint.raise slope),
      lowered.nextStep here' b.stmin b.stmax)
  else
    (b.interval.absorb here, b.interval.nextStep here b.stmin b.stmax)

/-- A collapsed interval leaves no room for a step strictly inside. -/
def noRoom (p : SearchParams α) (stmin stmax stp : α) : Bool :=
  decide (stp ≤ stmin) || decide (stmax ≤ stp) || decide (stmax - stmin ≤ p.xtol * stmax)

/-- The state after a trial that was not accepted, and the next step.  A bracket that
has not shrunk enough is halved; without a bracket the steps grow. -/
def update (line : Line α n) (p : SearchParams α) (b : Bracket α) (stage1 tilted : Bool)
    (here : Endpoint α) : Bracket α × α :=
  let found := b.interpolate (line.testSlope p) tilted here
  let interval := found.1
  let proposed := found.2
  let best := interval.best.stp
  let other := interval.other.stp
  if interval.bracketed then
    let stp :=
      if 0.66 * b.lastWidth ≤ interval.width then best + 0.5 * (other - best) else proposed
    let stmin := Scalar.smaller best other
    let stmax := Scalar.larger best other
    let stp := Scalar.smaller (Scalar.larger stp 0) line.stpmax
    ({ interval := interval
       stage1 := stage1
       stmin := stmin
       stmax := stmax
       width := interval.width
       lastWidth := b.width },
      if noRoom p stmin stmax stp then best else stp)
  else
    ({ interval := interval
       stage1 := stage1
       stmin := proposed + 1.1 * (proposed - best)
       stmax := proposed + 4.0 * (proposed - best)
       width := b.width
       lastWidth := b.lastWidth },
      Scalar.smaller (Scalar.larger proposed 0) line.stpmax)

end Bracket

/-! ### Judging a trial -/

/-- Why a trial was accepted. -/
inductive Acceptance
  /-- Both Wolfe conditions hold. -/
  | wolfe
  /-- The interval cannot shrink further, and the value is not above the start: it shows
  rounding, it is too narrow, or the step is the longest one. -/
  | degenerate (rounding narrow atMax : Bool)
  /-- It has sufficient decrease, after backtracking. -/
  | backtracked
  deriving DecidableEq, Repr

/-- The two ways of choosing the next step. -/
inductive Phase (α : Type)
  | interpolating (bracket : Bracket α)
  | backtracking (anchor : α)
  deriving Repr

namespace Phase

/-- The step toward which backtracking goes. -/
def anchor : Phase α → α
  | interpolating b => b.interval.best.stp
  | backtracking a => a

end Phase

/-- The step half way from `stp` to the anchor. -/
def halfway (anchor stp : α) : α := anchor + 0.5 * (stp - anchor)

/-- What follows from a trial. -/
inductive Verdict (α : Type)
  | accept (how : Acceptance)
  | next (phase : Phase α) (stp : α)

namespace Verdict

/-- Backtracking from the step `stp` toward the anchor. -/
def backtrack (anchor stp : α) : Verdict α :=
  .next (.backtracking anchor) (halfway anchor stp)

variable [Spaced α]

/-- The verdict on a finite trial while interpolating. -/
def interpolating (line : Line α n) (p : SearchParams α) (b : Bracket α)
    (here : Endpoint α) : Verdict α :=
  let slope := line.testSlope p
  let ftest := line.testValue p here.stp
  let stage1 := b.stage1 && !(decide (here.f ≤ ftest) && decide (0 ≤ here.dg))
  if here.f ≤ ftest ∧ Scalar.abs here.dg ≤ p.gtol * -line.slope then
    .accept .wolfe
  else
    let bracketed := b.interval.bracketed
    let rounding := bracketed && (decide (here.stp ≤ b.stmin) || decide (b.stmax ≤ here.stp))
    let narrow := bracketed && decide (b.stmax - b.stmin ≤ p.xtol * b.stmax)
    let atMax := Spaced.near p.ulps here.stp line.stpmax
      && decide (here.f ≤ ftest) && decide (here.dg ≤ slope)
    if rounding || narrow || atMax then
      if here.f ≤ line.f0 then
        .accept (.degenerate rounding narrow atMax)
      else
        backtrack b.interval.best.stp here.stp
    else
      let tilted := stage1 && decide (here.f ≤ b.interval.best.f) && decide (ftest < here.f)
      let found := b.update line p stage1 tilted here
      .next (.interpolating found.1) found.2

/-- The verdict on a trial. -/
def of (line : Line α n) (p : SearchParams α) (phase : Phase α) (t : Trial α n) :
    Verdict α :=
  if t.eval.isFinite then
    match phase with
    | .backtracking a =>
      if t.eval.f ≤ line.testValue p t.stp then .accept .backtracked
      else backtrack a t.stp
    | .interpolating b =>
      interpolating line p b { stp := t.stp, f := t.eval.f, dg := dot t.eval.g line.d }
  else
    backtrack phase.anchor t.stp

end Verdict

end BoxDescent
