import BoxDescent.Scalar

/-!
# Safeguarded steps

A line search keeps the point with the lowest value so far and a second point.  From
these and a new trial point the next step is taken by cubic and quadratic
interpolation, in four cases that differ in what the trial tells about the place of a
minimum.  The order of operations in every formula is fixed.
-/

namespace BoxDescent

/-- A point on the search line with its value and directional derivative. -/
structure Endpoint (α : Type) where
  stp : α
  f : α
  dg : α
  deriving Repr

/-- The two points a search keeps, and whether a minimum is known to lie between. -/
structure Interval (α : Type) where
  best : Endpoint α
  other : Endpoint α
  bracketed : Bool
  deriving Repr

variable {α : Type} [Scalar α]

/-! ### Interpolation formulas -/

namespace Cubic

/-- The weight in the slope of the cubic with the given drop in value over a gap and
end slopes `d` and `dp`. -/
def weight (drop gap d dp : α) : α := 3.0 * drop / gap + d + dp

def size (w d dp : α) : α :=
  Scalar.larger (Scalar.larger (Scalar.abs w) (Scalar.abs d)) (Scalar.abs dp)

/-- The discriminant of the slope of the cubic, scaled by its size squared. -/
def discriminant (w d dp : α) : α :=
  let s := size w d dp
  (w / s) * (w / s) - (d / s) * (dp / s)

def root (w d dp : α) : α := size w d dp * Scalar.sqrt (discriminant w d dp)

/-- The root of the discriminant, zero where that is negative. -/
def clippedRoot (w d dp : α) : α :=
  size w d dp * Scalar.sqrt (Scalar.larger (discriminant w d dp) 0)

end Cubic

/-- What a trial tells about the place of a minimum. -/
inductive TrialCase
  /-- Its value is higher than the best. -/
  | higher
  /-- Its slope has the opposite sign. -/
  | opposite
  /-- Its slope has the same sign and is smaller. -/
  | flatter
  /-- Its slope has the same sign and is not smaller. -/
  | steeper
  deriving DecidableEq, Repr

namespace Interval

/-- The sign of the product of the slopes at the trial and at the best point, times the
slope at the trial. -/
def signedSlope (best trial : Endpoint α) : α :=
  trial.dg * (best.dg / Scalar.abs best.dg)

/-- The case of a trial. -/
def trialCase (best trial : Endpoint α) : TrialCase :=
  if best.f < trial.f then .higher
  else if signedSlope best trial < 0 then .opposite
  else if Scalar.abs trial.dg < Scalar.abs best.dg then .flatter
  else .steeper

/-- The next step after a higher value. -/
def stepHigher (best trial : Endpoint α) : α :=
  let gap := trial.stp - best.stp
  let w := Cubic.weight (best.f - trial.f) gap best.dg trial.dg
  let root := Cubic.root w best.dg trial.dg
  let gamma := if trial.stp < best.stp then -root else root
  let p := (gamma - best.dg) + w
  let q := ((gamma - best.dg) + gamma) + trial.dg
  let r := p / q
  let cubic := best.stp + r * gap
  let quadratic :=
    best.stp + ((best.dg / ((best.f - trial.f) / gap + best.dg)) / 2.0) * gap
  if Scalar.abs (cubic - best.stp) < Scalar.abs (quadratic - best.stp) then cubic
  else cubic + (quadratic - cubic) / 2.0

/-- The next step after a slope of the opposite sign. -/
def stepOpposite (best trial : Endpoint α) : α :=
  let w := Cubic.weight (best.f - trial.f) (trial.stp - best.stp) best.dg trial.dg
  let root := Cubic.root w best.dg trial.dg
  let gamma := if best.stp < trial.stp then -root else root
  let p := (gamma - trial.dg) + w
  let q := ((gamma - trial.dg) + gamma) + best.dg
  let r := p / q
  let cubic := trial.stp + r * (best.stp - trial.stp)
  let quadratic := trial.stp + (trial.dg / (trial.dg - best.dg)) * (best.stp - trial.stp)
  if Scalar.abs (quadratic - trial.stp) < Scalar.abs (cubic - trial.stp) then cubic
  else quadratic

/-- The next step after a smaller slope of the same sign. -/
def stepFlatter (iv : Interval α) (trial : Endpoint α) (lo hi : α) : α :=
  let best := iv.best
  let w := Cubic.weight (best.f - trial.f) (trial.stp - best.stp) best.dg trial.dg
  let root := Cubic.clippedRoot w best.dg trial.dg
  let gamma := if best.stp < trial.stp then -root else root
  let p := (gamma - trial.dg) + w
  let q := (gamma + (best.dg - trial.dg)) + gamma
  let r := p / q
  let cubic :=
    if r < 0 && !(gamma == 0) then trial.stp + r * (best.stp - trial.stp)
    else if best.stp < trial.stp then hi
    else lo
  let quadratic := trial.stp + (trial.dg / (trial.dg - best.dg)) * (best.stp - trial.stp)
  let cubicGap := Scalar.abs (cubic - trial.stp)
  let quadraticGap := Scalar.abs (quadratic - trial.stp)
  if iv.bracketed then
    let step := if cubicGap < quadraticGap then cubic else quadratic
    let fence := trial.stp + 0.66 * (iv.other.stp - trial.stp)
    if best.stp < trial.stp then Scalar.smaller step fence else Scalar.larger step fence
  else
    let step := if quadraticGap < cubicGap then cubic else quadratic
    Scalar.larger (Scalar.smaller step hi) lo

/-- The next step after a slope of the same sign that is not smaller.  Without a minimizer of
the cubic it is no number. -/
def stepSteeper (iv : Interval α) (trial : Endpoint α) (lo hi : α) : α :=
  let other := iv.other
  if iv.bracketed then
    let gap := other.stp - trial.stp
    let w := Cubic.weight (trial.f - other.f) gap other.dg trial.dg
    let root := Cubic.root w other.dg trial.dg
    let gamma := if other.stp < trial.stp then -root else root
    let p := (gamma - trial.dg) + w
    let q := ((gamma - trial.dg) + gamma) + other.dg
    let r := p / q
    -- a negative discriminant has no root, also where `sqrt` gives some number for it
    if Cubic.discriminant w other.dg trial.dg < 0 then Scalar.nan else trial.stp + r * gap
  else if iv.best.stp < trial.stp then hi
  else lo

/-! ### One step -/

/-- The next step; `lo` and `hi` limit it while no minimum is bracketed. -/
def nextStep (iv : Interval α) (trial : Endpoint α) (lo hi : α) : α :=
  match trialCase iv.best trial with
  | .higher => stepHigher iv.best trial
  | .opposite => stepOpposite iv.best trial
  | .flatter => stepFlatter iv trial lo hi
  | .steeper => stepSteeper iv trial lo hi

/-- The interval after a trial: a higher value or a slope of the opposite sign brackets a
minimum, and the lower of the best point and the trial is kept as the best. -/
def absorb (iv : Interval α) (trial : Endpoint α) : Interval α :=
  match trialCase iv.best trial with
  | .higher => { best := iv.best, other := trial, bracketed := true }
  | .opposite => { best := trial, other := iv.best, bracketed := true }
  | .flatter | .steeper => { iv with best := trial }

/-- The interval with a change made to both points. -/
def mapEnds (change : Endpoint α → Endpoint α) (iv : Interval α) : Interval α :=
  { iv with best := change iv.best, other := change iv.other }

def width (iv : Interval α) : α := Scalar.abs (iv.other.stp - iv.best.stp)

end Interval

namespace Endpoint

/-- The point with the line of the given slope taken away from the function. -/
def lower (slope : α) (e : Endpoint α) : Endpoint α :=
  { stp := e.stp, f := e.f - e.stp * slope, dg := e.dg - slope }

/-- The point with the line of the given slope added to the function. -/
def raise (slope : α) (e : Endpoint α) : Endpoint α :=
  { stp := e.stp, f := e.f + e.stp * slope, dg := e.dg + slope }

end Endpoint

end BoxDescent
