import BoxDescent.Cauchy.Path
import BoxDescent.History.Compact

/-!
# Walking along the path

A walk follows the path of steepest descent and stops at the first local minimizer of
the quadratic model

    m(z) = g · (z - x) + 1/2 * (z - x) · B (z - x).

On each straight segment the model is a parabola in the path parameter.  Its slope and
curvature, and the compact products that they need, are carried from one segment to
the next.
-/

namespace BoxDescent

/-- A walk along the path, at the start of a segment. -/
structure Walk (α : Type) (n k : Nat) where
  /-- The path point, in the variables that have stopped; the others still have the
  values with which the path starts. -/
  point : Vector α n
  velocity : Vector α n
  /-- The variables that are on a limit for good. -/
  held : Vector Bool n
  slope : α
  curvature : α
  /-- The least curvature used, a tiny multiple of that of the first segment. -/
  floor : α
  /-- The product of `Wᵀ` with the velocities. -/
  p : Compact α k
  /-- The product of `Wᵀ` with the way from the start of the path. -/
  c : Compact α k
  /-- The time of the last breakpoint. -/
  reached : α
  /-- The lengths of the segments walked, added up. -/
  elapsed : α
  /-- How far ahead the parabola of the segment has its minimum. -/
  ahead : α
  segments : Nat
  /-- The curvature has been raised to its floor on the way. -/
  floored : Bool

namespace Walk

variable {α : Type} [Scalar α] [DenseSolver α] {n cap : Nat}

/-- The distance to the minimum of the parabola of the segment. -/
def minimizer {k : Nat} (w : Walk α n k) : α := -w.slope / w.curvature

def begin (store : Store α n cap) (path : Path α n) : Walk α n store.size :=
  let p := store.wTranspose path.velocity
  let vv := dot path.velocity path.velocity
  let curvature := store.theta * vv - dot p (store.middleTimes p)
  let w : Walk α n store.size :=
    { point := path.start
      velocity := path.velocity
      held := path.held
      slope := -vv
      curvature := curvature
      floor := Scalar.epsilon * curvature
      p := p
      c := store.zeroCompact
      reached := 0
      elapsed := 0
      ahead := 0
      segments := 0
      floored := false }
  { w with ahead := w.minimizer }

/-- The value at which variable `i` stops when it moves with velocity `v`. -/
def stopAt (box : Box α n) (path : Path α n) (i : Fin n) (v : α) : α :=
  (if 0 < v then (box.kind i).upper? else (box.kind i).lower?).getD path.start[i]

/-- The walk after a segment of length `dt` at whose end variable `i` stops. -/
def stopVariable {k : Nat} (w : Walk α n k) (box : Box α n) (path : Path α n)
    (i : Fin n) (dt : α) : Walk α n k :=
  { w with
    point := w.point.set i (stopAt box path i w.velocity[i]) i.isLt
    velocity := w.velocity.set i 0 i.isLt
    held := w.held.set i true i.isLt
    elapsed := w.elapsed + dt
    segments := w.segments + 1 }

/-- The slope, curvature and compact products of the next segment, after a segment of
length `dt` at whose end variable `i` stops; it had velocity `v` and ends `z` away from
where it started. -/
def bend (store : Store α n cap) (w : Walk α n store.size) (dt : α) (i : Fin n)
    (v z : α) : Walk α n store.size :=
  let theta := store.theta
  let vv := v * v
  let slope := w.slope + (dt * w.curvature + vv - theta * v * z)
  let curvature := w.curvature - theta * vv
  if store.isEmpty then
    { w with
      slope := slope
      curvature := Scalar.larger curvature w.floor
      floored := w.floored || decide (curvature < w.floor) }
  else
    let c := addScaled w.c dt w.p
    let row := store.wRow i
    let mrow := store.middleTimes row
    let wmc := dot c mrow
    let wmp := dot w.p mrow
    let wmw := dot row mrow
    let curvature := curvature + (2.0 * v * wmp - vv * wmw)
    { w with
      c := c
      p := addScaled w.p (-v) row
      slope := slope + v * wmc
      curvature := Scalar.larger curvature w.floor
      floored := w.floored || decide (curvature < w.floor) }

inductive Turn (α : Type) (n k : Nat)
  /-- The model has its minimum before it. -/
  | stop
  /-- It is the end of the path: every variable is on a limit. -/
  | finish (w : Walk α n k)
  | onward (w : Walk α n k)

/-- The walk at the breakpoint `b`, with the breakpoints `rest` behind it. -/
def turn (box : Box α n) (store : Store α n cap) (path : Path α n)
    (w : Walk α n store.size) (b : Breakpoint α n) (rest : List (Breakpoint α n)) :
    Turn α n store.size :=
  let dt := b.time - w.reached
  if w.ahead < dt then
    .stop
  else
    let v := w.velocity[b.index]
    let stopped := w.stopVariable box path b.index dt
    if rest.isEmpty && path.meetsAllLimits then
      .finish { stopped with ahead := dt }
    else
      let z := stopAt box path b.index v - path.start[b.index]
      let next := bend store stopped dt b.index v z
      .onward
        { next with
          reached := b.time
          ahead := if !rest.isEmpty || path.endless then next.minimizer else 0 }

/-- Walks past breakpoints as far as the model decreases.  The flag tells whether the
path came to its end. -/
def run (box : Box α n) (store : Store α n cap) (path : Path α n) :
    List (Breakpoint α n) → Walk α n store.size → Walk α n store.size × Bool
  | [], w => (w, false)
  | b :: rest, w =>
    match w.turn box store path b rest with
    | .stop => (w, false)
    | .finish w' => (w', true)
    | .onward w' => run box store path rest w'

end Walk

end BoxDescent
