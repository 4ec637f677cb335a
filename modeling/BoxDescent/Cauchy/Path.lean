import BoxDescent.Box

/-!
# The path of steepest descent

From a point of a box the path follows the negative gradient and bends whenever a
variable reaches a limit, where that variable stays.  The bends are met in the order of
their times, and in the order of the variables where times are equal.
-/

namespace BoxDescent

/-! ### Departure -/

/-- How a variable leaves the start of the path. -/
inductive Departure
  /-- It moves, and may reach a limit later. -/
  | moving
  /-- Its slope is zero: it stays but is not held. -/
  | stationary
  /-- It is fixed, or on a limit with the path leading outwards. -/
  | held
  deriving DecidableEq, Repr

namespace Departure

variable {α : Type} [Scalar α]

/-- How a variable at `x` leaves when the path moves it with velocity `v`. -/
def of (b : Bound α) (x v : α) : Departure :=
  if b.isFixed then
    held
  else if !b.isBounded then
    if v == 0 then stationary else moving
  else if b.lower?.any fun l => decide (x - l ≤ 0) then
    if v ≤ 0 then held else moving
  else if b.upper?.any fun u => decide (u - x ≤ 0) then
    if 0 ≤ v then held else moving
  else if v == 0 then
    stationary
  else
    moving

end Departure

/-! ### Breakpoints -/

/-- The time at which a variable reaches a limit. -/
structure Breakpoint (α : Type) (n : Nat) where
  index : Fin n
  time : α

namespace Breakpoint

variable {α : Type} [Scalar α] {n : Nat}

/-- Earlier times come first, and the lower index at equal times. -/
def precedes (a b : Breakpoint α n) : Bool :=
  if a.time < b.time then true
  else if b.time < a.time then false
  else decide (a.index ≤ b.index)

/-- Puts a breakpoint into a list that runs from the latest to the earliest. -/
def insertLate (b : Breakpoint α n) : List (Breakpoint α n) → List (Breakpoint α n)
  | [] => [b]
  | last :: earlier =>
    if b.precedes last then last :: insertLate b earlier else b :: last :: earlier

/-- The breakpoints in the order in which they are met. -/
def inOrder (bs : List (Breakpoint α n)) : List (Breakpoint α n) :=
  (bs.foldl (fun sorted b => b.insertLate sorted) []).reverse

/-- The time at which a variable that moves from `x` with velocity `v` reaches the limit
ahead of it. -/
def time? (b : Bound α) (x v : α) : Option α :=
  if v < 0 then b.lower?.map fun l => (x - l) / -v
  else if 0 < v then b.upper?.map fun u => (u - x) / v
  else none

end Breakpoint

/-! ### The path -/

structure Path (α : Type) (n : Nat) where
  start : Vector α n
  velocity : Vector α n
  held : Vector Bool n
  /-- The bends, in the order in which they are met. -/
  breakpoints : List (Breakpoint α n)
  /-- Some moving variable never reaches a limit. -/
  endless : Bool

namespace Path

variable {α : Type} [Scalar α] {n : Nat}

def of (box : Box α n) (x g : Vector α n) : Path α n :=
  let departure (i : Fin n) := Departure.of (box.kind i) x[i] (-g[i])
  let moving := (List.finRange n).filter fun i => departure i == .moving
  let time? (i : Fin n) := Breakpoint.time? (box.kind i) x[i] (-g[i])
  let breakpoints := moving.filterMap fun i => (time? i).map (Breakpoint.mk i)
  { start := x
    velocity := Vector.ofFn fun i => if departure i = .moving then -g[i] else 0
    held := Vector.ofFn fun i => departure i == .held
    breakpoints := Breakpoint.inOrder breakpoints
    endless := moving.any fun i => (time? i).isNone }

/-- Every variable reaches a limit on the path. -/
def meetsAllLimits (path : Path α n) : Bool := path.breakpoints.length == n

end Path

end BoxDescent
