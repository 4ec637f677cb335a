import BoxDescent.Box
import BoxDescent.Objective

/-!
# Search lines

The line along which a step is sought, its trial points, and the tolerances that an
accepted step must meet.  A trial point is moved onto the box before it is evaluated.
-/

namespace BoxDescent

/-- The tolerances of a line search. -/
structure SearchParams (α : Type) where
  /-- Representable steps within which a step counts as the longest one. -/
  ulps : Int
  maxEvals : Nat
  /-- The constant of sufficient decrease. -/
  ftol : α
  /-- The constant of the curvature condition. -/
  gtol : α
  /-- The relative width at which an interval counts as collapsed. -/
  xtol : α
  deriving Repr

/-- A point reached by a search, and its evaluation. -/
structure Trial (α : Type) (n : Nat) where
  stp : α
  x : Vector α n
  eval : Evaluation α n

/-- The line along which a search is made. -/
structure Line (α : Type) [Scalar α] (n : Nat) where
  box : Box α n
  x : Vector α n
  d : Vector α n
  f0 : α
  slope : α
  stpmax : α

variable {α : Type} [Scalar α] {n : Nat}

namespace Line

/-- The point of the box for the step `stp`. -/
def point (line : Line α n) (stp : α) : Vector α n :=
  line.box.project (Vector.ofFn fun i => line.x[i] + stp * line.d[i])

/-- The trial with step `stp`, made as call number `k`. -/
def trial (line : Line α n) (objective : Objective α n) (k : Nat) (stp : α) : Trial α n :=
  let x := line.point stp
  { stp := stp, x := x, eval := objective.eval k x }

/-- The slope that sufficient decrease asks for. -/
def testSlope (line : Line α n) (p : SearchParams α) : α := p.ftol * line.slope

/-- The value that sufficient decrease asks for at the step `stp`. -/
def testValue (line : Line α n) (p : SearchParams α) (stp : α) : α :=
  line.f0 + stp * line.testSlope p

end Line

end BoxDescent
