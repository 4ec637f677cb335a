import BoxDescent.LineSearch.Search

/-!
# Results

What a run reports on the way and what it returns: the iterate at which it stops, and
why it stops there.
-/

namespace BoxDescent

/-- How a run ends. -/
inductive Status
  /-- The reduction of the value or the projected gradient is below its tolerance. -/
  | converged
  | maxIterReached
  /-- No acceptable step was found even without corrections. -/
  | lineSearchFailed
  /-- The objective gave values that could not be worked around. -/
  | numericalError
  deriving DecidableEq, Repr

/-- Why a run ends. -/
inductive Reason
  | nonFiniteStart
  | smallGradient
  | smallReduction
  | iterationLimit
  | nonFiniteLine
  /-- The value does not decrease along the line. -/
  | noDescent
  /-- No trial along the line is acceptable. -/
  | budgetSpent
  deriving DecidableEq, Repr

def Reason.status : Reason → Status
  | nonFiniteStart | nonFiniteLine => .numericalError
  | smallGradient | smallReduction => .converged
  | iterationLimit => .maxIterReached
  | noDescent | budgetSpent => .lineSearchFailed

/-- An accepted point with its value and gradient. -/
structure Iterate (α : Type) (n : Nat) where
  x : Vector α n
  f : α
  g : Vector α n

/-- The point of a trial. -/
def Trial.iterate {α : Type} {n : Nat} (t : Trial α n) : Iterate α n where
  x := t.x
  f := t.eval.f
  g := t.eval.g

/-- The result of a run. -/
structure Result (α : Type) (n : Nat) where
  point : Iterate α n
  /-- The number of accepted iterations. -/
  iterations : Nat
  /-- The number of calls of the objective. -/
  evals : Nat
  /-- The norm of the projected gradient at the point. -/
  pgNorm : α
  reason : Reason

namespace Result

variable {α : Type} {n : Nat}

def status (r : Result α n) : Status := r.reason.status

/-- The run stopped on one of its tolerances. -/
def converged (r : Result α n) : Bool := r.status == .converged

end Result

structure Report (α : Type) where
  iteration : Nat
  f : α
  pgNorm : α
  deriving Repr

end BoxDescent
