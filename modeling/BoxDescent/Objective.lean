import BoxDescent.Linear.Vec

/-!
# Objectives

An objective answers a point with a value and a gradient.  It may depend on how often
it has been called, and its gradient may have any length.  A gradient of the wrong
length is no gradient: it is replaced by one without numbers.
-/

namespace BoxDescent

/-- What an objective answers at the call with the given number, counted from 1. -/
abbrev Objective (α : Type) (n : Nat) : Type := Nat → Vector α n → α × Array α

/-- The value and the gradient of one call. -/
structure Evaluation (α : Type) (n : Nat) where
  f : α
  g : Vector α n
  /-- The length of the gradient that was answered, if it is not `n`. -/
  wrongLength : Option Nat

variable {α : Type} [Scalar α] {n : Nat}

namespace Evaluation

/-- The evaluation that an answer amounts to. -/
def ofAnswer (answer : α × Array α) : Evaluation α n :=
  if h : answer.2.size = n then
    { f := answer.1, g := ⟨answer.2, h⟩, wrongLength := none }
  else
    { f := answer.1
      g := Vector.replicate n Scalar.nan
      wrongLength := some answer.2.size }

/-- The gradient has been replaced, and there are entries in it. -/
def isReplaced (e : Evaluation α n) : Bool := e.wrongLength.isSome && decide (0 < n)

-- Replaced entries are told apart also in an arithmetic where every value is a number.
def isFinite (e : Evaluation α n) : Bool :=
  !e.isReplaced && Scalar.isFinite e.f && allFinite e.g

end Evaluation

/-- The evaluation at `x`, as call number `k`. -/
def Objective.eval (objective : Objective α n) (k : Nat) (x : Vector α n) :
    Evaluation α n :=
  Evaluation.ofAnswer (objective k x)

end BoxDescent
