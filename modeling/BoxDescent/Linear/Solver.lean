import BoxDescent.Linear.Vec

/-!
# Small dense systems

Two services on small dense matrices are used by the curvature history and by the
subspace step: a factorization of positive definite matrices, and a solution of
symmetric systems that may be indefinite.  `DenseSolver` names them without saying
how they are done.  `symmetricSolve` accepts a proposed solution only if it
reproduces the right-hand side and is not larger than the condition threshold
admits.
-/

namespace BoxDescent

/-- Solvers for small dense systems over `α`. -/
class DenseSolver (α : Type) where
  /-- What is kept of a factorized matrix of the given size. -/
  Factor : Nat → Type
  /-- Factorizes a symmetric positive definite matrix; `none` where it cannot. -/
  factor : {k : Nat} → Mat α k k → Option (Factor k)
  /-- Solves with a factorized matrix. -/
  solve : {k : Nat} → Factor k → Vector α k → Vector α k
  /-- Proposes a solution of a symmetric system.  Any vector may be proposed for a system
  without one. -/
  propose : {k : Nat} → Mat α k k → Vector α k → Vector α k

variable {α : Type} [Scalar α] {k : Nat}

/-- The residual `a * x - b`. -/
def residual (a : Mat α k k) (x b : Vector α k) : Vector α k := Mat.mulVec a x - b

/-- Whether `x` passes as a solution of `a * x = b`: it is finite, `|a| |x|` does not
exceed `|b| / rcond`, and the residual is small against `|a| |x| + |b|`. -/
def acceptsSolution (a : Mat α k k) (b : Vector α k) (rcond : α) (x : Vector α k) : Bool :=
  let aNorm := Mat.rowSumNorm a
  let xNorm := maxAbs x
  let bNorm := maxAbs b
  allFinite x
    && !decide (rcond * aNorm * xNorm > bNorm)
    && !decide (maxAbs (residual a x b) >
        Scalar.sqrt Scalar.epsilon * (aNorm * xNorm + bNorm))

/-- Solves a symmetric system, possibly indefinite.  `none` where an entry is not
finite, or the proposed solution does not pass. -/
def symmetricSolve [DenseSolver α] (a : Mat α k k) (b : Vector α k) (rcond : α) :
    Option (Vector α k) :=
  if Mat.allFinite a && allFinite b then
    let x := DenseSolver.propose a b
    if acceptsSolution a b rcond x then some x else none
  else
    none

end BoxDescent
