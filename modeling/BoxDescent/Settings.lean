import BoxDescent.Error
import BoxDescent.LineSearch.Line

/-!
# Settings

The tolerances and limits of a minimization, their defaults, and the check that every
run makes first.  `Choices` holds the settings that a caller has made; the others keep
their defaults.
-/

namespace BoxDescent

/-- The tolerances and limits of a minimization. -/
structure Settings (α : Type) where
  /-- A run stops when the relative reduction of the value is at most this many times
  the gap between 1 and the next number. -/
  reductionFactor : α
  /-- A run stops when the norm of the projected gradient is at most this. -/
  gradientTolerance : α
  /-- The number of corrections kept. -/
  memory : Nat
  maxIterations : Nat
  /-- The sufficient decrease constant of the line search. -/
  decrease : α
  /-- The curvature constant of the line search. -/
  curvature : α
  /-- The relative width at which an interval of the line search counts as collapsed. -/
  bracketTolerance : α
  /-- The number of trials in one line search. -/
  maxSearchEvals : Nat
  /-- Representable steps within which two steps count as equal. -/
  ulps : Int
  deriving BEq, Repr

/-- The settings that a caller has made. -/
structure Choices (α : Type) where
  reductionFactor : Option α := none
  gradientTolerance : Option α := none
  memory : Option Nat := none
  maxIterations : Option Nat := none
  decrease : Option α := none
  curvature : Option α := none
  bracketTolerance : Option α := none
  maxSearchEvals : Option Nat := none
  ulps : Option Int := none
  deriving Repr

variable {α : Type} [Scalar α]

namespace Settings

/-- The settings used where a caller makes none. -/
def default : Settings α where
  reductionFactor := 1e7
  gradientTolerance := 1e-5
  memory := 10
  maxIterations := 15000
  decrease := 1e-3
  curvature := 0.9
  bracketTolerance := 0.1
  maxSearchEvals := 20
  ulps := 4

/-- A tolerance must be positive and finite. -/
def checkPositive (setting : Setting) (value : α) : Except (Error α) Unit :=
  if 0 < value ∧ Scalar.isFinite value = true then .ok ()
  else .error (.notPositive setting value)

/-- A count must not be zero. -/
def checkCount (setting : Setting) (count : Nat) : Except (Error α) Unit :=
  if count = 0 then .error (.zeroCount setting) else .ok ()

/-- Checks every setting; the first one out of range makes the error. -/
def check (s : Settings α) : Except (Error α) Unit := do
  checkPositive .reductionFactor s.reductionFactor
  checkPositive .gradientTolerance s.gradientTolerance
  checkPositive .bracketTolerance s.bracketTolerance
  checkCount .memory s.memory
  checkCount .maxIterations s.maxIterations
  checkCount .maxSearchEvals s.maxSearchEvals
  if ¬(0 < s.decrease ∧ s.decrease < s.curvature ∧ s.curvature < 1) then
    throw (.searchConstants s.decrease s.curvature)
  if s.ulps < 0 then
    throw (.negativeUlps s.ulps)

/-- The line search that the settings ask for. -/
def search (s : Settings α) : SearchParams α where
  ulps := s.ulps
  maxEvals := s.maxSearchEvals
  ftol := s.decrease
  gtol := s.curvature
  xtol := s.bracketTolerance

end Settings

namespace Choices

/-- The choices laid over the defaults. -/
def overlay (c : Choices α) : Settings α :=
  let d : Settings α := Settings.default
  { reductionFactor := c.reductionFactor.getD d.reductionFactor
    gradientTolerance := c.gradientTolerance.getD d.gradientTolerance
    memory := c.memory.getD d.memory
    maxIterations := c.maxIterations.getD d.maxIterations
    decrease := c.decrease.getD d.decrease
    curvature := c.curvature.getD d.curvature
    bracketTolerance := c.bracketTolerance.getD d.bracketTolerance
    maxSearchEvals := c.maxSearchEvals.getD d.maxSearchEvals
    ulps := c.ulps.getD d.ulps }

/-- The checked settings. -/
def build (c : Choices α) : Except (Error α) (Settings α) := do
  c.overlay.check
  return c.overlay

end Choices

end BoxDescent
