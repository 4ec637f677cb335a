/-!
# Errors

What can be wrong with a problem or with its settings.  Each cause carries the data
its message names; `Error.message` holds every wording.  No error arises once the
objective has been called.
-/

namespace BoxDescent

inductive Side
  | lower
  | upper
  deriving DecidableEq, Repr

/-- A setting that must be positive. -/
inductive Setting
  | reductionFactor
  | gradientTolerance
  | bracketTolerance
  | memory
  | maxIterations
  | maxSearchEvals
  deriving DecidableEq, Repr

/-- The causes for refusing a problem. -/
inductive Error (α : Type)
  /-- The lower bound of a variable exceeds its upper bound. -/
  | inverted (lower upper : α)
  /-- The same, in a list of bounds: the first variable of which it is true. -/
  | invertedAt (index : Nat) (lower upper : α)
  /-- A list of bound pairs has the wrong length. -/
  | pairCount (expected got : Nat)
  | sideLength (side : Side) (got expected : Nat)
  /-- The box and the initial point differ in dimension. -/
  | coverage (covered dimension : Nat)
  /-- A real setting is not positive and finite. -/
  | notPositive (setting : Setting) (value : α)
  | zeroCount (setting : Setting)
  /-- The line search constants are not ordered. -/
  | searchConstants (decrease curvature : α)
  | negativeUlps (ulps : Int)
  | noVariables
  deriving Repr

namespace Side

/-- The name under which messages mention the side. -/
def name : Side → String
  | lower => "lower"
  | upper => "upper"

end Side

namespace Setting

def name : Setting → String
  | reductionFactor => "factr"
  | gradientTolerance => "pgtol"
  | bracketTolerance => "xtol"
  | memory => "maxcor"
  | maxIterations => "maxiter"
  | maxSearchEvals => "max_line_search_evals"

end Setting

namespace Error

variable {α : Type}

/-- What an error is about: the bounds, or the rest of the configuration. -/
inductive Subject
  | bounds
  | configuration
  deriving DecidableEq, Repr

/-- Errors about bounds are told from all others. -/
def subject : Error α → Subject
  | inverted .. | invertedAt .. | pairCount .. | sideLength .. | coverage .. => .bounds
  | notPositive .. | zeroCount _ | searchConstants .. | negativeUlps _ | noVariables =>
    .configuration

/-- The cause in words; `real` writes the numbers. -/
def cause (real : α → String) : Error α → String
  | inverted l u => s!"lower bound {real l} exceeds upper bound {real u}"
  | invertedAt i l u =>
    s!"variable {i}: lower bound {real l} exceeds upper bound {real u}"
  | pairCount expected got => s!"expected {expected} bound pairs, got {got}"
  | sideLength side got expected =>
    s!"{side.name} bounds have length {got}, expected {expected}"
  | coverage covered dimension =>
    s!"bounds cover {covered} variables, initial point has {dimension}"
  | notPositive setting value => s!"{setting.name} must be positive, got {real value}"
  | zeroCount setting => s!"{setting.name} must be at least 1"
  | searchConstants c1 c2 =>
    "line search constants must satisfy 0 < c1 < c2 < 1, got "
      ++ s!"c1 = {real c1}, c2 = {real c2}"
  | negativeUlps ulps => s!"ulps must be non-negative, got {ulps}"
  | noVariables => "initial point has no variables"

def message (real : α → String) (e : Error α) : String :=
  match e.subject with
  | .bounds => "invalid bounds: " ++ e.cause real
  | .configuration => "invalid configuration: " ++ e.cause real

end Error

end BoxDescent
