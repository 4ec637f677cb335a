import BoxDescent.Linear.DiagonalPivoting
import BoxDescent.Run

/-!
# Minimization

The entry points.  Everything that can be wrong with the settings, the bounds or the
initial point is found before the objective is called.
-/

namespace BoxDescent

variable {α : Type} [Scalar α] [Spaced α] [DenseSolver α] {m n : Nat}

/-- Minimizes an objective from `x0` inside a box. -/
def minimizeWithin (settings : Settings α) (objective : Objective α n) (x0 : Vector α n)
    (box : Box α m) : Except (Error α) (Run α n settings.memory) := do
  settings.check
  if n = 0 then
    throw .noVariables
  if h : m = n then
    let p : Problem α n := { settings := settings, objective := objective, box := h ▸ box }
    return p.run x0
  else
    throw (.coverage m n)

/-- Minimizes an objective from `x0`, with one pair of lower and upper values per
variable; without a list of pairs nothing is bounded. -/
def minimize (settings : Settings α) (objective : Objective α n) (x0 : Vector α n)
    (pairs : Option (Array (α × α))) : Except (Error α) (Run α n settings.memory) := do
  settings.check
  let box ← Box.ofPairs pairs n
  minimizeWithin settings objective x0 box

end BoxDescent
