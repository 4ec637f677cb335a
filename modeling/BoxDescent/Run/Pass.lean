import BoxDescent.Run.Result
import BoxDescent.Settings
import BoxDescent.SubspaceStep

/-!
# Passes

One pass of a run computes the Cauchy point of the model, the subspace step from it, and
searches the line to its end point.  An accepted trial is the next iterate and offers a
correction to the store; a failed search empties the store and is tried again, or ends
the run if the store was empty.
-/

namespace BoxDescent

/-- The state of a run between two passes. -/
structure RunState (α : Type) [DenseSolver α] (n cap : Nat) where
  iterate : Iterate α n
  iterations : Nat
  evals : Nat
  store : Store α n cap

/-- What follows from a pass. -/
inductive Outcome (α : Type) [DenseSolver α] (n cap : Nat)
  | next (state : RunState α n cap)
  | stop (result : Result α n)

structure Pass (α : Type) [DenseSolver α] (n cap : Nat) where
  entry : RunState α n cap
  cauchy : CauchySearch α n entry.store.size
  step : SubspaceStep α n
  search : Search α n
  /-- The report on the iterate that the pass has accepted. -/
  report : Option (Report α)
  /-- What became of the correction, if one was offered. -/
  admission : Option (Admission α)
  outcome : Outcome α n cap

variable {α : Type} [Scalar α] [Spaced α] [DenseSolver α] {n : Nat}

/-- What does not change during a run. -/
structure Problem (α : Type) [Scalar α] (n : Nat) where
  settings : Settings α
  objective : Objective α n
  box : Box α n

namespace Problem

/-- The longest step for problems without bounds. -/
def bigStep : α := 1e10

def pgNorm (p : Problem α n) (it : Iterate α n) : α :=
  p.box.projectedGradientNorm it.x it.g

/-- The result of stopping at an iterate. -/
def finish (p : Problem α n) (it : Iterate α n) (iterations evals : Nat)
    (reason : Reason) : Result α n where
  point := it
  iterations := iterations
  evals := evals
  pgNorm := p.pgNorm it
  reason := reason

/-- The longest step from `x` along `d` in the given iteration. -/
def longestStep (p : Problem α n) (iterations : Nat) (x d : Vector α n) : α :=
  if p.box.isConstrained then
    if iterations = 0 then 1 else Scalar.larger (p.box.maxStep x d bigStep) 1
  else
    bigStep

/-- The first step to try: a unit step, of unit length in the first iteration unless
every variable is held between two limits. -/
def firstStep (p : Problem α n) (iterations : Nat) (d : Vector α n) (stpmax : α) : α :=
  if iterations = 0 && !p.box.isBoxed then
    Scalar.smaller (1 / Scalar.sqrt (dot d d)) stpmax
  else
    1

/-- The relative reduction of the value is below its tolerance. -/
def reductionIsSmall (p : Problem α n) (before after : α) : Bool :=
  let scale := Scalar.larger (Scalar.larger (Scalar.abs before) (Scalar.abs after)) 1
  decide (before - after ≤ p.settings.reductionFactor * Scalar.epsilon * scale)

/-- The projected gradient is below its tolerance. -/
def gradientIsSmall (p : Problem α n) (it : Iterate α n) : Bool :=
  decide (p.pgNorm it ≤ p.settings.gradientTolerance)

/-- The state of a run, with room for as many corrections as the settings ask for. -/
abbrev State (p : Problem α n) : Type := RunState α n p.settings.memory

/-- The search of a pass, along the direction `d`. -/
def searchLine (p : Problem α n) (st : p.State) (d : Vector α n) : Search α n :=
  let stpmax := p.longestStep st.iterations st.iterate.x d
  let line : Line α n :=
    { box := p.box
      x := st.iterate.x
      d := d
      f0 := st.iterate.f
      slope := dot st.iterate.g d
      stpmax := stpmax }
  Search.of line p.settings.search p.objective st.evals (p.firstStep st.iterations d stpmax)

/-- What follows from an accepted trial. -/
def acceptTrial (p : Problem α n) (st : p.State) (evals : Nat) (t : Trial α n) :
    Option (Admission α) × Outcome α n p.settings.memory :=
  let it := t.iterate
  let iterations := st.iterations + 1
  if p.gradientIsSmall it then
    (none, .stop (p.finish it iterations evals .smallGradient))
  else if p.reductionIsSmall st.iterate.f it.f then
    (none, .stop (p.finish it iterations evals .smallReduction))
  else
    let pushed := st.store.push (it.x - st.iterate.x) (it.g - st.iterate.g)
    if p.settings.maxIterations ≤ iterations then
      (some pushed.2, .stop (p.finish it iterations evals .iterationLimit))
    else
      (some pushed.2,
        .next { iterate := it, iterations := iterations, evals := evals, store := pushed.1 })

/-- The end of a run whose search has failed without corrections. -/
def giveUp (p : Problem α n) (st : p.State) (evals : Nat) (reason : Reason)
    (best : Option (Trial α n)) : Outcome α n p.settings.memory :=
  let it := (best.map Trial.iterate).getD st.iterate
  .stop (p.finish it st.iterations evals reason)

/-- What follows from a failed search. -/
def failSearch (p : Problem α n) (st : p.State) (evals : Nat) (reason : Reason)
    (best : Option (Trial α n)) : Outcome α n p.settings.memory :=
  if st.store.isEmpty then
    p.giveUp st evals reason best
  else
    .next { st with evals := evals, store := st.store.clear }

/-- What follows from a search. -/
def afterSearch (p : Problem α n) (st : p.State) (s : Search α n) :
    Option (Admission α) × Outcome α n p.settings.memory :=
  let evals := st.evals + s.evals
  match s.outcome with
  | .accepted t _ => p.acceptTrial st evals t
  | .notDescent _ => (none, p.failSearch st evals .noDescent none)
  | .stalled best => (none, p.failSearch st evals .budgetSpent best)
  | .nonFinite => (none, p.failSearch st evals .nonFiniteLine none)

def reportOn (p : Problem α n) (iteration : Nat) (it : Iterate α n) : Report α where
  iteration := iteration
  f := it.f
  pgNorm := p.pgNorm it

/-- The report that a search gives rise to. -/
def reportOf (p : Problem α n) (st : p.State) (s : Search α n) : Option (Report α) :=
  match s.outcome with
  | .accepted t _ => some (p.reportOn (st.iterations + 1) t.iterate)
  | _ => none

def pass (p : Problem α n) (st : p.State) : Pass α n p.settings.memory :=
  let cauchy := CauchySearch.of p.box st.store st.iterate.x st.iterate.g
  let step :=
    SubspaceStep.of p.box st.store st.iterate.x st.iterate.g cauchy.toCauchyPoint
  let search := p.searchLine st (step.direction st.iterate.x)
  let after := p.afterSearch st search
  { entry := st
    cauchy := cauchy
    step := step
    search := search
    report := p.reportOf st search
    admission := after.1
    outcome := after.2 }

end Problem

end BoxDescent
