import BoxDescent.Run.Pass

/-!
# Runs

A run goes from pass to pass until one of them ends it.  It is kept as the list of its
passes, so that its reports, its evaluations and its log are views of it.
-/

namespace BoxDescent

variable {α : Type} [Scalar α] [Spaced α] [DenseSolver α] {n : Nat}

namespace Problem

/-! ### Passes in sequence -/

/-- Twice the iterations left, and one more while there are corrections to discard. -/
def passesLeft (p : Problem α n) (st : p.State) : Nat :=
  2 * (p.settings.maxIterations - st.iterations) + if st.store.isEmpty then 0 else 1

omit [Spaced α] in
theorem passesLeft_of_failSearch {p : Problem α n} {st next : p.State} {evals : Nat}
    {reason : Reason} {best : Option (Trial α n)}
    (h : p.failSearch st evals reason best = .next next) :
    p.passesLeft next < p.passesLeft st := by
  unfold failSearch at h
  split at h
  · cases h
  · rename_i hne
    cases h
    simp [passesLeft, hne]

omit [Spaced α] in
theorem passesLeft_of_acceptTrial {p : Problem α n} {st next : p.State} {evals : Nat}
    {t : Trial α n} (h : (p.acceptTrial st evals t).2 = .next next) :
    p.passesLeft next < p.passesLeft st := by
  unfold acceptTrial at h
  dsimp only at h
  split at h
  · cases h
  · split at h
    · cases h
    · split at h
      · cases h
      · rename_i hlt
        cases h
        simp only [passesLeft]
        split <;> split <;> omega

omit [Spaced α] in
/-- Every search that does not end the run leaves fewer passes to make. -/
theorem passesLeft_of_afterSearch {p : Problem α n} {st next : p.State} {s : Search α n}
    (h : (p.afterSearch st s).2 = .next next) : p.passesLeft next < p.passesLeft st := by
  simp only [afterSearch] at h
  split at h
  · exact passesLeft_of_acceptTrial h
  · exact passesLeft_of_failSearch h
  · exact passesLeft_of_failSearch h
  · exact passesLeft_of_failSearch h

theorem passesLeft_of_pass {p : Problem α n} {st next : p.State}
    (h : (p.pass st).outcome = .next next) : p.passesLeft next < p.passesLeft st :=
  passesLeft_of_afterSearch h

/-- The passes from a state to the end of the run, and the result. -/
def passes (p : Problem α n) (st : p.State) :
    List (Pass α n p.settings.memory) × Result α n :=
  let here := p.pass st
  match _h : here.outcome with
  | .stop result => ([here], result)
  | .next next =>
    let later := passes p next
    (here :: later.1, later.2)
termination_by p.passesLeft st
decreasing_by exact passesLeft_of_pass _h

end Problem

/-! ### Whole runs -/

/-- A run: its first evaluation, its passes and its result. -/
structure Run (α : Type) [DenseSolver α] (n cap : Nat) where
  /-- The initial point was moved onto the box. -/
  projected : Bool
  start : Trial α n
  /-- The report on the first point, if its evaluation was finite. -/
  firstReport : Option (Report α)
  passes : List (Pass α n cap)
  result : Result α n

namespace Problem

def initial (p : Problem α n) (it : Iterate α n) : p.State where
  iterate := it
  iterations := 0
  evals := 1
  store := Store.empty

/-- The run from the point of the box closest to `x0`. -/
def run (p : Problem α n) (x0 : Vector α n) : Run α n p.settings.memory :=
  let x := p.box.project x0
  let start : Trial α n := { stp := 0, x := x, eval := p.objective.eval 1 x }
  let it := start.iterate
  let projected := !(x == x0)
  if start.eval.isFinite then
    let report := p.reportOn 0 it
    if p.gradientIsSmall it then
      { projected := projected
        start := start
        firstReport := some report
        passes := []
        result := p.finish it 0 1 .smallGradient }
    else
      let made := p.passes (p.initial it)
      { projected := projected
        start := start
        firstReport := some report
        passes := made.1
        result := made.2 }
  else
    { projected := projected
      start := start
      firstReport := none
      passes := []
      result := p.finish it 0 1 .nonFiniteStart }

end Problem

/-! ### Views -/

namespace Run

omit [Scalar α] [Spaced α]

variable {cap : Nat}

def reports (run : Run α n cap) : List (Report α) :=
  run.firstReport.toList ++ run.passes.filterMap Pass.report

def trials (run : Run α n cap) : List (Trial α n) :=
  run.start :: run.passes.flatMap fun pass => pass.search.trials

end Run

end BoxDescent
