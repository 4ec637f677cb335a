import BoxDescent.Run

/-!
# The log of a run

What a run tells about itself on the way, one event after the other.  Events are read
off the record of the run; `Event.line` holds every wording.
-/

namespace BoxDescent

inductive Level
  | error
  | warn
  | info
  | debug
  | trace
  deriving DecidableEq, Repr

def Level.name : Level → String
  | error => "ERROR"
  | warn => "WARN"
  | info => "INFO"
  | debug => "DEBUG"
  | trace => "TRACE"

/-- Why a search has accepted no trial. -/
inductive Failure (α : Type)
  | notDescent (slope : α)
  | stalled
  | nonFinite
  deriving Repr

/-- The events of a run; `Event.text` says what each tells. -/
inductive Event (α : Type)
  | startProjected
  | gradientLength (got dimension : Nat)
  | pairRefused (sy yy : α)
  | pairsDependent
  | cauchyPoint (segments total : Nat) (time : α)
  | systemUnsolved (free : Nat)
  | stepOverflowed
  | trialNonFinite (stp : α)
  | intervalDegenerate (stp : α) (rounding narrow atMax : Bool)
  | searchRetried (failure : Failure α) (pairs : Nat)
  | searchFailed (failure : Failure α)
  | iteration (number : Nat) (f pgNorm stp : α) (how : Acceptance)
      (free active segments : Nat)
  | stepTruncated (index : Nat)
  | stepFellBack
  | stopped (iterations evals : Nat) (reason : Reason) (f pgNorm : α)
  deriving Repr

/-! ### Wording -/

def Status.name : Status → String
  | converged => "Converged"
  | maxIterReached => "MaxIterReached"
  | lineSearchFailed => "LineSearchFailed"
  | numericalError => "NumericalError"

/-- A reason in words. -/
def Reason.text : Reason → String
  | nonFiniteStart => "non-finite value at the initial point"
  | smallGradient => "projected gradient below pgtol"
  | smallReduction => "relative reduction of f below factr * eps"
  | iterationLimit => "iteration limit"
  | nonFiniteLine => "objective non-finite along the search direction"
  | noDescent => "search direction is not a descent direction"
  | budgetSpent => "no acceptable step within the evaluation budget"

def Acceptance.name : Acceptance → String
  | wolfe => "Wolfe"
  | degenerate .. => "Degenerate"
  | backtracked => "Backtracked"

namespace Failure

variable {α : Type}

/-- The failure in words; `real` writes the numbers. -/
def text (real : α → String) : Failure α → String
  | notDescent slope => s!"not a descent direction, g.d = {real slope}"
  | stalled => "evaluation budget exhausted"
  | nonFinite => "non-finite values"

end Failure

namespace Event

variable {α : Type}

def level : Event α → Level
  | gradientLength .. => .error
  | pairsDependent | systemUnsolved _ | stepOverflowed | trialNonFinite _
  | searchRetried .. | searchFailed _ => .warn
  | startProjected | stopped .. => .info
  | pairRefused .. | intervalDegenerate .. | iteration .. | stepTruncated _
  | stepFellBack => .debug
  | cauchyPoint .. => .trace

/-- The event in words; `real` writes the numbers. -/
def text (real : α → String) : Event α → String
  | startProjected => "initial point projected onto the bounds"
  | gradientLength got dimension =>
    s!"objective returned a gradient of length {got} for {dimension} variables"
  | pairRefused sy yy => s!"skipping correction: s.y = {real sy}, y.y = {real yy}"
  | pairsDependent =>
    "correction history is numerically dependent; keeping only the newest pair"
  | cauchyPoint segments total time =>
    s!"cauchy point after {segments} of {total} breakpoints, t = {real time}"
  | systemUnsolved free =>
    s!"reduced system with {free} free variables is singular or not finite; "
      ++ "using steepest descent"
  | stepOverflowed => "non-finite subspace step; using steepest descent"
  | trialNonFinite stp => s!"non-finite objective at step {real stp}; backtracking"
  | intervalDegenerate stp rounding narrow atMax =>
    s!"line search bracket degenerated at step {real stp} "
      ++ s!"(rounding: {rounding}, xtol: {narrow}, stpmax: {atMax})"
  | searchRetried failure pairs =>
    s!"line search failed ({failure.text real}); "
      ++ s!"discarding {pairs} correction pairs and retrying"
  | searchFailed failure => s!"line search failed with an empty store ({failure.text real})"
  | iteration number f pgNorm stp how free active segments =>
    s!"iteration {number}: f = {real f}, |pg| = {real pgNorm}, step = {real stp} "
      ++ s!"({how.name}), {free} free, {active} active, {segments} breakpoints passed"
  | stepTruncated index => s!"subspace step truncated at the bound of variable {index}"
  | stepFellBack => "subspace step fell back to steepest descent"
  | stopped iterations evals reason f pgNorm =>
    s!"stopped after {iterations} iterations and {evals} evaluations: "
      ++ s!"{reason.status.name} ({reason.text}), f = {real f}, |pg| = {real pgNorm}"

/-- The line that the log gives to the event. -/
def line (real : α → String) (e : Event α) : String := e.level.name ++ " " ++ e.text real

end Event

/-! ### Views -/

variable {α : Type} {n k cap : Nat}

/-- A gradient of the wrong length is an event. -/
def Evaluation.events (e : Evaluation α n) : List (Event α) :=
  match e.wrongLength with
  | some got => [.gradientLength got n]
  | none => []

/-- A pair that is refused, or for which the others are dropped, is an event. -/
def Admission.events : Admission α → List (Event α)
  | refused sy yy => [.pairRefused sy yy]
  | appended => []
  | restarted | lost => [.pairsDependent]

/-- A search that moved a variable is an event. -/
def CauchySearch.events (s : CauchySearch α n k) : List (Event α) :=
  if s.moved then [.cauchyPoint s.segments s.total s.time] else []

/-- The events of a step from a point with the given number of free variables. -/
def SubspaceStep.events (s : SubspaceStep α n) (free : Nat) : List (Event α) :=
  (if s.unsolved then [.systemUnsolved free] else [])
    ++ if s.overflowed then [.stepOverflowed] else []

variable [Scalar α]

/-- A trial that is not finite is an event, after those of its evaluation. -/
def Trial.events (t : Trial α n) : List (Event α) :=
  t.eval.events ++ if t.eval.isFinite then [] else [.trialNonFinite t.stp]

/-- The events of all trials; an interval that ends a search is one more. -/
def Search.events (s : Search α n) : List (Event α) :=
  s.trials.flatMap Trial.events
    ++ match s.outcome with
      | .accepted t (.degenerate rounding narrow atMax) =>
        [.intervalDegenerate t.stp rounding narrow atMax]
      | _ => []

variable [DenseSolver α]

/-- The events of an accepted trial, up to the offer of its correction. -/
def Pass.acceptedEvents (pass : Pass α n cap) (stp : α) (how : Acceptance) :
    List (Event α) :=
  (pass.report.map fun r =>
      Event.iteration r.iteration r.f r.pgNorm stp how
        pass.cauchy.free.length pass.cauchy.active.length pass.cauchy.segments).toList
    ++ (pass.step.truncatedAt.map fun i => Event.stepTruncated i.val).toList
    ++ (if pass.step.fallback then [.stepFellBack] else [])
    ++ (pass.admission.map Admission.events).getD []

def Pass.failedEvents (pass : Pass α n cap) (failure : Failure α) : List (Event α) :=
  if pass.entry.store.isEmpty then [.searchFailed failure]
  else [.searchRetried failure pass.entry.store.size]

/-- The events of a pass, up to the end of the run. -/
def Pass.events (pass : Pass α n cap) : List (Event α) :=
  pass.cauchy.events ++ pass.step.events pass.cauchy.free.length ++ pass.search.events
    ++ match pass.search.outcome with
      | .accepted t how => pass.acceptedEvents t.stp how
      | .notDescent slope => pass.failedEvents (.notDescent slope)
      | .stalled _ => pass.failedEvents .stalled
      | .nonFinite => pass.failedEvents .nonFinite

def Result.event (r : Result α n) : Event α :=
  .stopped r.iterations r.evals r.reason r.point.f r.pgNorm

def Run.events (run : Run α n cap) : List (Event α) :=
  (if run.projected then [.startProjected] else [])
    ++ run.start.eval.events
    ++ run.passes.flatMap Pass.events
    ++ [run.result.event]

end BoxDescent
