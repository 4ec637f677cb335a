import BoxDescent.Minimize
import BoxDescent.Log
import BoxDescent.Decimal.Shortest
import BoxDescent.Proofs.Exact
import BoxDescent.Proofs.Ordered
import BoxDescent.Proofs.Extended
import BoxDescent.Proofs.Settings
import BoxDescent.Proofs.Linear.Coordinates
import BoxDescent.Proofs.Linear.ExactSolver
import BoxDescent.Proofs.Linear.Norms
import BoxDescent.Proofs.Linear.Elimination
import BoxDescent.Proofs.Linear.Acceptance
import BoxDescent.Proofs.History.Consistency
import BoxDescent.Proofs.Bfgs.Compact
import BoxDescent.Proofs.History.Gram
import BoxDescent.Proofs.History.Forward
import BoxDescent.Proofs.History.Secant
import BoxDescent.Proofs.History.Inverse
import BoxDescent.Proofs.History.Upkeep
import BoxDescent.Proofs.History.Admission
import BoxDescent.Proofs.History.Answers
import BoxDescent.Proofs.Cauchy.Coordinate
import BoxDescent.Proofs.Cauchy.Path
import BoxDescent.Proofs.Cauchy.Model
import BoxDescent.Proofs.Cauchy.Position
import BoxDescent.Proofs.Cauchy.Walk
import BoxDescent.Proofs.Cauchy.Inside
import BoxDescent.Proofs.Cauchy.Segments
import BoxDescent.Proofs.Cauchy.Point
import BoxDescent.Proofs.Cauchy.Carried
import BoxDescent.Proofs.Cauchy.Classification
import BoxDescent.Proofs.Cauchy.Unbounded
import BoxDescent.Proofs.History.Middle
import BoxDescent.Proofs.Subspace.Reduced
import BoxDescent.Proofs.Reach
import BoxDescent.Proofs.Cauchy.Stationary
import BoxDescent.Proofs.Subspace.Cut
import BoxDescent.Proofs.Subspace.Solvable
import BoxDescent.Proofs.Subspace.Step
import BoxDescent.Proofs.Subspace.Descent
import BoxDescent.Proofs.LineSearch.Trials
import BoxDescent.Proofs.LineSearch.Steps
import BoxDescent.Proofs.LineSearch.Accepted
import BoxDescent.Proofs.LineSearch.Bracketing
import BoxDescent.Proofs.LineSearch.Safeguards
import BoxDescent.Proofs.LineSearch.Finite
import BoxDescent.Proofs.LineSearch.Queries
import BoxDescent.Proofs.LineSearch.Embedding
import BoxDescent.Proofs.LineSearch.Shrinking
import BoxDescent.Proofs.LineSearch.Stages
import BoxDescent.Proofs.LineSearch.Backtracking
import BoxDescent.Proofs.LineSearch.Outcomes
import BoxDescent.Proofs.Run.Passes
import BoxDescent.Proofs.Run.Accounts
import BoxDescent.Proofs.Run.Course
import BoxDescent.Proofs.Run.Descent
import BoxDescent.Proofs.Run.Searches
import BoxDescent.Proofs.Subspace.Unbounded
import BoxDescent.Proofs.Run.OnLine
import BoxDescent.Proofs.Run.Plain
import BoxDescent.Proofs.Run.Best
import BoxDescent.Proofs.LineSearch.Ahead
import BoxDescent.Proofs.LineSearch.Collapse
import BoxDescent.Proofs.Run.Moves
import BoxDescent.Proofs.Run.Entries
import BoxDescent.Proofs.Refusals
import BoxDescent.Proofs.Cauchy.Arrivals
import BoxDescent.Proofs.Run.Curvature
