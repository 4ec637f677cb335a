import BoxDescent.Cauchy.Point

/-!
# The subspace step

From the Cauchy point the quadratic model is minimized over the variables that are
free there; the others stay.  With `W_F` the rows of `W` for the free variables, the
inverse of the reduced matrix follows from a system of the size of compact vectors:

    B_F⁻¹ = I / theta + W_F * (M⁻¹ - W_Fᵀ W_F / theta)⁻¹ * W_Fᵀ / theta².

The step is cut once, at the first limit that it would cross.
-/

namespace BoxDescent

/-- The end point of the search direction. -/
structure SubspaceStep (α : Type) (n : Nat) where
  xbar : Vector α n
  /-- The free variable whose limit has cut the step. -/
  truncatedAt : Option (Fin n)
  /-- The reduced system had no acceptable solution. -/
  unsolved : Bool
  /-- The step was not finite. -/
  overflowed : Bool

namespace SubspaceStep

variable {α : Type} [Scalar α] [DenseSolver α] {n cap : Nat}

/-- Steepest descent on the free variables was used. -/
def fallback (step : SubspaceStep α n) : Bool := step.unsolved || step.overflowed

def direction (step : SubspaceStep α n) (x : Vector α n) : Vector α n := step.xbar - x

/-! ### The unconstrained step -/

/-- The free variables as a vector. -/
def freeVector (free : List (Fin n)) : Vector (Fin n) free.length :=
  ⟨free.toArray, rfl⟩

/-- The negative gradient of the model at the Cauchy point, on the free variables. -/
def reducedGradient (store : Store α n cap) (x g : Vector α n)
    (cp : CauchyPoint α n store.size) : Vector α cp.free.length :=
  let free := freeVector cp.free
  let r := free.map fun i => -(g[i] + store.theta * (cp.xc[i] - x[i]))
  if store.isEmpty then r
  else r + Mat.mulVec (store.wRows free) (store.middleTimes cp.c)

/-- The matrix `M⁻¹ - W_Fᵀ W_F / theta`. -/
def reducedSystem (store : Store α n cap) {m : Nat}
    (wf : Mat α m (store.size + store.size)) :
    Mat α (store.size + store.size) (store.size + store.size) :=
  store.middleInverse - (Mat.gram wf).map fun row => divide row store.theta

/-- The least reciprocal condition at which a reduced system counts as solvable. -/
def conditionLimit : α := 1e-12

/-- The step `B_F⁻¹ * r`; `none` if the reduced system has no acceptable solution. -/
def newton? (store : Store α n cap) (free : List (Fin n))
    (r : Vector α free.length) : Option (Vector α free.length) :=
  if store.isEmpty then
    some (divide r store.theta)
  else
    let wf := store.wRows (freeVector free)
    (symmetricSolve (reducedSystem store wf) (Mat.transposeMulVec wf r) conditionLimit).map
      fun q => divide r store.theta + divide (Mat.mulVec wf q) (store.theta * store.theta)

/-! ### The cut -/

/-- How far a step from `xc` along `du` may go, at most all the way, and the position
of the free variable whose limit says so. -/
def longest (box : Box α n) (xc : Vector α n) (free : List (Fin n))
    (du : Vector α free.length) : α × Option (Fin free.length) :=
  Fin.foldl free.length
    (fun acc j =>
      let i := free.get j
      let limit := (box.kind i).reach xc[i] du[j] acc.1
      if limit < acc.1 then (limit, some j) else acc)
    (1, none)

/-- The point `xc + alpha * du`, with the variable at position `hit` on its limit. -/
def endPoint (box : Box α n) (xc : Vector α n) (free : List (Fin n))
    (du : Vector α free.length) (alpha : α) (hit : Option (Fin free.length)) :
    Vector α n :=
  let moved := Fin.foldl free.length
    (fun acc j => let i := free.get j; acc.set i (xc[i] + alpha * du[j])) xc
  match hit with
  | none => moved
  | some j =>
    let i := free.get j
    let edge := if 0 < du[j] then (box.kind i).upper? else (box.kind i).lower?
    match edge with
    | none => moved
    | some limit => moved.set i limit

/-- The step from the Cauchy point `cp` of the model at `x` with gradient `g`. -/
def of (box : Box α n) (store : Store α n cap) (x g : Vector α n)
    (cp : CauchyPoint α n store.size) : SubspaceStep α n :=
  if cp.free.isEmpty then
    { xbar := cp.xc, truncatedAt := none, unsolved := false, overflowed := false }
  else
    let r := reducedGradient store x g cp
    let descent := divide r store.theta
    let solved := newton? store cp.free r
    let tried := solved.getD descent
    let du := if allFinite tried then tried else descent
    let cut := longest box cp.xc cp.free du
    { xbar := box.project (endPoint box cp.xc cp.free du cut.1 cut.2)
      truncatedAt := cut.2.map cp.free.get
      unsolved := solved.isNone
      overflowed := !allFinite tried }

/-- Where no variable is free, the step ends at the Cauchy point. -/
theorem of_of_free_eq_nil {box : Box α n} {store : Store α n cap} {x g : Vector α n}
    {cp : CauchyPoint α n store.size} (h : cp.free = []) :
    of box store x g cp =
      { xbar := cp.xc, truncatedAt := none, unsolved := false, overflowed := false } :=
  if_pos (List.isEmpty_iff.mpr h)

end SubspaceStep

end BoxDescent
