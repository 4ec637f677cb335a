import BoxDescent.Cauchy.Walk

/-!
# The generalized Cauchy point

The point at which a walk along the path of steepest descent stops, with the variables
that are free there and those that are held on a limit.
-/

namespace BoxDescent

/-- The first local minimizer of the model along the path. -/
structure CauchyPoint (α : Type) (n k : Nat) where
  xc : Vector α n
  /-- The variables that are free there, in ascending order. -/
  free : List (Fin n)
  /-- The variables held on a limit there, in ascending order. -/
  active : List (Fin n)
  /-- The product of `Wᵀ` with the way from the start. -/
  c : Compact α k
  segments : Nat

structure CauchySearch (α : Type) (n k : Nat) extends CauchyPoint α n k where
  /-- Some variable moved. -/
  moved : Bool
  /-- The number of breakpoints on the path. -/
  total : Nat
  /-- The path parameter at the point. -/
  time : α
  /-- The curvature has been raised to its floor on the way. -/
  floored : Bool

namespace CauchySearch

variable {α : Type} [Scalar α] [DenseSolver α] {n cap : Nat}

/-- The search for a gradient that moves no variable. -/
def atRest (store : Store α n cap) (path : Path α n) : CauchySearch α n store.size where
  xc := path.start
  free := (List.finRange n).filter fun i => !path.held[i]
  active := (List.finRange n).filter fun i => path.held[i]
  c := store.zeroCompact
  segments := 0
  moved := false
  total := path.breakpoints.length
  time := 0
  floored := false

/-- The search that ends with the walk `w`; `exhausted` tells that the path came to its
end there. -/
def ofWalk (box : Box α n) (store : Store α n cap) (path : Path α n)
    (w : Walk α n store.size) (exhausted : Bool) : CauchySearch α n store.size :=
  let last := if exhausted then w.ahead else Scalar.larger w.ahead 0
  let time := if exhausted then w.elapsed else w.elapsed + last
  let xc :=
    if exhausted then w.point
    else Vector.ofFn fun i =>
      if w.velocity[i] == 0 then w.point[i]
      else (box.kind i).clamp (path.start[i] + time * w.velocity[i])
  { xc := xc
    free := (List.finRange n).filter fun i => !w.held[i]
    active := (List.finRange n).filter fun i => w.held[i]
    c := if store.isEmpty then w.c else addScaled w.c last w.p
    segments := w.segments
    moved := true
    total := path.breakpoints.length
    time := time
    floored := w.floored }

def of (box : Box α n) (store : Store α n cap) (x g : Vector α n) :
    CauchySearch α n store.size :=
  let path := Path.of box x g
  if dot path.velocity path.velocity == 0 then
    atRest store path
  else
    let ended := Walk.run box store path path.breakpoints (Walk.begin store path)
    ofWalk box store path ended.1 ended.2

end CauchySearch

end BoxDescent
