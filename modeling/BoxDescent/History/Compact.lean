import BoxDescent.History.Store

/-!
# The quasi-Newton matrix

With `S` and `Y` the matrices whose columns are the steps and the gradient changes
held, oldest first, a store stands for

    B = theta * I - W * M * Wᵀ,   W = [Y, theta * S],
    M = [ -D   Lᵀ           ]⁻¹
        [  L   theta * Sᵀ S ]

`applyForward` multiplies by `B` through `W` and `M`; `applyInverse` multiplies by its
inverse, pair by pair.  Vectors in the domain of `W` are compact: their first half
belongs to `Y`, their second half to `theta * S`.
-/

namespace BoxDescent

/-- A vector with one entry for each column of `Y` and one for each column of `S`. -/
abbrev Compact (α : Type) (k : Nat) : Type := Vector α (k + k)

namespace Compact

variable {α : Type} {k : Nat}

/-- The half that belongs to `Y`. -/
def yPart (q : Compact α k) : Vector α k := Vector.ofFn fun j => q[Fin.castAdd k j]

/-- The half that belongs to `theta * S`. -/
def sPart (q : Compact α k) : Vector α k := Vector.ofFn fun j => q[Fin.natAdd k j]

/-- The compact vector with the given halves. -/
def ofParts (u v : Vector α k) : Compact α k := u ++ v

@[simp] theorem yPart_ofParts (u v : Vector α k) : (ofParts u v).yPart = u := by
  ext i hi
  simp [yPart, ofParts]

@[simp] theorem sPart_ofParts (u v : Vector α k) : (ofParts u v).sPart = v := by
  ext i hi
  simp [sPart, ofParts]

end Compact

namespace Store

variable {α : Type} [Scalar α] [DenseSolver α] {n cap : Nat}

/-! ### Products with `W` -/

def zeroCompact (store : Store α n cap) : Compact α store.size :=
  Vector.replicate _ 0

/-- The product `Wᵀ * v`. -/
def wTranspose (store : Store α n cap) (v : Vector α n) : Compact α store.size :=
  Compact.ofParts (Vector.ofFn fun j => dot (store.pair j).y v)
    (Vector.ofFn fun j => store.theta * dot (store.pair j).s v)

/-- The product `W * q`. -/
def wTimes (store : Store α n cap) (q : Compact α store.size) : Vector α n :=
  let qy := q.yPart
  let qs := q.sPart
  Vector.ofFn fun i => sum fun j : Fin store.size =>
    qy[j] * (store.pair j).y[i] + store.theta * qs[j] * (store.pair j).s[i]

def wRow (store : Store α n cap) (i : Fin n) : Compact α store.size :=
  Compact.ofParts (Vector.ofFn fun j => (store.pair j).y[i])
    (Vector.ofFn fun j => store.theta * (store.pair j).s[i])

def wRows (store : Store α n cap) {m : Nat} (indices : Vector (Fin n) m) :
    Mat α m (store.size + store.size) :=
  indices.map store.wRow

/-! ### Products with `M` -/

/-- The product `M * v`: the first block row is eliminated through `D`, what remains is
solved with the factorization, and the first half follows from the second. -/
def middleTimes (store : Store α n cap) (v : Compact α store.size) :
    Compact α store.size :=
  match store.factor with
  | none => store.zeroCompact
  | some f =>
    let vy := v.yPart
    let vs := v.sPart
    let right : Vector α store.size := Vector.ofFn fun i =>
      vs[i] + sum fun j => if j < i then store.sy i j * vy[j] / store.sy j j else 0
    let ps : Vector α store.size := DenseSolver.solve f right
    let py : Vector α store.size := Vector.ofFn fun j =>
      ((sum fun i => if j < i then store.sy i j * ps[i] else 0) - vy[j]) / store.sy j j
    Compact.ofParts py ps

def middleInverse (store : Store α n cap) :
    Mat α (store.size + store.size) (store.size + store.size) :=
  let lower (i j : Fin store.size) : α := if j < i then store.sy i j else 0
  Mat.ofFn fun row col =>
    Fin.addCases
      (fun i => Fin.addCases
        (fun j => if i = j then -store.sy i i else 0)
        (fun j => lower j i) col)
      (fun i => Fin.addCases
        (fun j => lower i j)
        (fun j => store.theta * store.ss i j) col)
      row

/-! ### The matrix and its inverse -/

/-- The product `B * v`. -/
def applyForward (store : Store α n cap) (v : Vector α n) : Vector α n :=
  let scaled := v.map fun e => e * store.theta
  if store.isEmpty then
    scaled
  else
    scaled - store.wTimes (store.middleTimes (store.wTranspose v))

/-- The product of the inverse with `v`, for pairs given newest first: each pair acts
once on the way to `1 / theta` and once on the way back. -/
def twoLoop (theta : α) : List (Correction α n) → Vector α n → Vector α n
  | [], v => divide v theta
  | c :: older, v =>
    let a := c.rho * dot c.s v
    let inner := twoLoop theta older (addScaled v (-a) c.y)
    let b := c.rho * dot c.y inner
    addScaled inner (a - b) c.s

/-- The product of the inverse of `B` with `v`. -/
def applyInverse (store : Store α n cap) (v : Vector α n) : Vector α n :=
  twoLoop store.theta store.history.toList.reverse v

end Store

end BoxDescent
