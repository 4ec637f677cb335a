import BoxDescent.Linear.Cholesky

/-!
# Diagonal pivoting

The solution of a symmetric system that may be indefinite.  The variable with the
largest diagonal entry is eliminated by itself if that entry is large enough against
the rest of its column, and otherwise together with the variable of the largest entry
there.  Rows and columns change places together, so that what remains is symmetric
again.  Pivots are inverted before they are used: a pivot without a finite inverse
leaves no finite solution.
-/

namespace BoxDescent

variable {α : Type} [Scalar α] {k : Nat}

namespace Mat

/-- The matrix with two rows exchanged, and the columns with the same indices. -/
def exchange (a : Mat α k k) (i j : Fin k) : Mat α k k :=
  (a.swap i j i.isLt j.isLt).map fun row => row.swap i j i.isLt j.isLt

/-- The symmetric matrix with the lower triangle of `a`. -/
def fromLower (a : Mat α k k) : Mat α k k :=
  Mat.ofFn fun i j => if j ≤ i then a[i][j] else a[j][i]

end Mat

namespace DiagonalPivoting

/-! ### Choice of the pivot -/

/-- The variables that are eliminated next. -/
inductive Pivot (k : Nat)
  | single (r : Fin k)
  | double (r s : Fin k)
  deriving Repr

/-- The share of the largest entry beside it that a single pivot must reach.  It bounds
the growth of one double elimination by that of two single ones. -/
def threshold : α := (1 + Scalar.sqrt 17.0) * 0.125

/-- The index of the diagonal entry that is largest in absolute value, the first of
such entries. -/
def largestDiagonal (a : Mat α (k + 1) (k + 1)) : Fin (k + 1) :=
  Fin.foldl (k + 1) (fun best i =>
    if Scalar.abs a[best][best] < Scalar.abs a[i][i] then i else best) 0

/-- The largest absolute value in column `r` beside the diagonal, and its first row; row
`r` itself where all are zero. -/
def largestBeside (a : Mat α k k) (r : Fin k) : Fin k × α :=
  Fin.foldl k (fun best i =>
    let size := Scalar.abs a[i][r]
    if i ≠ r ∧ best.2 < size then (i, size) else best) (r, 0)

/-- The pivot with which the elimination goes on. -/
def choose (a : Mat α (k + 1) (k + 1)) : Pivot (k + 1) :=
  let r := largestDiagonal a
  let own := Scalar.abs a[r][r]
  let (s, beside) := largestBeside a r
  let beyond := (largestBeside a s).2
  if s = r ∨ threshold * beside ≤ own ∨ threshold * beside * (beside / beyond) ≤ own then
    .single r
  else
    .double r s

/-! ### Elimination -/

/-- The solution of the system with rows `d, e` and `e, f` and the right-hand side
`u, v`. -/
def solvePair (d e f u v : α) : α × α :=
  let inverse := 1 / e
  let d' := d * inverse
  let f' := f * inverse
  let u' := u * inverse
  let v' := v * inverse
  let scale := 1 / (d' * f' - 1)
  ((f' * u' - v') * scale, (d' * v' - u') * scale)

/-- Where index `s` is found after `r` and the first index have changed places. -/
def afterExchange (r s : Fin (k + 1)) : Fin (k + 1) := if s = 0 then r else s

/-- The solution of `a * x = b` for a symmetric matrix. -/
def solve : {k : Nat} → Mat α k k → Vector α k → Vector α k
  | 0, _, b => b
  | 1, a, b =>
    let inverse := (1 : α) / a[(0 : Fin 1)][(0 : Fin 1)]
    b.map fun e => e * inverse
  | k + 2, a, b =>
    match choose a with
    | .single r =>
      let a := a.exchange 0 r
      let b := b.swap 0 r
      let inverse := (1 : α) / a[0][0]
      let factor : Vector α (k + 1) := Vector.ofFn fun i => a[i.succ][0] * inverse
      let rest : Mat α (k + 1) (k + 1) :=
        Mat.ofFn fun i j => a[i.succ][j.succ] - factor[i] * a[j.succ][0]
      let right : Vector α (k + 1) := Vector.ofFn fun i => b[i.succ] - factor[i] * b[0]
      let tail := solve rest right
      let head := lessDot (b[0] * inverse) factor tail
      let x : Vector α (k + 2) := Vector.ofFn (Fin.cases head fun j => tail[j])
      x.swap 0 r
    | .double r s =>
      let s := afterExchange r s
      let a := (a.exchange 0 r).exchange 1 s
      let b := (b.swap 0 r).swap 1 s
      let pair (u v : α) := solvePair a[0][0] a[1][0] a[1][1] u v
      let factor : Vector (α × α) k :=
        Vector.ofFn fun i => pair a[i.succ.succ][0] a[i.succ.succ][1]
      let rest : Mat α k k := Mat.ofFn fun i j =>
        a[i.succ.succ][j.succ.succ] - factor[i].1 * a[j.succ.succ][0]
          - factor[i].2 * a[j.succ.succ][1]
      let right : Vector α k :=
        Vector.ofFn fun i => b[i.succ.succ] - factor[i].1 * b[0] - factor[i].2 * b[1]
      let tail := solve rest right
      let own := pair b[0] b[1]
      let first := lessDot own.1 (factor.map Prod.fst) tail
      let second := lessDot own.2 (factor.map Prod.snd) tail
      let x : Vector α (k + 2) :=
        Vector.ofFn (Fin.cases first (Fin.cases second fun j => tail[j]))
      (x.swap 1 s).swap 0 r

end DiagonalPivoting

/-- Cholesky factorization for positive definite matrices, diagonal pivoting for the
others.  Only the lower triangle of a matrix is read. -/
abbrev DenseSolver.symmetric (α : Type) [Scalar α] : DenseSolver α where
  Factor := Cholesky α
  factor := Cholesky.ofMat?
  solve := Cholesky.solve
  propose a b := DiagonalPivoting.solve (Mat.fromLower a) b

instance : DenseSolver Float := DenseSolver.symmetric Float

end BoxDescent
