import BoxDescent.Linear.Solver

/-!
# Cholesky factorization

The factor `L` of `a = L * Lᵀ`, built one column at a time: the first pivot, the
column below it, and the factor of what remains once their product is taken away.
Only the lower triangle of the matrix is read.
-/

namespace BoxDescent

variable {α : Type} [Scalar α] {k : Nat}

/-- A lower triangular matrix with positive diagonal, by columns. -/
inductive Cholesky (α : Type) : Nat → Type
  | nil : Cholesky α 0
  | cons {k : Nat} (pivot : α) (column : Vector α k) (rest : Cholesky α k) :
      Cholesky α (k + 1)

namespace Cholesky

/-- The factor of the symmetric matrix with the lower triangle of `a`; `none` if a
pivot is not positive. -/
def ofLower? : {k : Nat} → Mat α k k → Option (Cholesky α k)
  | 0, _ => some nil
  | k + 1, a =>
    let head := a[(0 : Fin (k + 1))][(0 : Fin (k + 1))]
    if 0 < head then
      let pivot := Scalar.sqrt head
      let inverse := 1 / pivot
      let column : Vector α k :=
        Vector.ofFn fun i => a[i.succ][(0 : Fin (k + 1))] * inverse
      let rest : Mat α k k :=
        Mat.ofFn fun i j => a[i.succ][j.succ] - column[i] * column[j]
      (ofLower? rest).map (cons pivot column)
    else
      none

/-- The factor of `a`; `none` if an entry is not finite or `a` is not positive
definite. -/
def ofMat? (a : Mat α k k) : Option (Cholesky α k) :=
  if Mat.allFinite a then ofLower? a else none

/-- The solution of `L * Lᵀ * x = b`. -/
def solve : {k : Nat} → Cholesky α k → Vector α k → Vector α k
  | 0, nil, _ => #v[]
  | k + 1, cons pivot column rest, b =>
    let inverse := 1 / pivot
    let first := b[(0 : Fin (k + 1))] * inverse
    let later : Vector α k := Vector.ofFn fun i => b[i.succ] - first * column[i]
    let tail := solve rest later
    let head := lessDot first column tail * inverse
    Vector.ofFn fun i => Fin.cases head (fun j => tail[j]) i

end Cholesky

end BoxDescent
