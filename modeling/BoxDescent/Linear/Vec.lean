import BoxDescent.Scalar

/-!
# Vectors and matrices

Vectors are `Vector α n`, matrices are vectors of rows.  Every sum runs from the
first index to the last and starts at zero.
-/

namespace BoxDescent

/-! ### Indices -/

/-- An index that carries its own bound needs no other proof. -/
instance instGetElemVectorFin {β : Type} {n : Nat} :
    GetElem (Vector β n) (Fin n) β fun _ _ => True where
  getElem u i _ := u[i.val]

@[simp, grind =] theorem getElem_eq_val {β : Type} {n : Nat} (u : Vector β n) (i : Fin n) :
    u[i] = u[i.val] := rfl

-- The literals `0` and `1` of `Fin` ask for a size that is not zero.  With these instances
-- the answer is one name and the same wherever the literal stands.
attribute [instance (1100)] Nat.instNeZeroSucc

instance (priority := 1200) neZero_add_two (k : Nat) : @NeZero Nat Zero.ofOfNat0 (k + 2) :=
  ⟨(k + 1).succ_ne_zero⟩

instance (priority := 1300) neZero_one : @NeZero Nat Zero.ofOfNat0 1 := ⟨Nat.succ_ne_zero 0⟩

instance (priority := 1300) neZero_two : @NeZero Nat Zero.ofOfNat0 2 := ⟨Nat.succ_ne_zero 1⟩

variable {α : Type} [Scalar α] {m n : Nat}

/-! ### Vectors -/

/-- The sum of a family, from the first index to the last. -/
def sum (f : Fin n → α) : α := Fin.foldl n (fun acc i => acc + f i) 0

def dot (u v : Vector α n) : α := sum fun i : Fin n => u[i] * v[i]

/-- The value `a` less the inner product of `u` and `v`, one product after the other. -/
def lessDot (a : α) (u v : Vector α n) : α :=
  Fin.foldl n (fun acc i => acc - u[i] * v[i]) a

/-- The vector `u + a * v`. -/
def addScaled (u : Vector α n) (a : α) (v : Vector α n) : Vector α n :=
  Vector.ofFn fun i => u[i] + a * v[i]

@[simp] theorem getElem_addScaled (u : Vector α n) (a : α) (v : Vector α n) (i : Fin n) :
    (addScaled u a v)[i] = u[i] + a * v[i] := by
  simp [addScaled]

def divide (v : Vector α n) (a : α) : Vector α n := v.map fun e => e / a

@[simp] theorem getElem_divide (v : Vector α n) (a : α) (i : Fin n) :
    (divide v a)[i] = v[i] / a := by
  simp [divide]

/-- The largest absolute value of an entry, entries that are not numbers left out. -/
def maxAbs (v : Vector α n) : α :=
  v.foldl (fun acc e => Scalar.larger acc (Scalar.abs e)) 0

def allFinite (v : Vector α n) : Bool := v.all Scalar.isFinite

/-! ### Matrices -/

/-- An `m × n` matrix, row by row. -/
abbrev Mat (α : Type) (m n : Nat) : Type := Vector (Vector α n) m

namespace Mat

def ofFn (f : Fin m → Fin n → α) : Mat α m n :=
  Vector.ofFn fun i => Vector.ofFn fun j => f i j

omit [Scalar α] in
@[simp] theorem getElem_ofFn (f : Fin m → Fin n → α) (i : Fin m) (j : Fin n) :
    (Mat.ofFn f)[i][j] = f i j := by
  simp [Mat.ofFn]

def zero : Mat α m n := Mat.ofFn fun _ _ => 0

/-- A matrix of the same shape with one value everywhere. -/
def fill (a : Mat α m n) (e : α) : Mat α m n := a.map fun row => row.map fun _ => e

theorem fill_zero (a : Mat α m n) : fill a 0 = zero := by
  apply Vector.ext
  intro i hi
  apply Vector.ext
  intro j hj
  simp [fill, zero, Mat.ofFn]

def mulVec (a : Mat α m n) (x : Vector α n) : Vector α m :=
  Vector.ofFn fun i => dot a[i] x

@[simp] theorem getElem_mulVec (a : Mat α m n) (x : Vector α n) (i : Fin m) :
    (mulVec a x)[i] = dot a[i] x := by
  simp [mulVec]

/-- The product of the transpose of `a` with `y`. -/
def transposeMulVec (a : Mat α m n) (y : Vector α m) : Vector α n :=
  Vector.ofFn fun j => sum fun i : Fin m => a[i][j] * y[i]

/-- The product of the transpose of `a` with `a`. -/
def gram (a : Mat α m n) : Mat α n n :=
  Mat.ofFn fun i j => sum fun r : Fin m => a[r][i] * a[r][j]

/-- The operator norm for vectors measured by their largest entry: the largest sum
of absolute values along a row. -/
def rowSumNorm (a : Mat α m n) : α :=
  a.foldl (fun acc row => Scalar.larger acc (sum fun j : Fin n => Scalar.abs row[j])) 0

def allFinite (a : Mat α m n) : Bool := a.all fun row => row.all Scalar.isFinite

/-- The same matrix as a square one, if it has as many rows as columns. -/
def square? (a : Mat α m n) : Option (Mat α m m) :=
  if h : n = m then some (h ▸ a) else none

end Mat

end BoxDescent
