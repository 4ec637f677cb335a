import BoxDescent.Error
import BoxDescent.Linear.Solver
import BoxDescent.History.Ring

/-!
# Curvature history

A store keeps the newest corrections, pairs of a step `s` and the change `y` of the
gradient along it, together with the inner products `s i · s j` and `s i · y j`, the
scaling `theta`, and a factorization of

    theta * Sᵀ S + L * D⁻¹ * Lᵀ

where `D` is the diagonal and `L` the strict lower triangle of `Sᵀ Y`.  The inner
products are updated by one row and one column for each pair that is admitted.
-/

namespace BoxDescent

/-- A step, the change of the gradient along it, and the reciprocal of their inner
product. -/
structure Correction (α : Type) (n : Nat) where
  s : Vector α n
  y : Vector α n
  rho : α

/-- At most `cap` corrections for `n` variables and what is derived from them. -/
structure Store (α : Type) [DenseSolver α] (n cap : Nat) where
  history : Ring (Correction α n) cap
  /-- Entry `(i, j)` is `s i · s j`. -/
  sts : Mat α cap cap
  /-- Entry `(i, j)` is `s i · y j`. -/
  sty : Mat α cap cap
  /-- The scaling of the initial matrix. -/
  theta : α
  factor : Option (DenseSolver.Factor α history.size)

/-- What became of a pair that was offered to a store. -/
inductive Admission (α : Type)
  /-- Its curvature does not suffice; the store is as before. -/
  | refused (sy yy : α)
  /-- It is the newest pair now. -/
  | appended
  /-- The pairs together could not be factorized; only this one is kept. -/
  | restarted
  /-- Not even this pair alone could be factorized; the store is empty. -/
  | lost
  deriving Repr

namespace Admission

def isAdmitted {α : Type} : Admission α → Bool
  | appended | restarted => true
  | refused .. | lost => false

end Admission

namespace Store

variable {α : Type} [Scalar α] [DenseSolver α] {n cap : Nat}

def empty : Store α n cap where
  history := Ring.empty
  sts := Mat.zero
  sty := Mat.zero
  theta := 1
  factor := none

/-- An empty store; it must have room for a pair. -/
def create (n cap : Nat) : Except (Error α) (Store α n cap) :=
  if cap = 0 then .error (.zeroCount .memory) else .ok empty

/-- Forgets every pair and what is derived from them. -/
def clear (store : Store α n cap) : Store α n cap where
  history := store.history.clear
  sts := store.sts.fill 0
  sty := store.sty.fill 0
  theta := 1
  factor := none

/-- A cleared store is one that has never held a pair. -/
@[simp] theorem clear_eq_empty (store : Store α n cap) : store.clear = empty := by
  unfold clear
  rw [Mat.fill_zero, Mat.fill_zero]
  rfl

def size (store : Store α n cap) : Nat := store.history.size

def isEmpty (store : Store α n cap) : Bool := store.size == 0

@[simp] theorem size_empty : (empty : Store α n cap).size = 0 := rfl

@[simp] theorem isEmpty_empty : (empty : Store α n cap).isEmpty = true := rfl

/-- The length of compact vectors. -/
def width (store : Store α n cap) : Nat := store.size + store.size

/-- The pair with `i` older ones before it. -/
def pair (store : Store α n cap) (i : Fin store.size) : Correction α n :=
  store.history.get i

def ss (store : Store α n cap) (i j : Fin store.size) : α :=
  store.sts[store.history.place i][store.history.place j]

def sy (store : Store α n cap) (i j : Fin store.size) : α :=
  store.sty[store.history.place i][store.history.place j]

/-! ### Admission -/

/-- A matrix without its first row and column, moved up and to the left; the last row
and column stay as they are. -/
def shiftUp (a : Mat α cap cap) : Mat α cap cap :=
  Mat.ofFn fun i j =>
    if h : i.val + 1 < cap ∧ j.val + 1 < cap then a[i.val + 1][j.val + 1] else a[i][j]

/-- A matrix of inner products whose row and column for the newest pair are computed
anew. -/
def refresh (history : Ring (Correction α n) cap) (a : Mat α cap cap)
    (entry : Correction α n → Correction α n → α) : Mat α cap cap :=
  Mat.ofFn fun i j =>
    if h : i.val < history.size ∧ j.val < history.size then
      if i.val + 1 = history.size ∨ j.val + 1 = history.size then
        entry (history.get ⟨i, h.1⟩) (history.get ⟨j, h.2⟩)
      else
        a[i][j]
    else
      a[i][j]

/-- The store with one more pair, not yet factorized; the oldest pair gives way in a
full store. -/
def append (store : Store α n cap) (c : Correction α n) (theta : α) : Store α n cap :=
  let history := store.history.push c
  let sts := if store.history.isFull then shiftUp store.sts else store.sts
  let sty := if store.history.isFull then shiftUp store.sty else store.sty
  { history := history
    sts := refresh history sts fun a b => dot a.s b.s
    sty := refresh history sty fun a b => dot a.s b.y
    theta := theta
    factor := none }

/-- Entry `(i, j)` of `theta * Sᵀ S + L * D⁻¹ * Lᵀ`, for `j ≤ i`. -/
def gramEntry (store : Store α n cap) (i j : Fin store.size) : α :=
  Fin.foldl store.size
    (fun acc l =>
      if l < j then acc + store.sy i l * store.sy j l / store.sy l l else acc)
    (store.theta * store.ss i j)

/-- The matrix `theta * Sᵀ S + L * D⁻¹ * Lᵀ`, from its lower triangle. -/
def gramMatrix (store : Store α n cap) : Mat α store.size store.size :=
  Mat.ofFn fun i j => if j ≤ i then store.gramEntry i j else store.gramEntry j i

/-- The store with the factorization of its pairs; `none` if there is none. -/
def factorize? (store : Store α n cap) : Option (Store α n cap) :=
  (DenseSolver.factor store.gramMatrix).map fun f => { store with factor := some f }

/-- The curvature of a pair suffices: `s · y` exceeds a tiny multiple of `y · y`, which
is finite. -/
def hasCurvature (sy yy : α) : Bool :=
  decide (sy > Scalar.epsilon * yy) && Scalar.isFinite yy

/-- Offers a pair.  If the pairs together cannot be factorized, only the new one is
kept; if that fails too, none is. -/
def push (store : Store α n cap) (s y : Vector α n) : Store α n cap × Admission α :=
  let sy := dot s y
  let yy := dot y y
  if hasCurvature sy yy then
    let c : Correction α n := { s := s, y := y, rho := 1 / sy }
    match (store.append c (yy / sy)).factorize? with
    | some next => (next, .appended)
    | none =>
      match (store.clear.append c (yy / sy)).factorize? with
      | some next => (next, .restarted)
      | none => (store.clear, .lost)
  else
    (store, .refused sy yy)

end Store

end BoxDescent
