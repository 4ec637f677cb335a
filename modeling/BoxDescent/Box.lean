import BoxDescent.Linear.Vec
import BoxDescent.Bound

/-!
# Boxes

A box gives every variable its bounds.  Its limits are finite and in order, so every
box holds a point.  Points are moved onto a box coordinate by coordinate.
-/

namespace BoxDescent

structure Box (α : Type) [Scalar α] (n : Nat) where
  kinds : Vector (Bound α) n
  /-- Limits are finite and in order. -/
  valid : ∀ i : Fin n, (kinds[i]).Valid

namespace Box

variable {α : Type} [Scalar α] {n : Nat}

def kind (box : Box α n) (i : Fin n) : Bound α := box.kinds[i]

theorem kind_valid (box : Box α n) (i : Fin n) : (box.kind i).Valid := box.valid i

def ofFn (f : Fin n → Bound α) (h : ∀ i, (f i).Valid) : Box α n where
  kinds := Vector.ofFn f
  valid i := by
    rw [getElem_eq_val, Vector.getElem_ofFn]
    exact h i

@[simp] theorem kind_ofFn (f : Fin n → Bound α) (h : ∀ i, (f i).Valid) (i : Fin n) :
    (ofFn f h).kind i = f i := by
  simp [kind, ofFn]

/-! ### Construction -/

def unbounded (n : Nat) : Box α n := ofFn (fun _ => .unbounded) fun _ => Bound.valid_unbounded

@[simp] theorem kind_unbounded (i : Fin n) :
    (unbounded n : Box α n).kind i = .unbounded := by
  simp [unbounded]

/-- The lower and upper values given for each variable, where there are any. -/
abbrev Values (α : Type) (n : Nat) : Type := Vector (Option α × Option α) n

/-- The lower limit that the values give variable `i`. -/
def lowerLimit (values : Values α n) (i : Fin n) : Option α :=
  values[i].1.bind Bound.limit?

def upperLimit (values : Values α n) (i : Fin n) : Option α :=
  values[i].2.bind Bound.limit?

/-- The first variable whose lower limit exceeds its upper limit, with the two. -/
def firstCrossed? (values : Values α n) : Option (Fin n × α × α) :=
  (List.finRange n).findSome? fun i =>
    (Bound.crossed? (lowerLimit values i) (upperLimit values i)).map fun p => (i, p)

theorem crossed?_of_firstCrossed? {values : Values α n}
    (h : firstCrossed? values = none) (i : Fin n) :
    Bound.crossed? (lowerLimit values i) (upperLimit values i) = none := by
  have := List.findSome?_eq_none_iff.1 h i (List.mem_finRange i)
  simpa using this

theorem isFinite_of_mem_bind {v : Option α} {w : α} (h : w ∈ v.bind Bound.limit?) :
    Scalar.isFinite w = true := by
  obtain ⟨u, -, hu⟩ := Option.bind_eq_some_iff.1 h
  exact Bound.isFinite_of_mem_limit? hu

/-- The box that lower and upper values describe; it names the first variable whose
limits are out of order. -/
def ofValues (values : Values α n) : Except (Error α) (Box α n) :=
  match h : firstCrossed? values with
  | some (i, l, u) => .error (.invertedAt i l u)
  | none =>
    .ok <| ofFn (fun i => Bound.ofLimits (lowerLimit values i) (upperLimit values i))
      fun i => Bound.valid_ofLimits (fun _ => isFinite_of_mem_bind)
        (fun _ => isFinite_of_mem_bind) (crossed?_of_firstCrossed? h i)

/-- The box with one pair of values per variable; without a list of pairs nothing is
bounded. -/
def ofPairs (pairs : Option (Array (α × α))) (n : Nat) : Except (Error α) (Box α n) :=
  match pairs with
  | none => .ok (unbounded n)
  | some ps =>
    if h : ps.size = n then
      ofValues (Vector.ofFn fun i : Fin n => (some (ps[i]).1, some (ps[i]).2))
    else
      .error (.pairCount n ps.size)

/-- A list of values for one side has the right length, or is absent. -/
def checkSide (side : Side) (values : Option (Array α)) (n : Nat) :
    Except (Error α) (Vector (Option α) n) :=
  match values with
  | none => .ok (Vector.replicate n none)
  | some vs =>
    if h : vs.size = n then
      .ok (Vector.ofFn fun i : Fin n => some vs[i])
    else
      .error (.sideLength side vs.size n)

/-- The box with separate lists of lower and upper values; a side without a list has
no limits. -/
def ofSides (lower upper : Option (Array α)) (n : Nat) : Except (Error α) (Box α n) :=
  match checkSide .lower lower n, checkSide .upper upper n with
  | .error e, _ => .error e
  | .ok _, .error e => .error e
  | .ok ls, .ok us => ofValues (Vector.ofFn fun i : Fin n => (ls[i], us[i]))

/-- The bounds of the first `m` variables; those beyond the box are unbounded. -/
def leading (box : Box α n) (m : Nat) : Box α m :=
  ofFn (fun i => if h : i < n then box.kind ⟨i, h⟩ else .unbounded) fun i => by
    split
    · exact box.kind_valid _
    · exact Bound.valid_unbounded

/-! ### Questions about a box -/

def isConstrained (box : Box α n) : Bool := box.kinds.any Bound.isBounded

/-- Every variable has both limits. -/
def isBoxed (box : Box α n) : Bool := box.kinds.all Bound.isTwoSided

/-! ### Points and directions -/

/-- The point of the box closest to `x`. -/
def project (box : Box α n) (x : Vector α n) : Vector α n :=
  Vector.ofFn fun i => (box.kind i).clamp x[i]

@[simp] theorem getElem_project (box : Box α n) (x : Vector α n) (i : Fin n) :
    (box.project x)[i] = (box.kind i).clamp x[i] := by
  simp [project]

/-- Whether projecting leaves `x` where it is. -/
def contains (box : Box α n) (x : Vector α n) : Bool :=
  (List.finRange n).all fun i => (box.kind i).clamp x[i] == x[i]

/-- The gradient with every component that pushes against a limit cut to the
distance from it. -/
def projectedGradient (box : Box α n) (x g : Vector α n) : Vector α n :=
  Vector.ofFn fun i => (box.kind i).clipSlope x[i] g[i]

@[simp] theorem getElem_projectedGradient (box : Box α n) (x g : Vector α n) (i : Fin n) :
    (box.projectedGradient x g)[i] = (box.kind i).clipSlope x[i] g[i] := by
  simp [projectedGradient]

def projectedGradientNorm (box : Box α n) (x g : Vector α n) : α :=
  maxAbs (box.projectedGradient x g)

/-- The largest step, at most `cap`, for which `x + step * d` stays in the box. -/
def maxStep (box : Box α n) (x d : Vector α n) (cap : α) : α :=
  Fin.foldl n (fun acc i => (box.kind i).reach x[i] d[i] acc) cap

end Box

end BoxDescent
