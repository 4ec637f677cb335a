import BoxDescent.Scalar
import BoxDescent.Error

/-!
# Bounds on one variable

A variable is unbounded, bounded on one side, or held between two limits.  A limit
that is not finite is no limit on that side.
-/

namespace BoxDescent

inductive Bound (α : Type)
  | unbounded
  | atLeast (lower : α)
  | between (lower upper : α)
  | atMost (upper : α)
  deriving DecidableEq, Repr

namespace Bound

variable {α : Type}

/-! ### Access -/

def lower? : Bound α → Option α
  | atLeast l | between l _ => some l
  | unbounded | atMost _ => none

def upper? : Bound α → Option α
  | atMost u | between _ u => some u
  | unbounded | atLeast _ => none

def isBounded : Bound α → Bool
  | unbounded => false
  | _ => true

def isTwoSided : Bound α → Bool
  | between .. => true
  | _ => false

variable [Scalar α]

/-- Both limits are present and equal: the variable can never move. -/
def isFixed : Bound α → Bool
  | between l u => l == u
  | _ => false

/-! ### Classification -/

/-- A limit of a bound, if the value is finite. -/
def limit? (value : α) : Option α := if Scalar.isFinite value then some value else none

/-- The two limits, if both are present and the lower one exceeds the upper one. -/
def crossed? : Option α → Option α → Option (α × α)
  | some l, some u => if l ≤ u then none else some (l, u)
  | _, _ => none

def ofLimits : Option α → Option α → Bound α
  | none, none => unbounded
  | some l, none => atLeast l
  | none, some u => atMost u
  | some l, some u => between l u

/-- The bound that a lower and an upper value describe. -/
def classify (lower upper : α) : Except (Error α) (Bound α) :=
  match crossed? (limit? lower) (limit? upper) with
  | some (l, u) => .error (.inverted l u)
  | none => .ok (ofLimits (limit? lower) (limit? upper))

/-- Limits are finite, and two limits are in order. -/
def Valid (b : Bound α) : Prop :=
  (∀ l ∈ b.lower?, Scalar.isFinite l = true) ∧
    (∀ u ∈ b.upper?, Scalar.isFinite u = true) ∧
      crossed? b.lower? b.upper? = none

omit [Scalar α] in
theorem lower?_ofLimits (l u : Option α) : (ofLimits l u).lower? = l := by
  cases l <;> cases u <;> rfl

omit [Scalar α] in
theorem upper?_ofLimits (l u : Option α) : (ofLimits l u).upper? = u := by
  cases l <;> cases u <;> rfl

theorem isFinite_of_mem_limit? {v w : α} (h : w ∈ limit? v) :
    Scalar.isFinite w = true := by
  unfold limit? at h
  split at h
  · cases h
    assumption
  · cases h

theorem valid_ofLimits {l u : Option α} (hl : ∀ v ∈ l, Scalar.isFinite v = true)
    (hu : ∀ v ∈ u, Scalar.isFinite v = true) (h : crossed? l u = none) :
    (ofLimits l u).Valid := by
  unfold Valid
  rw [lower?_ofLimits, upper?_ofLimits]
  exact ⟨hl, hu, h⟩

theorem valid_unbounded : (unbounded : Bound α).Valid :=
  valid_ofLimits (l := none) (u := none) (fun _ h => nomatch h) (fun _ h => nomatch h) rfl

/-! ### Moving inside a bound -/

/-- The admitted value closest to `x`. -/
def clamp (b : Bound α) (x : α) : α :=
  match b with
  | unbounded => x
  | atLeast l => Scalar.larger x l
  | atMost u => Scalar.smaller x u
  | between l u => Scalar.smaller (Scalar.larger x l) u

/-- The slope `g` at `x`, cut to the distance from the limit that a move against it
would reach. -/
def clipSlope (b : Bound α) (x g : α) : α :=
  if g < 0 then
    match b.upper? with
    | some u => Scalar.larger g (x - u)
    | none => g
  else
    match b.lower? with
    | some l => Scalar.smaller g (x - l)
    | none => g

/-- The longest step, at most `cap`, that a move from `x` along `d` can take before
it reaches the limit ahead; zero from a point on the limit or beyond. -/
def reach (b : Bound α) (x d cap : α) : α :=
  if d < 0 then
    match b.lower? with
    | some l =>
      let room := l - x
      if 0 ≤ room then 0 else if d * cap < room then room / d else cap
    | none => cap
  else if 0 < d then
    match b.upper? with
    | some u =>
      let room := u - x
      if room ≤ 0 then 0 else if room < d * cap then room / d else cap
    | none => cap
  else
    cap

end Bound

end BoxDescent
