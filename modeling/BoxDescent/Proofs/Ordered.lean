import BoxDescent.Box
import BoxDescent.Proofs.Exact

/-!
# Projection by the laws of the order

That a projected point lies in its box takes three laws of the comparisons and nothing of the
arithmetic.  A value that is not a number differs from itself, and `larger` and `smaller`
pass it over.
-/

namespace BoxDescent

/-- Finite values are numbers, and of two numbers one is not larger than the other. -/
class OrderedScalar (α : Type) [Scalar α] : Prop where
  beq_of_isFinite : ∀ {a : α}, Scalar.isFinite a = true → (a == a) = true
  lt_irrefl : ∀ a : α, ¬a < a
  le_of_not_lt : ∀ {a b : α}, (a == a) = true → (b == b) = true → ¬a < b → b ≤ a

instance : OrderedScalar ℝ where
  beq_of_isFinite _ := decide_eq_true rfl
  lt_irrefl := lt_irrefl
  le_of_not_lt _ _ := le_of_not_gt

variable {α : Type} [Scalar α] [OrderedScalar α] {a b : α}

theorem le_self (ha : (a == a) = true) : a ≤ a :=
  OrderedScalar.le_of_not_lt ha ha (OrderedScalar.lt_irrefl a)

namespace Scalar

theorem le_larger (hb : (b == b) = true) : b ≤ larger a b := by
  unfold larger
  split
  · exact le_self hb
  · rename_i hlt
    split
    · rename_i ha
      exact OrderedScalar.le_of_not_lt ha hb hlt
    · exact le_self hb

theorem smaller_le (hb : (b == b) = true) : smaller a b ≤ b := by
  unfold smaller
  split
  · exact le_self hb
  · rename_i hlt
    split
    · rename_i ha
      exact OrderedScalar.le_of_not_lt hb ha hlt
    · exact le_self hb

omit [OrderedScalar α] in
theorem smaller_cases (a b : α) : smaller a b = a ∨ smaller a b = b := by
  unfold smaller
  split
  · exact .inr rfl
  · split
    · exact .inl rfl
    · exact .inr rfl

end Scalar

namespace Bound

/-- A projected value lies between the limits. -/
theorem clamp_between {k : Bound α} (hk : k.Valid) (a : α) :
    (∀ l ∈ k.lower?, l ≤ k.clamp a) ∧ (∀ u ∈ k.upper?, k.clamp a ≤ u) := by
  obtain ⟨hlower, hupper, hcrossed⟩ := hk
  constructor
  · intro l hl
    have hnum := OrderedScalar.beq_of_isFinite (hlower l hl)
    cases k with
    | unbounded => cases hl
    | atMost u => cases hl
    | atLeast l' =>
      cases hl
      exact Scalar.le_larger hnum
    | between l' u =>
      cases hl
      have hle : l ≤ u := by
        by_contra hgt
        have hsome : crossed? (some l) (some u) = some (l, u) := if_neg hgt
        rw [lower?, upper?, hsome] at hcrossed
        cases hcrossed
      rcases Scalar.smaller_cases (Scalar.larger a l) u with he | he
      · rw [clamp, he]
        exact Scalar.le_larger hnum
      · rw [clamp, he]
        exact hle
  · intro u hu
    have hnum := OrderedScalar.beq_of_isFinite (hupper u hu)
    cases k with
    | unbounded => cases hu
    | atLeast l => cases hu
    | atMost u' =>
      cases hu
      exact Scalar.smaller_le hnum
    | between l u' =>
      cases hu
      exact Scalar.smaller_le hnum

end Bound

namespace Box

variable {n : Nat}

omit [OrderedScalar α] in
/-- Every entry of the point lies between the limits of its variable. -/
def Covers (box : Box α n) (x : Vector α n) : Prop :=
  ∀ i : Fin n, (∀ l ∈ (box.kind i).lower?, l ≤ x[i]) ∧ (∀ u ∈ (box.kind i).upper?, x[i] ≤ u)

theorem covers_project (box : Box α n) (x : Vector α n) : box.Covers (box.project x) := by
  intro i
  rw [getElem_project]
  exact Bound.clamp_between (box.kind_valid i) x[i]

/-! ### Boxes from pairs -/

omit [OrderedScalar α]

theorem limits_of_ofValues {values : Values α n} {box : Box α n} (h : ofValues values = .ok box)
    (i : Fin n) :
    (box.kind i).lower? = lowerLimit values i ∧ (box.kind i).upper? = upperLimit values i := by
  unfold ofValues at h
  split at h
  · cases h
  · cases h
    rw [kind_ofFn]
    exact ⟨Bound.lower?_ofLimits _ _, Bound.upper?_ofLimits _ _⟩

/-- A box from pairs has the finite ones of their values as limits. -/
theorem limits_of_ofPairs {ps : Array (α × α)} {box : Box α n} (h : ofPairs (some ps) n = .ok box)
    {i : Fin n} {limits : α × α} (hi : ps[i.val]? = some limits) :
    (box.kind i).lower? = Bound.limit? limits.1 ∧ (box.kind i).upper? = Bound.limit? limits.2 := by
  unfold ofPairs at h
  dsimp only at h
  split at h
  · obtain ⟨hlt, hpair⟩ := Array.getElem?_eq_some_iff.mp hi
    obtain ⟨hlower, hupper⟩ := limits_of_ofValues h i
    rw [hlower, hupper, lowerLimit, upperLimit, getElem_eq_val, Vector.getElem_ofFn]
    rw [← hpair]
    exact ⟨rfl, rfl⟩
  · cases h

end Box

end BoxDescent
