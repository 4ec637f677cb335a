import Mathlib.Data.List.Induction
import BoxDescent.Proofs.History.Consistency

/-!
# Runs of a store

A store comes to be from the empty one by offers of pairs and by being cleared.  Every
store that comes to be so is consistent.
-/

namespace BoxDescent

namespace Store

/-- What changes a store. -/
inductive Operation (α : Type) (n : Nat)
  | offer (s y : Vector α n)
  | clear

variable {α : Type} [Scalar α] [DenseSolver α] {n cap : Nat}

def perform (store : Store α n cap) : Operation α n → Store α n cap
  | .offer s y => (store.push s y).1
  | .clear => store.clear

/-- The store after the given operations, from the empty one. -/
def after (ops : List (Operation α n)) : Store α n cap := ops.foldl perform empty

theorem after_append (ops : List (Operation α n)) (op : Operation α n) :
    (after (ops ++ [op]) : Store α n cap) = (after ops).perform op := by
  simp only [after, List.foldl_append, List.foldl_cons, List.foldl_nil]

/-- What was before a clear leaves no trace. -/
theorem after_clear (prior ops : List (Operation α n)) :
    (after (prior ++ .clear :: ops) : Store α n cap) = after ops := by
  rw [after, List.foldl_append, List.foldl_cons, perform, clear_eq_empty]
  rfl

theorem Consistent.perform {store : Store α n cap} (h : store.Consistent)
    (op : Operation α n) : (store.perform op).Consistent := by
  cases op with
  | offer s y => exact h.push s y
  | clear =>
    rw [Store.perform, clear_eq_empty]
    exact consistent_empty (Nat.zero_lt_of_lt h.aligned.start_lt)

theorem consistent_after (hcap : 0 < cap) (ops : List (Operation α n)) :
    (after ops : Store α n cap).Consistent := by
  induction ops using List.reverseRecOn with
  | nil => exact consistent_empty hcap
  | append_singleton ops op ih =>
    rw [after_append]
    exact ih.perform op

end Store

end BoxDescent
