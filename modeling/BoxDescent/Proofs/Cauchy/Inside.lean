import BoxDescent.Cauchy.Point
import BoxDescent.Proofs.Linear.Coordinates
import BoxDescent.Proofs.Projection

/-!
# The walk stays in the box

A walk along the path from a point of the box stays in the box, whatever the products with
the model matrix are: a variable stops where it started or on one of its limits, and one that
still moves at the end is clamped.
-/

namespace BoxDescent

variable {n cap : Nat} {box : Box ℝ n}

theorem Box.contains_set {x : Vector ℝ n} {i : Fin n} {a : ℝ} (hx : box.contains x = true)
    (ha : (box.kind i).Admits a) : box.contains (x.set i a i.isLt) = true := by
  rw [contains_iff] at hx ⊢
  intro j
  rw [← coords_apply, coords_set]
  rcases eq_or_ne j i with rfl | hne
  · rw [Function.update_self]
    exact ha
  · rw [Function.update_of_ne hne]
    exact hx j

variable [DenseSolver ℝ] {store : Store ℝ n cap}

namespace Walk

variable {path : Path ℝ n}

omit [DenseSolver ℝ] in
theorem admits_stopAt (hstart : box.contains path.start = true) (i : Fin n) (v : ℝ) :
    (box.kind i).Admits (stopAt box path i v) := by
  have hvalid := box.kind_valid i
  unfold stopAt
  split
  · cases hu : (box.kind i).upper? with
    | none => exact Box.contains_iff.mp hstart i
    | some u => exact Bound.admits_upper hvalid hu
  · cases hl : (box.kind i).lower? with
    | none => exact Box.contains_iff.mp hstart i
    | some l => exact Bound.admits_lower hvalid hl

theorem point_bend (w : Walk ℝ n store.size) (dt : ℝ) (i : Fin n) (v z : ℝ) :
    (bend store w dt i v z).point = w.point := by
  unfold bend
  dsimp only
  split <;> rfl

/-- A turn that does not stop before the breakpoint stops its variable there and no other. -/
theorem point_turn {w w' : Walk ℝ n store.size} {b : Breakpoint ℝ n}
    {rest : List (Breakpoint ℝ n)}
    (h : w.turn box store path b rest = .finish w' ∨ w.turn box store path b rest = .onward w') :
    w'.point = w.point.set b.index (stopAt box path b.index w.velocity[b.index])
      b.index.isLt := by
  unfold turn at h
  dsimp only at h
  split at h
  · rcases h with h | h <;> cases h
  · split at h
    · rcases h with h | h
      · cases h
        rfl
      · cases h
    · rcases h with h | h
      · cases h
      · cases h
        exact point_bend _ _ _ _ _

theorem contains_run (hstart : box.contains path.start = true) (bs : List (Breakpoint ℝ n))
    {w : Walk ℝ n store.size} (hw : box.contains w.point = true) :
    box.contains (run box store path bs w).1.point = true := by
  induction bs generalizing w with
  | nil => exact hw
  | cons b rest ih =>
    have hstop := Box.contains_set hw (admits_stopAt hstart b.index w.velocity[b.index])
    rw [run]
    split
    · exact hw
    · rename_i w' hturn
      rw [point_turn (.inl hturn)]
      exact hstop
    · rename_i w' hturn
      apply ih
      rw [point_turn (.inr hturn)]
      exact hstop

end Walk

namespace CauchySearch

theorem contains_ofWalk (path : Path ℝ n) {w : Walk ℝ n store.size}
    (hw : box.contains w.point = true) (exhausted : Bool) :
    box.contains (ofWalk box store path w exhausted).xc = true := by
  cases exhausted with
  | true => exact hw
  | false =>
    rw [Box.contains_iff]
    intro i
    simp only [ofWalk, Bool.false_eq_true, if_false, getElem_eq_val, Vector.getElem_ofFn]
    split
    · exact Box.contains_iff.mp hw i
    · exact Bound.admits_clamp (box.kind_valid i) _

theorem contains_xc {x : Vector ℝ n} (hx : box.contains x = true) (store : Store ℝ n cap)
    (g : Vector ℝ n) : box.contains (of box store x g).xc = true := by
  have hstart : box.contains (Path.of box x g).start = true := hx
  unfold of
  dsimp only
  split
  · exact hstart
  · exact contains_ofWalk _ (Walk.contains_run hstart _ hstart) _

end CauchySearch

end BoxDescent
