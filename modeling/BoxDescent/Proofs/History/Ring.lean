import Mathlib.Data.List.DropRight
import BoxDescent.History.Ring

/-!
# Contents of a ring buffer

A buffer into which elements were pushed one after the other is aligned: it starts at its
first place until it is full.  Then a push adds to the end of the content and, on a full
buffer, takes away the oldest element; and the element with `i` older ones is entry `i`
of the content.

So after any pushes and clears a buffer holds the newest elements pushed since the last clear,
whichever way it is read: from the oldest one on, from the newest one back, or by age.
-/

namespace BoxDescent

namespace Ring

variable {β : Type} {cap : Nat}

/-- The oldest element lies in one of the places, in the first one while there is room. -/
structure Aligned (r : Ring β cap) : Prop where
  start_lt : r.start < cap
  start_eq_zero : r.size < cap → r.start = 0

theorem aligned_empty (h : 0 < cap) : (empty : Ring β cap).Aligned where
  start_lt := h
  start_eq_zero _ := rfl

theorem isFull_eq_false_of_lt {r : Ring β cap} (h : r.size < cap) : r.isFull = false := by
  unfold isFull
  rw [beq_eq_false_iff_ne]
  omega

theorem isFull_of_not_lt {r : Ring β cap} (h : ¬r.size < cap) : r.isFull = true := by
  have hle : r.size ≤ cap := r.size_le
  unfold isFull
  rw [beq_iff_eq]
  omega

theorem Aligned.start_le {r : Ring β cap} (hr : r.Aligned) : r.start ≤ r.size := by
  have hlt := hr.start_lt
  have hle : r.size ≤ cap := r.size_le
  by_cases h : r.size < cap
  · have h0 := hr.start_eq_zero h
    omega
  · omega

@[simp] theorem val_place (r : Ring β cap) (i : Fin r.size) : (r.place i).val = i.val := rfl

theorem length_toList (r : Ring β cap) : r.toList.length = r.size := by
  simp only [toList, size, List.length_append, List.length_drop, List.length_take,
    Array.length_toList]
  omega

theorem Aligned.push {r : Ring β cap} (hr : r.Aligned) (x : β) : (r.push x).Aligned := by
  have hlt := hr.start_lt
  have hle : r.slots.size ≤ cap := r.size_le
  unfold Ring.push
  split
  · rename_i h
    refine ⟨hlt, ?_⟩
    intro _
    exact hr.start_eq_zero h
  · rename_i h
    refine ⟨Nat.mod_lt _ (by omega), ?_⟩
    intro hs
    simp only [size, Array.size_setIfInBounds] at hs
    omega

/-! ### Pushing -/

theorem toList_push_of_lt {r : Ring β cap} (hr : r.Aligned) (x : β) (h : r.size < cap) :
    (r.push x).toList = r.toList ++ [x] := by
  have h0 := hr.start_eq_zero h
  have hs : r.slots.size < cap := h
  simp [Ring.push, toList, hs, h0]

theorem toList_push_of_full {r : Ring β cap} (hr : r.Aligned) (x : β) (h : ¬r.size < cap) :
    (r.push x).toList = r.toList.tail ++ [x] := by
  have hs : ¬r.slots.size < cap := h
  have hlt := hr.start_lt
  have hlen : r.slots.toList.length = cap := by
    have hle := r.size_le
    rw [Array.length_toList]
    omega
  have hdrop : r.slots.toList.drop r.start =
      r.slots.toList[r.start] :: r.slots.toList.drop (r.start + 1) :=
    List.drop_eq_getElem_cons (by omega)
  have htail : r.toList.tail =
      r.slots.toList.drop (r.start + 1) ++ r.slots.toList.take r.start := by
    rw [toList, hdrop]
    rfl
  have hset : (r.slots.setIfInBounds r.start x).toList = r.slots.toList.set r.start x := by
    simp
  rw [htail]
  simp only [Ring.push, dif_neg hs, toList, hset]
  by_cases hend : r.start + 1 = cap
  · rw [hend, Nat.mod_self, List.drop_zero, List.take_zero, List.append_nil,
      List.drop_eq_nil_of_le (by omega), List.nil_append]
    rw [List.set_eq_take_append_cons_drop, if_pos (by omega), hend,
      List.drop_eq_nil_of_le (by omega)]
  · rw [Nat.mod_eq_of_lt (by omega), List.drop_set_of_lt (by omega), List.append_assoc]
    congr 1
    rw [List.take_add_one, List.take_set_of_le (Nat.le_refl _), List.getElem?_set_self (by omega)]
    rfl

/-- A push adds to the end, and what there is no room for is taken from the front. -/
theorem toList_push {r : Ring β cap} (hr : r.Aligned) (x : β) :
    (r.push x).toList = (r.toList ++ [x]).rtake cap := by
  have hlen : (r.toList ++ [x]).length = r.size + 1 := by
    rw [List.length_append, length_toList, List.length_singleton]
  by_cases h : r.size < cap
  · have hzero : r.size + 1 - cap = 0 := by omega
    rw [toList_push_of_lt hr x h, List.rtake, hlen, hzero, List.drop_zero]
  · have hlt := hr.start_lt
    have hle : r.size ≤ cap := r.size_le
    have hone : r.size + 1 - cap = 1 := by omega
    have hpos : 1 ≤ r.toList.length := by
      rw [length_toList]
      omega
    rw [toList_push_of_full hr x h, List.rtake, hlen, hone, List.drop_append_of_le_length hpos,
      List.drop_one]

theorem size_push_of_lt {r : Ring β cap} (x : β) (h : r.size < cap) :
    (r.push x).size = r.size + 1 := by
  rw [size_push]
  omega

theorem size_push_of_full {r : Ring β cap} (x : β) (h : ¬r.size < cap) :
    (r.push x).size = r.size := by
  have hle : r.size ≤ cap := r.size_le
  rw [size_push]
  omega

/-! ### Reading -/

theorem getElem_toList {r : Ring β cap} (hr : r.Aligned) (i : Fin r.size)
    (h : i.val < r.toList.length) : r.toList[i.val] = r.get i := by
  have hi : i.val < r.slots.size := i.isLt
  have hle : r.start ≤ r.slots.size := hr.start_le
  symm
  simp only [get, position, toList, List.getElem_append, List.length_drop, Array.length_toList,
    List.getElem_drop, List.getElem_take, Array.getElem_toList, Fin.getElem_fin]
  split
  · congr 1
    rw [Nat.mod_eq_of_lt (by omega), Nat.add_comm]
  · congr 1
    rw [Nat.mod_eq_sub_mod (by omega), Nat.mod_eq_of_lt (by omega)]
    omega

theorem get_push_of_lt {r : Ring β cap} (hr : r.Aligned) (x : β) (h : r.size < cap)
    (i : Fin (r.push x).size) (hi : i.val < r.size) : (r.push x).get i = r.get ⟨i, hi⟩ := by
  have hi' : i.val < r.toList.length := by rw [length_toList]; exact hi
  rw [← getElem_toList (hr.push x) i (by rw [length_toList]; exact i.isLt),
    ← getElem_toList hr ⟨i, hi⟩ hi']
  simp only [toList_push_of_lt hr x h]
  exact List.getElem_append_left hi'

theorem get_push_of_full {r : Ring β cap} (hr : r.Aligned) (x : β) (h : ¬r.size < cap)
    (i : Fin (r.push x).size) (hi : i.val + 1 < r.size) :
    (r.push x).get i = r.get ⟨i + 1, hi⟩ := by
  have hi' : i.val < r.toList.tail.length := by
    rw [List.length_tail, length_toList]
    omega
  rw [← getElem_toList (hr.push x) i (by rw [length_toList]; exact i.isLt),
    ← getElem_toList hr ⟨i + 1, hi⟩ (by rw [length_toList]; exact hi)]
  simp only [toList_push_of_full hr x h]
  rw [List.getElem_append_left hi', List.getElem_tail]

theorem ofFn_get {r : Ring β cap} (hr : r.Aligned) : List.ofFn r.get = r.toList := by
  apply List.ext_getElem
  · rw [List.length_ofFn, length_toList]
  · intro i h₁ h₂
    rw [List.getElem_ofFn]
    exact (getElem_toList hr ⟨i, by rw [← length_toList]; exact h₂⟩ h₂).symm

theorem getElem?_toList {r : Ring β cap} (hr : r.Aligned) (i : Fin r.size) :
    r.toList[i.val]? = some (r.get i) := by
  have hi : i.val < r.toList.length := by
    rw [length_toList]
    exact i.isLt
  rw [List.getElem?_eq_getElem hi, getElem_toList hr i hi]

theorem getElem?_reverse_toList {r : Ring β cap} (hr : r.Aligned) (i : Fin r.size) :
    r.toList.reverse[i.val]? = some (r.get i.rev) := by
  have hi : i.val < r.toList.length := by
    rw [length_toList]
    exact i.isLt
  have hrev : r.toList.length - 1 - i.val = i.rev.val := by
    rw [length_toList, Fin.val_rev]
    omega
  rw [List.getElem?_reverse hi, hrev, getElem?_toList hr i.rev]

/-! ### The newest of a list -/

theorem length_rtake (xs : List β) : (xs.rtake cap).length = min cap xs.length := by
  rw [List.rtake, List.length_drop]
  omega

theorem rtake_min_length (xs : List β) : xs.rtake (min cap xs.length) = xs.rtake cap := by
  have h : xs.length - min cap xs.length = xs.length - cap := by omega
  rw [List.rtake, List.rtake, h]

theorem reverse_rtake (xs : List β) : (xs.rtake cap).reverse = xs.reverse.take cap := by
  rw [List.rtake_eq_reverse_take_reverse, List.reverse_reverse]

/-- What has been dropped once is not missed when one more element comes. -/
theorem rtake_rtake_concat (hcap : 0 < cap) (xs : List β) (x : β) :
    (xs.rtake cap ++ [x]).rtake cap = (xs ++ [x]).rtake cap := by
  obtain ⟨k, rfl⟩ := Nat.exists_eq_add_one.mpr hcap
  have hk : min k (k + 1) = k := by omega
  rw [List.rtake_concat_succ, List.rtake_concat_succ, List.rtake_eq_reverse_take_reverse,
    reverse_rtake, List.take_take, hk, ← List.rtake_eq_reverse_take_reverse]

/-! ### Runs -/

/-- What changes a buffer. -/
inductive Operation (β : Type)
  | push (x : β)
  | clear

def Operation.element? : Operation β → Option β
  | .push x => some x
  | .clear => none

def perform (r : Ring β cap) : Operation β → Ring β cap
  | .push x => r.push x
  | .clear => r.clear

/-- The buffer after the given operations, from the empty one. -/
def after (ops : List (Operation β)) : Ring β cap := ops.foldl perform empty

/-- The elements pushed since the last clear, in the order of the pushes. -/
def pushed (ops : List (Operation β)) : List β :=
  (ops.rtakeWhile fun op => op.element?.isSome).filterMap Operation.element?

theorem after_append (ops : List (Operation β)) (op : Operation β) :
    (after (ops ++ [op]) : Ring β cap) = (after ops).perform op := by
  simp only [after, List.foldl_append, List.foldl_cons, List.foldl_nil]

theorem pushed_push (ops : List (Operation β)) (x : β) :
    pushed (ops ++ [.push x]) = pushed ops ++ [x] := by
  rw [pushed, List.rtakeWhile_concat_pos _ _ _ rfl, List.filterMap_append]
  rfl

theorem pushed_clear (ops : List (Operation β)) : pushed (ops ++ [.clear]) = [] := by
  rw [pushed, List.rtakeWhile_concat_neg _ _ _ Bool.false_ne_true, List.filterMap_nil]

theorem Aligned.perform {r : Ring β cap} (hr : r.Aligned) (op : Operation β) :
    (r.perform op).Aligned := by
  cases op with
  | push x => exact hr.push x
  | clear =>
    rw [Ring.perform, clear_eq_empty]
    exact aligned_empty (Nat.zero_lt_of_lt hr.start_lt)

theorem aligned_after (hcap : 0 < cap) (ops : List (Operation β)) :
    (after ops : Ring β cap).Aligned := by
  induction ops using List.reverseRecOn with
  | nil => exact aligned_empty hcap
  | append_singleton ops op ih =>
    rw [after_append]
    exact ih.perform op

theorem toList_after (hcap : 0 < cap) (ops : List (Operation β)) :
    (after ops : Ring β cap).toList = (pushed ops).rtake cap := by
  -- on the last operation: the pushes count from the last clear on
  induction ops using List.reverseRecOn with
  | nil => exact (List.rtake_nil cap).symm
  | append_singleton ops op ih =>
    rw [after_append]
    cases op with
    | push x =>
      rw [pushed_push, perform, toList_push (aligned_after hcap ops) x, ih,
        rtake_rtake_concat hcap]
    | clear =>
      rw [pushed_clear, perform, clear_eq_empty, List.rtake_nil]
      rfl

/-- After any pushes and clears: the elements held are the newest of those pushed since the last
clear, as many as there is room for; forwards they come oldest first and backwards newest first,
and either way each stands where its age puts it.  The oldest one lies in the first place until
the buffer is full, and in one of its places from then on. -/
theorem holds_newest_after (hcap : 0 < cap) (ops : List (Operation β)) :
    let r : Ring β cap := after ops
    let kept := min cap (pushed ops).length
    r.size = kept ∧ r.toList = (pushed ops).rtake kept ∧
      r.toList.reverse = (pushed ops).reverse.take kept ∧
      (∀ i : Fin r.size, r.toList[i.val]? = some (r.get i) ∧
        r.toList.reverse[i.val]? = some (r.get i.rev)) ∧
      (r.isFull = false → r.start = 0) ∧ (r.isFull = true → r.start < r.size) := by
  intro r kept
  have hr : r.Aligned := aligned_after hcap ops
  have hlist : r.toList = (pushed ops).rtake kept := by
    rw [rtake_min_length]
    exact toList_after hcap ops
  have hsize : r.size = kept := by
    rw [← length_toList, hlist, rtake_min_length, length_rtake]
  refine ⟨hsize, hlist, ?_, ?_, ?_, ?_⟩
  · rw [hlist, reverse_rtake]
  · intro i
    exact ⟨getElem?_toList hr i, getElem?_reverse_toList hr i⟩
  · intro hroom
    apply hr.start_eq_zero
    by_contra hfull
    rw [isFull_of_not_lt hfull] at hroom
    cases hroom
  · intro hfull
    rw [isFull, beq_iff_eq] at hfull
    rw [hfull]
    exact hr.start_lt

/-- A buffer that has gone round is cleared and goes round again. -/
theorem holds_newest_after_wrap :
    let ops : List (Operation Nat) :=
      [.push 1, .push 2, .push 3, .clear, .push 4, .push 5, .push 6]
    let r : Ring Nat 2 := after ops
    0 < 2 ∧ pushed ops = [4, 5, 6] ∧ r.start = 1 ∧ r.size = 2 ∧ r.toList = [5, 6] ∧
      r.toList.reverse = [6, 5] ∧
      ∀ i : Fin r.size, r.toList[i.val]? = some (r.get i) ∧
        r.toList.reverse[i.val]? = some (r.get i.rev) := by
  intro ops r
  obtain ⟨hsize, hlist, hreverse, hget, -⟩ := holds_newest_after Nat.two_pos ops
  have hpushed : pushed ops = [4, 5, 6] := rfl
  rw [hpushed] at hsize hlist hreverse
  exact ⟨Nat.two_pos, hpushed, rfl, hsize, hlist, hreverse, hget⟩

end Ring

end BoxDescent
