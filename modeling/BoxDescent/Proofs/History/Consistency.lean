import BoxDescent.Proofs.History.Ring
import BoxDescent.History.Compact

/-!
# Consistency of the store

A store keeps inner products, a scaling and a factorization beside the pairs that they
were made of.  `Consistent` says that all of them belong to the pairs held now.  It is
true of the empty store and stays true when a pair is offered, whatever matrices can be
factorized and in any arithmetic.
-/

namespace BoxDescent

namespace Store

variable {α : Type} [Scalar α] [DenseSolver α] {n cap : Nat}

def pairs (store : Store α n cap) : List (Correction α n) := store.history.toList

/-- The scaling that belongs to a list of pairs: that of the newest one. -/
def scaling (cs : List (Correction α n)) : α :=
  match cs.getLast? with
  | none => 1
  | some c => dot c.y c.y / dot c.s c.y

/-- A pair that a store may hold. -/
structure Admissible (c : Correction α n) : Prop where
  curvature : hasCurvature (dot c.s c.y) (dot c.y c.y) = true
  rho_eq : c.rho = 1 / dot c.s c.y

/-- The inner products and the scaling belong to the pairs held. -/
structure Tabulated (store : Store α n cap) : Prop where
  aligned : store.history.Aligned
  ss_eq : ∀ i j, store.ss i j = dot (store.pair i).s (store.pair j).s
  sy_eq : ∀ i j, store.sy i j = dot (store.pair i).s (store.pair j).y
  admissible : ∀ c ∈ store.pairs, Admissible c
  theta_eq : store.theta = scaling store.pairs

/-- Everything that is kept beside the pairs belongs to the pairs held. -/
structure Consistent (store : Store α n cap) : Prop extends Tabulated store where
  factor_eq_none : store.size = 0 → store.factor = none
  factor_eq : 0 < store.size →
    ∃ f, store.factor = some f ∧ DenseSolver.factor store.gramMatrix = some f

omit [Scalar α] in
theorem length_pairs (store : Store α n cap) : store.pairs.length = store.size :=
  Ring.length_toList _

omit [Scalar α] in
theorem size_le (store : Store α n cap) : store.size ≤ cap := store.history.size_le

theorem Tabulated.ofFn_pair {store : Store α n cap} (h : store.Tabulated) :
    List.ofFn store.pair = store.pairs :=
  Ring.ofFn_get h.aligned

theorem Tabulated.pair_mem {store : Store α n cap} (h : store.Tabulated)
    (i : Fin store.size) : store.pair i ∈ store.pairs := by
  rw [← h.ofFn_pair]
  exact List.mem_ofFn.mpr ⟨i, rfl⟩

theorem consistent_empty (hcap : 0 < cap) : (empty : Store α n cap).Consistent where
  aligned := Ring.aligned_empty hcap
  ss_eq i := i.elim0
  sy_eq i := i.elim0
  admissible c hc := by cases hc
  theta_eq := rfl
  factor_eq_none _ := rfl
  factor_eq h := absurd h (Nat.lt_irrefl 0)

/-! ### Inner products -/

omit [Scalar α] [DenseSolver α] in
/-- Every entry of a refreshed matrix is an inner product of pairs held now, if those
between older pairs were so before. -/
theorem getElem_refresh {history : Ring (Correction α n) cap} {a : Mat α cap cap}
    {entry : Correction α n → Correction α n → α} (i j : Fin history.size)
    (h : i.val + 1 < history.size → j.val + 1 < history.size →
      a[history.place i][history.place j] = entry (history.get i) (history.get j)) :
    (refresh history a entry)[history.place i][history.place j] =
      entry (history.get i) (history.get j) := by
  have hi := i.isLt
  have hj := j.isLt
  have hin : (history.place i).val < history.size ∧ (history.place j).val < history.size :=
    ⟨hi, hj⟩
  rw [refresh, Mat.getElem_ofFn, dif_pos hin]
  split
  · rfl
  · rename_i hold
    simp only [Ring.val_place] at hold
    exact h (by omega) (by omega)

omit [Scalar α] [DenseSolver α] in
theorem getElem_shiftUp {a : Mat α cap cap} {i j : Fin cap} (hi : i.val + 1 < cap)
    (hj : j.val + 1 < cap) : (shiftUp a)[i][j] = a[i.val + 1][j.val + 1] := by
  rw [shiftUp, Mat.getElem_ofFn, dif_pos ⟨hi, hj⟩]

omit [Scalar α] [DenseSolver α] in
/-- The matrix that is refreshed after a push holds the inner products of older pairs at
their new places. -/
theorem getElem_shifted {history : Ring (Correction α n) cap} (a : Mat α cap cap)
    (entry : Correction α n → Correction α n → α) (hr : history.Aligned)
    (ha : ∀ i j : Fin history.size,
      a[history.place i][history.place j] = entry (history.get i) (history.get j))
    (c : Correction α n) (i j : Fin (history.push c).size)
    (hi : i.val + 1 < (history.push c).size) (hj : j.val + 1 < (history.push c).size) :
    (if history.isFull then shiftUp a else a)[(history.push c).place i][(history.push c).place j]
      = entry ((history.push c).get i) ((history.push c).get j) := by
  by_cases h : history.size < cap
  · have hsize := Ring.size_push_of_lt c h
    rw [Ring.get_push_of_lt hr c h i (by omega), Ring.get_push_of_lt hr c h j (by omega), ← ha,
      Ring.isFull_eq_false_of_lt h]
    rfl
  · have hle : history.size ≤ cap := history.size_le
    have hsize := Ring.size_push_of_full c h
    rw [Ring.get_push_of_full hr c h i (by omega), Ring.get_push_of_full hr c h j (by omega),
      ← ha, Ring.isFull_of_not_lt h, if_pos rfl, getElem_shiftUp]
    rfl

/-! ### Offering a pair -/

theorem pairs_append (store : Store α n cap) (c : Correction α n) (theta : α) :
    (store.append c theta).pairs = (store.history.push c).toList := rfl

/-- The newest pairs, at most as many as there is room for. -/
def newest {β : Type} (cap : Nat) (xs : List β) : List β := xs.drop (xs.length - cap)

theorem pairs_append_eq {store : Store α n cap} (hr : store.history.Aligned)
    (c : Correction α n) (theta : α) :
    (store.append c theta).pairs = newest cap (store.pairs ++ [c]) :=
  Ring.toList_push hr c

theorem getLast?_pairs_append {store : Store α n cap} (hr : store.history.Aligned)
    (c : Correction α n) (theta : α) :
    (store.append c theta).pairs.getLast? = some c := by
  rw [pairs_append]
  by_cases h : store.history.size < cap
  · rw [Ring.toList_push_of_lt hr c h]
    simp
  · rw [Ring.toList_push_of_full hr c h]
    simp

theorem size_append_pos {store : Store α n cap} (hr : store.history.Aligned)
    (c : Correction α n) (theta : α) : 0 < (store.append c theta).size := by
  have hsize : (store.append c theta).size = min (store.history.size + 1) cap :=
    Ring.size_push _ _
  have hlt := hr.start_lt
  omega

theorem Tabulated.append {store : Store α n cap} (h : store.Tabulated) {c : Correction α n}
    (hc : Admissible c) : (store.append c (dot c.y c.y / dot c.s c.y)).Tabulated where
  aligned := h.aligned.push c
  ss_eq i j := getElem_refresh i j
    (getElem_shifted store.sts (fun a b => dot a.s b.s) h.aligned h.ss_eq c i j)
  sy_eq i j := getElem_refresh i j
    (getElem_shifted store.sty (fun a b => dot a.s b.y) h.aligned h.sy_eq c i j)
  admissible d hd := by
    rw [pairs_append_eq h.aligned] at hd
    rcases List.mem_append.mp (List.mem_of_mem_drop hd) with hold | hnew
    · exact h.admissible d hold
    · rw [List.mem_singleton.mp hnew]
      exact hc
  theta_eq := by
    rw [scaling, getLast?_pairs_append h.aligned]
    rfl

/-- A factorization adds a factor of the matrix of the pairs, and nothing else. -/
theorem factorize?_eq_some {store next : Store α n cap} (h : store.factorize? = some next) :
    ∃ f, DenseSolver.factor store.gramMatrix = some f ∧
      next = { store with factor := some f } := by
  obtain ⟨f, hf, hnext⟩ := Option.map_eq_some_iff.mp h
  exact ⟨f, hf, hnext.symm⟩

theorem Tabulated.factorize {store next : Store α n cap} (h : store.Tabulated)
    (hpos : 0 < store.size) (hnext : store.factorize? = some next) : next.Consistent := by
  obtain ⟨f, hf, rfl⟩ := factorize?_eq_some hnext
  exact
    { aligned := h.aligned
      ss_eq := h.ss_eq
      sy_eq := h.sy_eq
      admissible := h.admissible
      theta_eq := h.theta_eq
      factor_eq_none := fun hzero => absurd hzero (Nat.ne_of_gt hpos)
      factor_eq := fun _ => ⟨f, rfl, hf⟩ }

def correction (s y : Vector α n) : Correction α n := { s := s, y := y, rho := 1 / dot s y }

omit [DenseSolver α] in
theorem admissible_correction {s y : Vector α n} (h : hasCurvature (dot s y) (dot y y) = true) :
    Admissible (correction s y) := ⟨h, rfl⟩

/-- The store that holds a pair in addition, not yet factorized. -/
def offered (store : Store α n cap) (s y : Vector α n) : Store α n cap :=
  store.append (correction s y) (dot y y / dot s y)

/-- What an offer does: the pair is refused and nothing changes; it is appended; it is
kept alone; or all is lost. -/
theorem push_cases (store : Store α n cap) (s y : Vector α n) :
    (hasCurvature (dot s y) (dot y y) = false ∧
      store.push s y = (store, .refused (dot s y) (dot y y))) ∨
    (hasCurvature (dot s y) (dot y y) = true ∧
      ((∃ next, (store.offered s y).factorize? = some next ∧
          store.push s y = (next, .appended)) ∨
        ((store.offered s y).factorize? = none ∧
          ((∃ next, ((empty : Store α n cap).offered s y).factorize? = some next ∧
              store.push s y = (next, .restarted)) ∨
            (((empty : Store α n cap).offered s y).factorize? = none ∧
              store.push s y = (empty, .lost)))))) := by
  cases hc : hasCurvature (dot s y) (dot y y) with
  | false =>
    refine .inl ⟨rfl, ?_⟩
    simp only [push, hc]
    rfl
  | true =>
    refine .inr ⟨rfl, ?_⟩
    cases h : (store.offered s y).factorize? with
    | some next =>
      have h' : (store.append { s := s, y := y, rho := 1 / dot s y }
        (dot y y / dot s y)).factorize? = some next := h
      exact .inl ⟨next, rfl, by simp only [push, hc, if_true, h']⟩
    | none =>
      have h' : (store.append { s := s, y := y, rho := 1 / dot s y }
        (dot y y / dot s y)).factorize? = none := h
      refine .inr ⟨rfl, ?_⟩
      cases h₀ : ((empty : Store α n cap).offered s y).factorize? with
      | some next =>
        have h₀' : ((empty : Store α n cap).append { s := s, y := y, rho := 1 / dot s y }
          (dot y y / dot s y)).factorize? = some next := h₀
        exact .inl ⟨next, rfl, by simp only [push, hc, if_true, h', clear_eq_empty, h₀']⟩
      | none =>
        have h₀' : ((empty : Store α n cap).append { s := s, y := y, rho := 1 / dot s y }
          (dot y y / dot s y)).factorize? = none := h₀
        exact .inr ⟨rfl, by simp only [push, hc, if_true, h', clear_eq_empty, h₀']⟩

theorem Tabulated.offered {store : Store α n cap} (h : store.Tabulated) {s y : Vector α n}
    (hc : hasCurvature (dot s y) (dot y y) = true) : (store.offered s y).Tabulated :=
  h.append (admissible_correction hc)

theorem Consistent.push {store : Store α n cap} (h : store.Consistent) (s y : Vector α n) :
    (store.push s y).1.Consistent := by
  have hcap : 0 < cap := Nat.zero_lt_of_lt h.aligned.start_lt
  have hempty := consistent_empty (α := α) (n := n) hcap
  rcases store.push_cases s y with ⟨-, he⟩ | ⟨hc, ⟨next, hf, he⟩ | ⟨-, ⟨next, hf, he⟩ | ⟨-, he⟩⟩⟩
  · rw [he]
    exact h
  · rw [he]
    exact (h.toTabulated.offered hc).factorize (size_append_pos h.aligned _ _) hf
  · rw [he]
    exact (hempty.toTabulated.offered hc).factorize (size_append_pos hempty.aligned _ _) hf
  · rw [he]
    exact hempty

end Store

end BoxDescent
