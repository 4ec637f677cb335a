import BoxDescent.Proofs.History.Admission

/-!
# What a store answers

Everything that a store is asked goes through the pairs held, the inner products in use,
the scaling and the factor.  Consistent stores with the same pairs agree in all of these,
wherever the pairs lie in the buffer and whatever the unused entries are; so they answer
alike, now and after any further operations.
-/

namespace BoxDescent

/-! ### Vectors of equal lengths -/

section

variable {α : Type} [Scalar α] {k m : Nat}

omit [Scalar α] in
theorem getElem_of_heq (h : k = m) {u : Vector α k} {v : Vector α m} (huv : u ≍ v)
    (i : Fin k) : u[i] = v[i.cast h] := by
  subst h
  cases huv
  rfl

omit [Scalar α] in
theorem heq_ofFn (h : k = m) {f : Fin k → α} {g : Fin m → α}
    (hfg : ∀ i, f i = g (i.cast h)) : Vector.ofFn f ≍ Vector.ofFn g := by
  subst h
  rw [funext hfg]
  rfl

omit [Scalar α] in
theorem heq_matOfFn (h : k = m) {f : Fin k → Fin k → α} {g : Fin m → Fin m → α}
    (hfg : ∀ i j, f i j = g (i.cast h) (j.cast h)) : Mat.ofFn f ≍ Mat.ofFn g := by
  subst h
  rw [funext fun i => funext (hfg i)]
  rfl

omit [Scalar α] in
theorem heq_replicate (h : k = m) (x : α) :
    Vector.replicate (k + k) x ≍ Vector.replicate (m + m) x := by
  subst h
  rfl

omit [Scalar α] in
theorem heq_map {β : Type} {r : Nat} (h : k = m) {f : β → Vector α k} {g : β → Vector α m}
    (hfg : ∀ x, f x ≍ g x) (xs : Vector β r) : xs.map f ≍ xs.map g := by
  subst h
  rw [funext fun x => eq_of_heq (hfg x)]

/-- Matrices of two by two blocks, block by block. -/
def blocks (a b c d : Fin k → Fin k → α) : Mat α (k + k) (k + k) :=
  Mat.ofFn fun row col =>
    Fin.addCases (fun i => Fin.addCases (a i) (b i) col)
      (fun i => Fin.addCases (c i) (d i) col) row

omit [Scalar α] in
theorem heq_blocks (h : k = m) {a b c d : Fin k → Fin k → α} {a' b' c' d' : Fin m → Fin m → α}
    (ha : ∀ i j, a i j = a' (i.cast h) (j.cast h)) (hb : ∀ i j, b i j = b' (i.cast h) (j.cast h))
    (hc : ∀ i j, c i j = c' (i.cast h) (j.cast h))
    (hd : ∀ i j, d i j = d' (i.cast h) (j.cast h)) : blocks a b c d ≍ blocks a' b' c' d' := by
  subst h
  rw [funext fun i => funext (ha i), funext fun i => funext (hb i),
    funext fun i => funext (hc i), funext fun i => funext (hd i)]
  rfl

omit [Scalar α] in
theorem foldl_of_cast {β : Type} (h : k = m) {f : β → Fin k → β} {g : β → Fin m → β}
    (hfg : ∀ acc i, f acc i = g acc (i.cast h)) (x : β) : Fin.foldl k f x = Fin.foldl m g x := by
  subst h
  rw [funext fun acc => funext (hfg acc)]
  rfl

theorem sum_of_cast (h : k = m) {f : Fin k → α} {g : Fin m → α}
    (hfg : ∀ i, f i = g (i.cast h)) : sum f = sum g := by
  apply foldl_of_cast h
  intro acc i
  rw [hfg]

omit [Scalar α] in
theorem heq_ofParts (h : k = m) {u₁ u₂ : Vector α k} {v₁ v₂ : Vector α m} (h₁ : u₁ ≍ v₁)
    (h₂ : u₂ ≍ v₂) : Compact.ofParts u₁ u₂ ≍ Compact.ofParts v₁ v₂ := by
  subst h
  cases h₁
  cases h₂
  rfl

omit [Scalar α] in
theorem heq_parts (h : k = m) {u : Compact α k} {v : Compact α m} (huv : u ≍ v) :
    u.yPart ≍ v.yPart ∧ u.sPart ≍ v.sPart := by
  subst h
  cases huv
  exact ⟨HEq.rfl, HEq.rfl⟩

omit [Scalar α] in
theorem heq_solve [DenseSolver α] (h : k = m) {f : DenseSolver.Factor α k}
    {g : DenseSolver.Factor α m} (hfg : f ≍ g) {u : Vector α k} {v : Vector α m} (huv : u ≍ v) :
    DenseSolver.solve f u ≍ DenseSolver.solve g v := by
  subst h
  cases hfg
  cases huv
  rfl

omit [Scalar α] in
theorem heq_factor [DenseSolver α] (h : k = m) {a : Mat α k k} {b : Mat α m m} (hab : a ≍ b) :
    (DenseSolver.factor a : Option (DenseSolver.Factor α k)) ≍ DenseSolver.factor b := by
  subst h
  cases hab
  rfl

omit [Scalar α] in
theorem heq_of_some {F : Nat → Type} (h : k = m) {x : F k} {y : F m}
    (hxy : (some x : Option (F k)) ≍ (some y : Option (F m))) : x ≍ y := by
  subst h
  cases hxy
  rfl

end

namespace Store

variable {α : Type} [Scalar α] [DenseSolver α] {n cap : Nat}

/-! ### Questions -/

/-- What can be asked of a store.  Compact vectors are given by their entries. -/
inductive Query (α : Type) (n : Nat)
  | size
  | theta
  | forward (v : Vector α n)
  | inverse (v : Vector α n)
  | wTranspose (v : Vector α n)
  | wTimes (q : List α)
  | wRow (i : Fin n)
  | wRows {m : Nat} (indices : Vector (Fin n) m)
  | middleTimes (q : List α)
  | middleInverse

inductive Answer (α : Type)
  | count (k : Nat)
  | number (a : α)
  | vector {k : Nat} (v : Vector α k)
  | matrix {k m : Nat} (a : Mat α k m)
  | admission (a : Admission α)
  | done
  /-- The number of entries given is not the one that belongs to the pairs held. -/
  | unfit

/-- What `f` makes of the compact vector with the given entries. -/
def withCompact (k : Nat) (q : List α) (f : Compact α k → Answer α) : Answer α :=
  if h : q.length = k + k then f ⟨q.toArray, h⟩ else .unfit

def ask (store : Store α n cap) : Query α n → Answer α
  | .size => .count store.size
  | .theta => .number store.theta
  | .forward v => .vector (store.applyForward v)
  | .inverse v => .vector (store.applyInverse v)
  | .wTranspose v => .vector (store.wTranspose v)
  | .wTimes q => withCompact store.size q fun u => .vector (store.wTimes u)
  | .wRow i => .vector (store.wRow i)
  | .wRows indices => .matrix (store.wRows indices)
  | .middleTimes q => withCompact store.size q fun u => .vector (store.middleTimes u)
  | .middleInverse => .matrix store.middleInverse

/-- What a caller does with a store. -/
inductive Request (α : Type) (n : Nat)
  | change (op : Operation α n)
  | ask (q : Query α n)

def respond (store : Store α n cap) : Request α n → Store α n cap × Answer α
  | .change (.offer s y) => ((store.push s y).1, .admission (store.push s y).2)
  | .change .clear => (store.clear, .done)
  | .ask q => (store, store.ask q)

def answers (store : Store α n cap) : List (Request α n) → List (Answer α)
  | [] => []
  | r :: later => (store.respond r).2 :: (store.respond r).1.answers later

omit [Scalar α] [DenseSolver α] in
theorem vector_congr {k m : Nat} (h : k = m) {u : Vector α k} {v : Vector α m} (huv : u ≍ v) :
    Answer.vector u = Answer.vector v := by
  subst h
  cases huv
  rfl

omit [Scalar α] [DenseSolver α] in
theorem matrix_congr {k m k' m' : Nat} (hk : k = k') (hm : m = m') {a : Mat α k m}
    {b : Mat α k' m'} (hab : a ≍ b) : Answer.matrix a = Answer.matrix b := by
  subst hk
  subst hm
  cases hab
  rfl

omit [Scalar α] [DenseSolver α] in
theorem withCompact_congr {k m : Nat} (h : k = m) (q : List α) {f : Compact α k → Answer α}
    {g : Compact α m → Answer α} (hfg : ∀ u v, u ≍ v → f u = g v) :
    withCompact k q f = withCompact m q g := by
  subst h
  unfold withCompact
  split
  · exact hfg _ _ HEq.rfl
  · rfl

/-! ### Stores that answer alike -/

/-- Two stores agree in what their answers are made of. -/
structure Alike (a b : Store α n cap) : Prop where
  size_eq : a.size = b.size
  pairs_eq : a.pairs = b.pairs
  pair_eq : ∀ i, a.pair i = b.pair (i.cast size_eq)
  ss_eq : ∀ i j, a.ss i j = b.ss (i.cast size_eq) (j.cast size_eq)
  sy_eq : ∀ i j, a.sy i j = b.sy (i.cast size_eq) (j.cast size_eq)
  theta_eq : a.theta = b.theta
  factor_eq : (a.factor = none ∧ b.factor = none) ∨
    ∃ fa fb, a.factor = some fa ∧ b.factor = some fb ∧ fa ≍ fb

variable {a b : Store α n cap}

theorem pair_eq_of_pairs (ha : a.Tabulated) (hb : b.Tabulated) (h : a.pairs = b.pairs)
    (hsize : a.size = b.size) (i : Fin a.size) : a.pair i = b.pair (i.cast hsize) := by
  have hia : i.val < a.pairs.length := by
    rw [length_pairs]
    exact i.isLt
  have hib : i.val < b.pairs.length := by
    rw [← h]
    exact hia
  calc a.pair i = a.pairs[i.val] := (Ring.getElem_toList ha.aligned i hia).symm
    _ = b.pairs[i.val] := by simp only [h]
    _ = b.pair (i.cast hsize) := Ring.getElem_toList hb.aligned (i.cast hsize) hib

theorem gramMatrix_congr (hsize : a.size = b.size) (htheta : a.theta = b.theta)
    (hss : ∀ i j, a.ss i j = b.ss (i.cast hsize) (j.cast hsize))
    (hsy : ∀ i j, a.sy i j = b.sy (i.cast hsize) (j.cast hsize)) :
    a.gramMatrix ≍ b.gramMatrix := by
  have hentry : ∀ i j, a.gramEntry i j = b.gramEntry (i.cast hsize) (j.cast hsize) := by
    intro i j
    rw [gramEntry, gramEntry, hss, htheta]
    apply foldl_of_cast hsize
    intro acc l
    rw [hsy, hsy, hsy]
    rfl
  apply heq_matOfFn hsize
  intro i j
  rw [hentry, hentry]
  rfl

/-- What a store answers is determined by the pairs held. -/
theorem Consistent.alike (ha : a.Consistent) (hb : b.Consistent) (h : a.pairs = b.pairs) :
    Alike a b := by
  have hsize : a.size = b.size := by rw [← length_pairs, ← length_pairs, h]
  have hpair := pair_eq_of_pairs ha.toTabulated hb.toTabulated h hsize
  have htheta : a.theta = b.theta := by rw [ha.theta_eq, hb.theta_eq, h]
  have hss : ∀ i j, a.ss i j = b.ss (i.cast hsize) (j.cast hsize) := by
    intro i j
    rw [ha.ss_eq, hb.ss_eq, hpair, hpair]
  have hsy : ∀ i j, a.sy i j = b.sy (i.cast hsize) (j.cast hsize) := by
    intro i j
    rw [ha.sy_eq, hb.sy_eq, hpair, hpair]
  refine ⟨hsize, h, hpair, hss, hsy, htheta, ?_⟩
  rcases Nat.eq_zero_or_pos a.size with hzero | hpos
  · exact .inl ⟨ha.factor_eq_none hzero, hb.factor_eq_none (hsize ▸ hzero)⟩
  · obtain ⟨fa, hfa, hgrama⟩ := ha.factor_eq hpos
    obtain ⟨fb, hfb, hgramb⟩ := hb.factor_eq (hsize ▸ hpos)
    refine .inr ⟨fa, fb, hfa, hfb, ?_⟩
    have hsome := heq_factor hsize (gramMatrix_congr hsize htheta hss hsy)
    rw [hgrama, hgramb] at hsome
    exact heq_of_some hsize hsome

namespace Alike

omit [Scalar α] in
theorem width_eq (h : Alike a b) : a.size + a.size = b.size + b.size := by rw [h.size_eq]

theorem wTranspose (h : Alike a b) (v : Vector α n) : a.wTranspose v ≍ b.wTranspose v := by
  apply heq_ofParts h.size_eq
  · apply heq_ofFn h.size_eq
    intro j
    rw [h.pair_eq]
  · apply heq_ofFn h.size_eq
    intro j
    rw [h.pair_eq, h.theta_eq]

theorem wRow (h : Alike a b) (i : Fin n) : a.wRow i ≍ b.wRow i := by
  apply heq_ofParts h.size_eq
  · apply heq_ofFn h.size_eq
    intro j
    rw [h.pair_eq]
  · apply heq_ofFn h.size_eq
    intro j
    rw [h.pair_eq, h.theta_eq]

theorem wRows (h : Alike a b) {m : Nat} (indices : Vector (Fin n) m) :
    a.wRows indices ≍ b.wRows indices := heq_map h.width_eq h.wRow indices

theorem wTimes (h : Alike a b) {u : Compact α a.size} {v : Compact α b.size} (huv : u ≍ v) :
    a.wTimes u = b.wTimes v := by
  obtain ⟨hy, hs⟩ := heq_parts h.size_eq huv
  simp only [Store.wTimes]
  congr 1
  funext i
  apply sum_of_cast h.size_eq
  intro j
  rw [getElem_of_heq h.size_eq hy, getElem_of_heq h.size_eq hs, h.pair_eq, h.theta_eq]

theorem middleTimes (h : Alike a b) {u : Compact α a.size} {v : Compact α b.size}
    (huv : u ≍ v) : a.middleTimes u ≍ b.middleTimes v := by
  obtain ⟨hy, hs⟩ := heq_parts h.size_eq huv
  rcases h.factor_eq with ⟨ha, hb⟩ | ⟨fa, fb, ha, hb, hf⟩
  · simp only [Store.middleTimes, ha, hb, zeroCompact]
    exact heq_replicate h.size_eq 0
  · simp only [Store.middleTimes, ha, hb]
    have hright : (Vector.ofFn fun i => u.sPart[i] + BoxDescent.sum fun j =>
          if j < i then a.sy i j * u.yPart[j] / a.sy j j else 0) ≍
        (Vector.ofFn fun i => v.sPart[i] + BoxDescent.sum fun j =>
          if j < i then b.sy i j * v.yPart[j] / b.sy j j else 0) := by
      apply heq_ofFn h.size_eq
      intro i
      rw [getElem_of_heq h.size_eq hs]
      congr 1
      apply sum_of_cast h.size_eq
      intro j
      rw [getElem_of_heq h.size_eq hy, h.sy_eq, h.sy_eq]
      rfl
    have hps := heq_solve h.size_eq hf hright
    apply heq_ofParts h.size_eq _ hps
    apply heq_ofFn h.size_eq
    intro j
    rw [getElem_of_heq h.size_eq hy, h.sy_eq j j]
    congr 2
    apply sum_of_cast h.size_eq
    intro i
    rw [getElem_of_heq h.size_eq hps, h.sy_eq]
    rfl

theorem middleInverse (h : Alike a b) : a.middleInverse ≍ b.middleInverse := by
  apply heq_blocks h.size_eq
  · intro i j
    simp only [h.sy_eq, Fin.ext_iff, Fin.val_cast]
  · intro i j
    simp only [h.sy_eq, Fin.lt_def, Fin.val_cast]
  · intro i j
    simp only [h.sy_eq, Fin.lt_def, Fin.val_cast]
  · intro i j
    rw [h.ss_eq, h.theta_eq]

theorem applyForward (h : Alike a b) (v : Vector α n) : a.applyForward v = b.applyForward v := by
  unfold Store.applyForward isEmpty
  rw [h.size_eq, h.theta_eq, h.wTimes (h.middleTimes (h.wTranspose v))]

theorem applyInverse (h : Alike a b) (v : Vector α n) : a.applyInverse v = b.applyInverse v := by
  unfold Store.applyInverse
  rw [h.theta_eq]
  have hpairs : a.history.toList = b.history.toList := h.pairs_eq
  rw [hpairs]

theorem ask (h : Alike a b) (q : Query α n) : a.ask q = b.ask q := by
  cases q with
  | size => exact congrArg Answer.count h.size_eq
  | theta => exact congrArg Answer.number h.theta_eq
  | forward v => exact congrArg Answer.vector (h.applyForward v)
  | inverse v => exact congrArg Answer.vector (h.applyInverse v)
  | wTranspose v => exact vector_congr h.width_eq (h.wTranspose v)
  | wTimes q =>
    simp only [Store.ask]
    apply withCompact_congr h.size_eq
    intro u v huv
    exact congrArg Answer.vector (h.wTimes huv)
  | wRow i => exact vector_congr h.width_eq (h.wRow i)
  | wRows indices => exact matrix_congr rfl h.width_eq (h.wRows indices)
  | middleTimes q =>
    simp only [Store.ask]
    apply withCompact_congr h.size_eq
    intro u v huv
    exact vector_congr h.width_eq (h.middleTimes huv)
  | middleInverse => exact matrix_congr h.width_eq h.width_eq h.middleInverse

end Alike

/-! ### Runs over the real numbers -/

section

open Matrix

variable [DenseSolver ℝ] [CompleteFactor] {a b : Store ℝ n cap}

theorem pairs_respond_congr (ha : a.Consistent) (hb : b.Consistent) (h : a.pairs = b.pairs)
    (r : Request ℝ n) : (a.respond r).2 = (b.respond r).2 ∧
      (a.respond r).1.pairs = (b.respond r).1.pairs := by
  cases r with
  | ask q => exact ⟨(ha.alike hb h).ask q, h⟩
  | change op =>
    cases op with
    | clear => exact ⟨rfl, rfl⟩
    | offer s y =>
      simp only [respond]
      by_cases hc : Scalar.epsilon * dot y y < dot s y
      · obtain ⟨ha', hpa⟩ := ha.push_of_curvature hc
        obtain ⟨hb', hpb⟩ := hb.push_of_curvature hc
        rw [ha', hb', hpa, hpb, h]
        exact ⟨rfl, rfl⟩
      · rw [ha.push_of_not_curvature hc, hb.push_of_not_curvature hc]
        exact ⟨rfl, h⟩

omit [CompleteFactor] in
theorem Consistent.respond (h : a.Consistent) (r : Request ℝ n) :
    (a.respond r).1.Consistent := by
  cases r with
  | ask q => exact h
  | change op =>
    have hop := h.perform op
    cases op with
    | offer s y => exact hop
    | clear => exact hop

/-- Consistent stores with the same pairs give the same answers from now on. -/
theorem answers_congr (ha : a.Consistent) (hb : b.Consistent) (h : a.pairs = b.pairs)
    (requests : List (Request ℝ n)) : a.answers requests = b.answers requests := by
  induction requests generalizing a b with
  | nil => rfl
  | cons r later ih =>
    obtain ⟨hanswer, hpairs⟩ := pairs_respond_congr ha hb h r
    rw [answers, answers, hanswer, ih (ha.respond r) (hb.respond r) hpairs]

/-- The store that was given the newest admitted pairs, and nothing else. -/
noncomputable def fresh (cap : Nat) (ops : List (Operation ℝ n)) : Store ℝ n cap :=
  after ((newest cap (admitted ops)).map fun p => .offer p.1 p.2)

theorem pairs_fresh (hcap : 0 < cap) (ops : List (Operation ℝ n)) :
    (fresh cap ops).pairs = (after ops : Store ℝ n cap).pairs := by
  have hcurv : ∀ p ∈ newest cap (admitted ops), Scalar.epsilon * dot p.2 p.2 < dot p.1 p.2 :=
    fun p hp => curvature_of_mem_admitted (List.mem_of_mem_drop hp)
  have hlen : (newest cap (admitted ops)).length ≤ cap := by
    rw [length_newest]
    exact Nat.min_le_left _ _
  rw [fresh, pairs_after hcap, pairs_after hcap, admitted_offers hcurv, ← map_newest,
    newest_of_length_le hlen, map_newest]

/-- After any operations: the matrix that an offer factorizes is the definite one of the
pairs then held, so that an offer succeeds if and only if its curvature suffices, and
changes nothing if it fails; and the store holds the newest admitted pairs and answers as
the store that was given no others. -/
theorem contents_and_answers_after (hcap : 0 < cap) (ops : List (Operation ℝ n)) :
    let store : Store ℝ n cap := after ops
    (∀ s y, Scalar.epsilon * dot y y < dot s y →
      let next := store.offered s y
      next.gramMatrix.toMatrix = next.theta • (next.stepRows * next.stepRowsᵀ) +
          next.lower * diagonal next.curvatures⁻¹ * next.lowerᵀ ∧
        next.gramMatrix.toMatrix.PosDef ∧ (store.push s y).2 = .appended) ∧
    (∀ s y, (store.push s y).2.isAdmitted = true ↔ Scalar.epsilon * dot y y < dot s y) ∧
    (∀ s y, (store.push s y).2.isAdmitted = false → (store.push s y).1 = store) ∧
    store.pairs.map (fun c => (c.s, c.y)) = newest cap (admitted ops) ∧
    ∀ requests, store.answers requests = (fresh cap ops).answers requests := by
  intro store
  have h : store.Consistent := consistent_after hcap ops
  refine ⟨?_, h.isAdmitted_push_iff, ?_, ?_, ?_⟩
  · intro s y hc next
    have hnext : next.Tabulated := h.toTabulated.offered (hasCurvature_real.mpr hc)
    exact ⟨hnext.toMatrix_gramMatrix, hnext.posDef_gramMatrix, (h.push_of_curvature hc).1⟩
  · intro s y hrefused
    by_cases hc : Scalar.epsilon * dot y y < dot s y
    · rw [(h.push_of_curvature hc).1] at hrefused
      cases hrefused
    · rw [h.push_of_not_curvature hc]
  · rw [pairs_after hcap, map_newest, List.map_map]
    congr 1
    exact List.map_id _
  · exact answers_congr h (consistent_after hcap _) (pairs_fresh hcap ops).symm

end

/-- Two pairs are offered to a store with room for one. -/
theorem contents_after_eviction :
    let _ := DenseSolver.symmetric ℝ
    let ops : List (Operation ℝ 1) := [.offer #v[1] #v[2], .offer #v[1] #v[1]]
    CompleteFactor ∧ 0 < 1 ∧
      (after ops : Store ℝ 1 1).pairs.map (fun c => (c.s, c.y)) = [(#v[1], #v[1])] ∧
      ∀ requests, (after ops : Store ℝ 1 1).answers requests =
        (fresh 1 ops).answers requests := by
  intro solver ops
  have hcomplete : CompleteFactor := completeFactor_symmetric
  obtain ⟨-, -, -, hpairs, hanswers⟩ := contents_and_answers_after Nat.one_pos ops
  refine ⟨hcomplete, Nat.one_pos, ?_, hanswers⟩
  rw [hpairs]
  have hadmitted : admitted ops = [(#v[1], #v[2]), (#v[1], #v[1])] := by
    change admitted ([(#v[1], #v[2]), (#v[1], #v[1])].map fun p => .offer p.1 p.2) = _
    apply admitted_offers
    intro p hp
    simp only [List.mem_cons, List.not_mem_nil, or_false] at hp
    rcases hp with rfl | rfl
    · norm_num [dot, BoxDescent.sum, Fin.foldl_succ, Scalar.epsilon]
    · norm_num [dot, BoxDescent.sum, Fin.foldl_succ, Scalar.epsilon]
  rw [hadmitted]
  rfl

end Store

end BoxDescent
