import BoxDescent.Proofs.History.Admission

/-!
# Upkeep of the store

What a store keeps beside its pairs is what could be computed from them afresh, in any arithmetic
and whatever matrices can be factorized.  An offer has one of four outcomes; which one hangs on
the curvature of the pair and on two factorizations.
-/

namespace BoxDescent

namespace Store

section

variable {α : Type} [Scalar α] [DenseSolver α] {n cap : Nat} {store : Store α n cap}

/-! ### The factor -/

/-- Entry `(i, j)` of `theta * Sᵀ S + L * D⁻¹ * Lᵀ` from the pairs themselves, for `j ≤ i`. -/
def pairEntry (theta : α) {k : Nat} (pair : Fin k → Correction α n) (i j : Fin k) : α :=
  Fin.foldl k
    (fun acc l =>
      if l < j then
        acc + dot (pair i).s (pair l).y * dot (pair j).s (pair l).y / dot (pair l).s (pair l).y
      else acc)
    (theta * dot (pair i).s (pair j).s)

def pairMatrix (theta : α) {k : Nat} (pair : Fin k → Correction α n) : Mat α k k :=
  Mat.ofFn fun i j => if j ≤ i then pairEntry theta pair i j else pairEntry theta pair j i

theorem Tabulated.gramMatrix_eq (h : store.Tabulated) :
    store.gramMatrix = pairMatrix store.theta store.pair := by
  have hentry : store.gramEntry = pairEntry store.theta store.pair := by
    funext i j
    simp only [gramEntry, pairEntry, h.ss_eq, h.sy_eq]
  rw [gramMatrix, hentry, pairMatrix]

theorem Consistent.factor_eq_some_iff (h : store.Consistent)
    (f : DenseSolver.Factor α store.size) :
    store.factor = some f ↔
      0 < store.size ∧ DenseSolver.factor (pairMatrix store.theta store.pair) = some f := by
  rw [← h.gramMatrix_eq]
  constructor
  · intro hf
    have hpos : 0 < store.size := by
      apply Nat.pos_of_ne_zero
      intro hzero
      rw [h.factor_eq_none hzero] at hf
      cases hf
    obtain ⟨f', hf', hgram⟩ := h.factor_eq hpos
    rw [hf'] at hf
    rw [← hf]
    exact ⟨hpos, hgram⟩
  · rintro ⟨hpos, hgram⟩
    obtain ⟨f', hf', hgram'⟩ := h.factor_eq hpos
    rw [hf', ← hgram', hgram]

/-- What is left for the second half of a compact vector once the first is eliminated. -/
def eliminated (store : Store α n cap) (v : Compact α store.size) : Vector α store.size :=
  Vector.ofFn fun i =>
    v.sPart[i] + sum fun j => if j < i then store.sy i j * v.yPart[j] / store.sy j j else 0

theorem sPart_middleTimes {f : DenseSolver.Factor α store.size} (hf : store.factor = some f)
    (v : Compact α store.size) :
    (store.middleTimes v).sPart = DenseSolver.solve f (store.eliminated v) := by
  simp only [middleTimes, hf, Compact.sPart_ofParts]
  rfl

/-! ### Offers -/

/-- What becomes of a store that is offered a pair, and what the caller is told. -/
inductive Fate (store : Store α n cap) (s y : Vector α n) :
    Store α n cap → Admission α → Bool → Prop
  /-- Too little curvature: nothing changes. -/
  | refused (curvature : hasCurvature (dot s y) (dot y y) = false) :
      Fate store s y store (.refused (dot s y) (dot y y)) false
  /-- The pair is the newest one; in a full store the oldest one has gone. -/
  | appended {next : Store α n cap} (curvature : hasCurvature (dot s y) (dot y y) = true)
      (factored : (store.offered s y).factorize? = some next)
      (pairs : next.pairs =
        (if store.size < cap then store.pairs else store.pairs.tail) ++ [correction s y]) :
      Fate store s y next .appended true
  /-- Only the pair itself is left. -/
  | restarted {next : Store α n cap} (curvature : hasCurvature (dot s y) (dot y y) = true)
      (failed : (store.offered s y).factorize? = none)
      (factored : ((empty : Store α n cap).offered s y).factorize? = some next)
      (pairs : next.pairs = [correction s y]) : Fate store s y next .restarted true
  /-- Nothing is left. -/
  | lost (curvature : hasCurvature (dot s y) (dot y y) = true)
      (failed : (store.offered s y).factorize? = none)
      (failed_alone : ((empty : Store α n cap).offered s y).factorize? = none) :
      Fate store s y store.clear .lost false

theorem pairs_offered (hr : store.history.Aligned) (s y : Vector α n) :
    (store.offered s y).pairs =
      (if store.size < cap then store.pairs else store.pairs.tail) ++ [correction s y] := by
  rw [offered, pairs_append]
  by_cases h : store.size < cap
  · rw [Ring.toList_push_of_lt hr _ h, if_pos h]
    rfl
  · rw [Ring.toList_push_of_full hr _ h, if_neg h]
    rfl

theorem pairs_factorize {next : Store α n cap} (h : store.factorize? = some next) :
    next.pairs = store.pairs := by
  obtain ⟨f, -, rfl⟩ := factorize?_eq_some h
  rfl

theorem Consistent.fate_push (h : store.Consistent) (s y : Vector α n) :
    Fate store s y (store.push s y).1 (store.push s y).2 (store.push s y).2.isAdmitted := by
  have hcap : 0 < cap := Nat.zero_lt_of_lt h.aligned.start_lt
  rcases store.push_cases s y with
    ⟨hc, he⟩ | ⟨hc, ⟨next, hf, he⟩ | ⟨hnone, ⟨next, hf, he⟩ | ⟨halone, he⟩⟩⟩
  · rw [he]
    exact .refused hc
  · rw [he]
    exact .appended hc hf ((pairs_factorize hf).trans (pairs_offered h.aligned s y))
  · rw [he]
    refine .restarted hc hnone hf ((pairs_factorize hf).trans ?_)
    rw [pairs_offered (Ring.aligned_empty hcap), size_empty, if_pos hcap]
    rfl
  · rw [he, ← clear_eq_empty store]
    exact .lost hc hnone halone

/-- The outcomes exclude one another. -/
theorem Fate.unique {s y : Vector α n} {next next' : Store α n cap} {a a' : Admission α}
    {r r' : Bool} (h : Fate store s y next a r) (h' : Fate store s y next' a' r') :
    next = next' ∧ a = a' ∧ r = r' := by
  cases h <;> cases h' <;> simp_all

/-- After any operations everything kept belongs to the pairs held, a store that holds pairs has
a factor and multiplies with it, and the next offer has one of the four outcomes. -/
theorem kept_after (hcap : 0 < cap) (ops : List (Operation α n)) :
    let store : Store α n cap := after ops
    store.size ≤ cap ∧ List.ofFn store.pair = store.pairs ∧
      (∀ i j, store.ss i j = dot (store.pair i).s (store.pair j).s ∧
        store.sy i j = dot (store.pair i).s (store.pair j).y) ∧
      (∀ i, (store.pair i).rho = 1 / dot (store.pair i).s (store.pair i).y ∧
        Scalar.epsilon * dot (store.pair i).y (store.pair i).y <
          dot (store.pair i).s (store.pair i).y) ∧
      store.theta = scaling store.pairs ∧
      (∀ f, store.factor = some f ↔
        0 < store.size ∧ DenseSolver.factor (pairMatrix store.theta store.pair) = some f) ∧
      (0 < store.size → ∃ f, store.factor = some f ∧
        ∀ v, (store.middleTimes v).sPart = DenseSolver.solve f (store.eliminated v)) ∧
      ∀ s y next a r, Fate store s y next a r ↔
        store.push s y = (next, a) ∧ r = a.isAdmitted := by
  intro store
  have h : store.Consistent := consistent_after hcap ops
  have hpair : ∀ i, Admissible (store.pair i) := fun i => h.admissible _ (h.pair_mem i)
  refine ⟨store.size_le, h.ofFn_pair, fun i j => ⟨h.ss_eq i j, h.sy_eq i j⟩, ?_, h.theta_eq,
    h.factor_eq_some_iff, ?_, ?_⟩
  · intro i
    have hcurvature := (hpair i).curvature
    rw [hasCurvature, Bool.and_eq_true, decide_eq_true_eq] at hcurvature
    exact ⟨(hpair i).rho_eq, hcurvature.1⟩
  · intro hpos
    obtain ⟨f, hf, -⟩ := h.factor_eq hpos
    exact ⟨f, hf, sPart_middleTimes hf⟩
  · intro s y next a r
    constructor
    · intro hfate
      obtain ⟨hnext, ha, hr⟩ := hfate.unique (h.fate_push s y)
      rw [hnext, ha, hr]
      exact ⟨rfl, rfl⟩
    · rintro ⟨hpush, rfl⟩
      have hfate := h.fate_push s y
      rw [hpush] at hfate
      exact hfate

end

/-! ### A history that starts over -/

/-- A factorization that fails on every matrix but those with a single entry. -/
abbrev singleOnly : DenseSolver ℝ where
  Factor _ := Unit
  factor {k} _ := if k = 1 then some () else none
  solve _ b := b
  propose _ b := b

section

variable {n cap : Nat}

theorem isSome_factorize?_singleOnly :
    let _ := singleOnly
    ∀ store : Store ℝ n cap, store.factorize?.isSome = decide (store.size = 1) := by
  intro solver store
  rw [factorize?, Option.isSome_map]
  change (if store.size = 1 then some () else none).isSome = _
  by_cases h : store.size = 1 <;> simp [h]

theorem pairs_push_singleOnly :
    let _ := singleOnly
    ∀ {store : Store ℝ n cap}, store.Consistent → ∀ {s y : Vector ℝ n},
      Scalar.epsilon * dot y y < dot s y → (store.push s y).1.pairs = [correction s y] := by
  intro solver store h s y hc
  have hcap : 0 < cap := Nat.zero_lt_of_lt h.aligned.start_lt
  have hfate := h.fate_push s y
  generalize (store.push s y).1 = next at hfate ⊢
  generalize (store.push s y).2 = a at hfate
  cases hfate with
  | refused curvature =>
    rw [hasCurvature_real.mpr hc] at curvature
    cases curvature
  | appended _ factored pairs =>
    have hsize : (store.offered s y).size = 1 := by
      have hsome := isSome_factorize?_singleOnly (store.offered s y)
      rw [factored] at hsome
      exact of_decide_eq_true hsome.symm
    have hlength := congrArg List.length pairs
    rw [pairs_factorize factored, length_pairs, hsize, List.length_append,
      List.length_singleton] at hlength
    have hnone := List.eq_nil_of_length_eq_zero (Nat.right_eq_add.mp hlength)
    rw [pairs, hnone, List.nil_append]
  | restarted _ _ _ pairs => exact pairs
  | lost _ _ failed_alone =>
    have hsize : ((empty : Store ℝ n cap).offered s y).size = 1 := by
      rw [← length_pairs, pairs_offered (Ring.aligned_empty hcap), size_empty, if_pos hcap]
      rfl
    have hsome := isSome_factorize?_singleOnly ((empty : Store ℝ n cap).offered s y)
    rw [failed_alone, hsize] at hsome
    cases hsome

end

theorem kept_after_restart :
    let _ := singleOnly
    let store : Store ℝ 2 2 := after [.offer #v[1, 0] #v[1, 0], .offer #v[0, 1] #v[0, 2]]
    0 < 2 ∧ store.pairs = [correction #v[0, 1] #v[0, 2]] ∧ store.theta = 2 ∧
      store.factor.isSome = true := by
  intro solver store
  have hpairs : store.pairs = [correction #v[0, 1] #v[0, 2]] := by
    apply pairs_push_singleOnly (consistent_after Nat.two_pos [.offer #v[1, 0] #v[1, 0]])
    norm_num [dot, BoxDescent.sum, Fin.foldl_succ, Scalar.epsilon]
  obtain ⟨-, -, -, -, htheta, -, hfactor, -⟩ := kept_after Nat.two_pos
    ([.offer #v[1, 0] #v[1, 0], .offer #v[0, 1] #v[0, 2]] : List (Operation ℝ 2))
  change store.theta = scaling store.pairs at htheta
  have hpos : 0 < store.size := by
    rw [← store.length_pairs, hpairs]
    exact Nat.one_pos
  obtain ⟨f, hf, -⟩ := hfactor hpos
  refine ⟨Nat.two_pos, hpairs, ?_, Option.isSome_of_eq_some hf⟩
  rw [htheta, hpairs]
  change dot #v[(0 : ℝ), 2] #v[0, 2] / dot #v[0, 1] #v[0, 2] = 2
  norm_num [dot, BoxDescent.sum, Fin.foldl_succ]

end Store

end BoxDescent
