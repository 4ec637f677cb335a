import BoxDescent.Proofs.History.Gram
import BoxDescent.Proofs.History.Operation

/-!
# Which pairs a store holds

When every positive definite matrix has a factor, no pair is lost to a failed
factorization, since the matrix of a store is definite.  So an offer is either refused or
appended, and after any operations a store holds the newest of the pairs whose curvature
sufficed since it was last cleared.
-/

namespace BoxDescent

namespace Store

/-- The pairs with sufficient curvature since the last clearing, oldest first. -/
noncomputable def admitted {n : Nat} (ops : List (Operation ℝ n)) :
    List (Vector ℝ n × Vector ℝ n) :=
  ops.foldl (fun held op =>
    match op with
    | .offer s y => if Scalar.epsilon * dot y y < dot s y then held ++ [(s, y)] else held
    | .clear => []) []

section

variable {n : Nat}

theorem admitted_append (ops : List (Operation ℝ n)) (op : Operation ℝ n) :
    admitted (ops ++ [op]) =
      match op with
      | .offer s y =>
        if Scalar.epsilon * dot y y < dot s y then admitted ops ++ [(s, y)] else admitted ops
      | .clear => [] := by
  rw [admitted, List.foldl_append]
  rfl

theorem curvature_of_mem_admitted {ops : List (Operation ℝ n)} {p : Vector ℝ n × Vector ℝ n}
    (hp : p ∈ admitted ops) : Scalar.epsilon * dot p.2 p.2 < dot p.1 p.2 := by
  induction ops using List.reverseRecOn with
  | nil => cases hp
  | append_singleton ops op ih =>
    rw [admitted_append] at hp
    cases op with
    | clear => cases hp
    | offer s y =>
      simp only at hp
      split at hp
      · rename_i hc
        rcases List.mem_append.mp hp with hold | hnew
        · exact ih hold
        · rw [List.mem_singleton.mp hnew]
          exact hc
      · exact ih hp

/-- Pairs that all have sufficient curvature are all admitted. -/
theorem admitted_offers {ps : List (Vector ℝ n × Vector ℝ n)}
    (h : ∀ p ∈ ps, Scalar.epsilon * dot p.2 p.2 < dot p.1 p.2) :
    admitted (ps.map fun p => .offer p.1 p.2) = ps := by
  induction ps using List.reverseRecOn with
  | nil => rfl
  | append_singleton ps p ih =>
    have hlast := h p (List.mem_append_right _ (List.mem_singleton_self p))
    rw [List.map_append, List.map_singleton, admitted_append]
    simp only [if_pos hlast]
    rw [ih fun q hq => h q (List.mem_append_left _ hq)]

end

section

variable {β : Type} {cap : Nat}

theorem length_newest (xs : List β) : (newest cap xs).length = min cap xs.length :=
  Ring.length_rtake xs

theorem newest_of_length_le {xs : List β} (h : xs.length ≤ cap) : newest cap xs = xs := by
  rw [newest, Nat.sub_eq_zero_of_le h, List.drop_zero]

theorem newest_newest_append (hcap : 0 < cap) (xs : List β) (x : β) :
    newest cap (newest cap xs ++ [x]) = newest cap (xs ++ [x]) :=
  Ring.rtake_rtake_concat hcap xs x

theorem map_newest {γ : Type} (f : β → γ) (xs : List β) :
    (newest cap xs).map f = newest cap (xs.map f) := by
  rw [newest, newest, List.map_drop, List.length_map]

end

variable [DenseSolver ℝ] {n cap : Nat} {store : Store ℝ n cap}

section

variable [CompleteFactor]

theorem Tabulated.isSome_factorize? (h : store.Tabulated) : store.factorize?.isSome = true := by
  have hsome := CompleteFactor.isSome_factor h.posDef_gramMatrix
  exact Option.isSome_map.trans hsome

theorem Tabulated.push_cases (h : store.Tabulated) (s y : Vector ℝ n) :
    (¬Scalar.epsilon * dot y y < dot s y ∧
      store.push s y = (store, .refused (dot s y) (dot y y))) ∨
    (Scalar.epsilon * dot y y < dot s y ∧
      ∃ next, (store.offered s y).factorize? = some next ∧
        store.push s y = (next, .appended)) := by
  rcases store.push_cases s y with ⟨hc, he⟩ | ⟨hc, hnext | ⟨hnone, -⟩⟩
  · refine .inl ⟨?_, he⟩
    intro hlt
    rw [hasCurvature_real.mpr hlt] at hc
    cases hc
  · exact .inr ⟨hasCurvature_real.mp hc, hnext⟩
  · have hsome := (h.offered hc).isSome_factorize?
    rw [hnone] at hsome
    cases hsome

theorem Tabulated.push_of_curvature (h : store.Tabulated) {s y : Vector ℝ n}
    (hc : Scalar.epsilon * dot y y < dot s y) :
    (store.push s y).2 = .appended ∧
      (store.push s y).1.pairs = newest cap (store.pairs ++ [correction s y]) := by
  rcases h.push_cases s y with ⟨hn, -⟩ | ⟨-, next, hnext, he⟩
  · exact absurd hc hn
  · obtain ⟨f, -, rfl⟩ := factorize?_eq_some hnext
    rw [he]
    exact ⟨rfl, pairs_append_eq h.aligned _ (dot y y / dot s y)⟩

theorem Tabulated.push_of_not_curvature (h : store.Tabulated) {s y : Vector ℝ n}
    (hc : ¬Scalar.epsilon * dot y y < dot s y) :
    store.push s y = (store, .refused (dot s y) (dot y y)) := by
  rcases h.push_cases s y with ⟨-, he⟩ | ⟨hlt, -⟩
  · exact he
  · exact absurd hlt hc

theorem Tabulated.isAdmitted_push_iff (h : store.Tabulated) (s y : Vector ℝ n) :
    (store.push s y).2.isAdmitted = true ↔ Scalar.epsilon * dot y y < dot s y := by
  by_cases hc : Scalar.epsilon * dot y y < dot s y
  · rw [(h.push_of_curvature hc).1]
    exact ⟨fun _ => hc, fun _ => rfl⟩
  · rw [h.push_of_not_curvature hc]
    constructor
    · intro hf
      cases hf
    · intro hlt
      exact absurd hlt hc

/-- After any operations the newest admitted pairs are held, each with the reciprocal of
its curvature. -/
theorem pairs_after (hcap : 0 < cap) (ops : List (Operation ℝ n)) :
    (after ops : Store ℝ n cap).pairs =
      newest cap ((admitted ops).map fun p => correction p.1 p.2) := by
  induction ops using List.reverseRecOn with
  | nil => exact (List.drop_nil ..).symm
  | append_singleton ops op ih =>
    have h : (after ops : Store ℝ n cap).Consistent := consistent_after hcap ops
    rw [after_append, admitted_append]
    cases op with
    | clear =>
      simp only [perform, clear_eq_empty]
      exact (List.drop_nil ..).symm
    | offer s y =>
      simp only [perform]
      by_cases hc : Scalar.epsilon * dot y y < dot s y
      · rw [if_pos hc, (h.push_of_curvature hc).2, ih, List.map_append,
          newest_newest_append hcap]
        rfl
      · rw [if_neg hc, h.push_of_not_curvature hc, ih]

theorem pairs_after_offers (hcap : 0 < cap) {ps : List (Vector ℝ n × Vector ℝ n)}
    (h : ∀ p ∈ ps, Scalar.epsilon * dot p.2 p.2 < dot p.1 p.2) :
    (after (ps.map fun p => .offer p.1 p.2) : Store ℝ n cap).pairs =
      newest cap (ps.map fun p => correction p.1 p.2) := by
  rw [pairs_after hcap, admitted_offers h]

end

end Store

end BoxDescent
