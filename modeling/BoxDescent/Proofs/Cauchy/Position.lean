import BoxDescent.Proofs.Cauchy.Path
import BoxDescent.Cauchy.Walk

/-!
# Where a walk is

At the start of each segment a walk knows the path point in parts: variables without
velocity are where the path keeps them from now on, and the others follow their velocity
from the start of the path, up to the breakpoints that are left.
-/

namespace BoxDescent

namespace Walk

variable {n k : Nat} {box : Box ℝ n} {x g : Vector ℝ n}

/-- The walk is on the path from `x` against `g` at time `t`, with the breakpoints `rest`
ahead. -/
structure On (box : Box ℝ n) (x g : Vector ℝ n) (w : Walk ℝ n k) (t : ℝ)
    (rest : List (Breakpoint ℝ n)) : Prop where
  nonneg : 0 ≤ t
  velocity_eq : ∀ i : Fin n, w.velocity[i] ≠ 0 → w.velocity[i] = -g[i]
  moving : ∀ i : Fin n, w.velocity[i] ≠ 0 → Path.departure box x g i = .moving
  not_held : ∀ i : Fin n, w.velocity[i] ≠ 0 → w.held[i] = false
  mem_rest : ∀ i : Fin n, w.velocity[i] ≠ 0 → ∀ τ, Path.arrival? box x g i = some τ →
    Breakpoint.mk i τ ∈ rest
  resting : ∀ i : Fin n, w.velocity[i] = 0 → ∀ s, t ≤ s → (box.descend x g s)[i] = w.point[i]
  stationary : ∀ i : Fin n, w.velocity[i] = 0 → w.held[i] = false → g[i] = 0
  ahead : ∀ b ∈ rest, t ≤ b.time
  pending : ∀ b ∈ rest, w.velocity[b.index] ≠ 0
  arrival : ∀ b ∈ rest, Path.arrival? box x g b.index = some b.time
  sorted : rest.Pairwise fun a c => a.time ≤ c.time
  nodup : (rest.map Breakpoint.index).Nodup

theorem on_start (hx : box.contains x = true) {w : Walk ℝ n k}
    (hpoint : w.point = x) (hvelocity : w.velocity = (Path.of box x g).velocity)
    (hheld : w.held = (Path.of box x g).held) :
    On box x g w 0 (Path.of box x g).breakpoints := by
  have hmoving : ∀ i : Fin n, w.velocity[i] ≠ 0 → Path.departure box x g i = .moving := by
    intro i hi
    rw [hvelocity] at hi
    exact Path.moving_of_velocity hi
  have hstill : ∀ i : Fin n, w.velocity[i] = 0 → Path.departure box x g i ≠ .moving := by
    intro i hi
    rw [hvelocity] at hi
    exact (Path.velocity_eq_zero_iff hx i).mp hi
  constructor
  case nonneg => exact le_refl 0
  case velocity_eq =>
    intro i hi
    rw [hvelocity]
    exact Path.velocity_of_moving (hmoving i hi)
  case moving => exact hmoving
  case not_held =>
    intro i hi
    rw [hheld, Path.getElem_held, hmoving i hi]
    rfl
  case mem_rest =>
    intro i hi τ hτ
    exact Path.mem_breakpoints.mpr ⟨hmoving i hi, hτ⟩
  case resting =>
    intro i hi s hs
    rw [hpoint]
    exact Path.descend_of_not_moving hx (hstill i hi) hs
  case stationary =>
    intro i hi hfree
    rw [hheld, Path.getElem_held] at hfree
    cases hd : Path.departure box x g i with
    | held =>
      rw [hd] at hfree
      cases hfree
    | stationary => exact Path.eq_zero_of_stationary hx hd
    | moving => exact absurd hd (hstill i hi)
  case ahead =>
    intro b hb
    obtain ⟨hm, hτ⟩ := Path.mem_breakpoints.mp hb
    exact le_of_lt (Path.arrival_pos hx hm hτ)
  case pending =>
    intro b hb hi
    exact hstill b.index hi (Path.mem_breakpoints.mp hb).1
  case arrival => exact fun b hb => (Path.mem_breakpoints.mp hb).2
  case sorted => exact Path.breakpoints_sorted
  case nodup => exact Path.nodup_breakpoints

namespace On

variable {w : Walk ℝ n k} {t : ℝ} {rest : List (Breakpoint ℝ n)}

theorem congr {w' : Walk ℝ n k} (h : On box x g w t rest) (hpoint : w'.point = w.point)
    (hvelocity : w'.velocity = w.velocity) (hheld : w'.held = w.held) :
    On box x g w' t rest where
  nonneg := h.nonneg
  velocity_eq := hvelocity ▸ h.velocity_eq
  moving := hvelocity ▸ h.moving
  not_held := hvelocity ▸ hheld ▸ h.not_held
  mem_rest := hvelocity ▸ h.mem_rest
  resting := hvelocity ▸ hpoint ▸ h.resting
  stationary := hvelocity ▸ hheld ▸ h.stationary
  ahead := h.ahead
  pending := hvelocity ▸ h.pending
  arrival := h.arrival
  sorted := h.sorted
  nodup := h.nodup

theorem getElem_descend (h : On box x g w t rest) (hx : box.contains x = true) {s : ℝ}
    (hs : t ≤ s) (hbefore : ∀ b ∈ rest, s ≤ b.time) (i : Fin n) :
    (box.descend x g s)[i] =
      if w.velocity[i] = 0 then w.point[i] else x[i] + s * w.velocity[i] := by
  split
  · rename_i hi
    exact h.resting i hi s hs
  · rename_i hi
    rw [h.velocity_eq i hi]
    apply Path.descend_of_moving hx (h.moving i hi) (le_trans h.nonneg hs)
    intro τ hτ
    exact hbefore ⟨i, τ⟩ (h.mem_rest i hi τ hτ)

/-- Up to the next breakpoint the path is straight. -/
theorem coords_descend (h : On box x g w t rest) (hx : box.contains x = true) {s : ℝ}
    (hs : t ≤ s) (hbefore : ∀ b ∈ rest, s ≤ b.time) :
    coords (box.descend x g s) =
      coords (box.descend x g t) + (s - t) • coords w.velocity := by
  funext i
  rw [Pi.add_apply, Pi.smul_apply, smul_eq_mul, coords_apply, coords_apply, coords_apply,
    h.getElem_descend hx hs hbefore i, h.getElem_descend hx (le_refl t) h.ahead i]
  split
  · rename_i hi
    rw [hi, mul_zero, add_zero]
  · ring

/-- Behind the last breakpoint nothing moves, unless the path is endless. -/
theorem velocity_eq_zero (h : On box x g w t []) (hend : (Path.of box x g).endless = false) :
    coords w.velocity = 0 := by
  funext i
  by_contra hi
  cases harr : Path.arrival? box x g i with
  | none =>
    rw [Path.endless_iff.mpr ⟨i, h.moving i hi, harr⟩] at hend
    cases hend
  | some τ => cases h.mem_rest i hi τ harr

section

variable {b : Breakpoint ℝ n}

theorem getElem_set_ne {β : Type} (v : Vector β n) {i j : Fin n} (a : β) (h : j ≠ i) :
    (v.set i a i.isLt)[j] = v[j] := by
  have hne : (i : Nat) ≠ j := fun e => h (Fin.ext e.symm)
  exact Vector.getElem_set_ne _ _ hne

theorem getElem_set_self {β : Type} (v : Vector β n) (i : Fin n) (a : β) :
    (v.set i a i.isLt)[i] = a := Vector.getElem_set_self _

/-- A variable that still moves when variable `i` has stopped is another one and moved
before. -/
theorem ne_zero_of_set {v : Vector ℝ n} {i j : Fin n} (h : (v.set i 0 i.isLt)[j] ≠ 0) :
    j ≠ i ∧ v[j] ≠ 0 := by
  have hne : j ≠ i := by
    rintro rfl
    exact h (getElem_set_self v j 0)
  rw [getElem_set_ne v 0 hne] at h
  exact ⟨hne, h⟩

theorem index_ne (h : On box x g w t (b :: rest)) {c : Breakpoint ℝ n} (hc : c ∈ rest) :
    c.index ≠ b.index := by
  have hnodup := h.nodup
  rw [List.map_cons, List.nodup_cons] at hnodup
  intro he
  exact hnodup.1 (he ▸ List.mem_map_of_mem hc)

theorem time_le (h : On box x g w t (b :: rest)) : ∀ c ∈ b :: rest, b.time ≤ c.time := by
  intro c hc
  rcases List.mem_cons.mp hc with rfl | hmem
  · exact le_refl _
  · exact (List.pairwise_cons.mp h.sorted).1 c hmem

/-- When the variable of the next breakpoint stops, the walk is at that breakpoint. -/
theorem stop (h : On box x g w t (b :: rest)) (dt : ℝ) :
    On box x g (w.stopVariable box (Path.of box x g) b.index dt) b.time rest := by
  have hfirst := h.ahead b List.mem_cons_self
  constructor
  case nonneg => exact le_trans h.nonneg hfirst
  case velocity_eq =>
    intro i hi
    obtain ⟨hne, hold⟩ := ne_zero_of_set hi
    exact (getElem_set_ne _ _ hne).trans (h.velocity_eq i hold)
  case moving => exact fun i hi => h.moving i (ne_zero_of_set hi).2
  case not_held =>
    intro i hi
    obtain ⟨hne, hold⟩ := ne_zero_of_set hi
    exact (getElem_set_ne _ _ hne).trans (h.not_held i hold)
  case mem_rest =>
    intro i hi τ hτ
    obtain ⟨hne, hold⟩ := ne_zero_of_set hi
    rcases List.mem_cons.mp (h.mem_rest i hold τ hτ) with he | hmem
    · exact absurd (congrArg Breakpoint.index he) hne
    · exact hmem
  case resting =>
    intro i hi s hs
    simp only [stopVariable] at hi ⊢
    by_cases he : i = b.index
    · rw [he, getElem_set_self, h.velocity_eq b.index (h.pending b List.mem_cons_self)]
      exact Path.descend_of_arrived (h.arrival b List.mem_cons_self) hs
    · rw [getElem_set_ne _ _ he] at hi ⊢
      exact h.resting i hi s (le_trans hfirst hs)
  case stationary =>
    intro i hi hfree
    simp only [stopVariable] at hi hfree
    by_cases he : i = b.index
    · rw [he, getElem_set_self] at hfree
      cases hfree
    · rw [getElem_set_ne _ _ he] at hi hfree
      exact h.stationary i hi hfree
  case ahead => exact (List.pairwise_cons.mp h.sorted).1
  case pending =>
    intro c hc
    simp only [stopVariable]
    rw [getElem_set_ne _ _ (h.index_ne hc)]
    exact h.pending c (List.mem_cons_of_mem b hc)
  case arrival => exact fun c hc => h.arrival c (List.mem_cons_of_mem b hc)
  case sorted => exact (List.pairwise_cons.mp h.sorted).2
  case nodup => exact (List.nodup_cons.mp h.nodup).2

end

end On

end Walk

end BoxDescent
