import BoxDescent.Proofs.Extended
import BoxDescent.Proofs.LineSearch.Trials

/-!
# Steps along a line

Where a search goes next is a step that its limits confine, the best step so far, or a step
half way to that.  So a set of steps that has the confined ones and is closed under halving
has them all.  In exact arithmetic no step of a search is negative, so that an accepted trial
never has a value above the start.
-/

namespace BoxDescent

variable {n : Nat}

/-! ### The best end of an interval -/

section

variable {α : Type} [Scalar α]

theorem Interval.best_absorb (iv : Interval α) (here : Endpoint α) :
    (iv.absorb here).best = iv.best ∨ (iv.absorb here).best = here := by
  unfold absorb
  split
  · exact .inl rfl
  · exact .inr rfl
  · exact .inr rfl
  · exact .inr rfl

theorem Bracket.best_interpolate (b : Bracket α) (slope : α) (tilted : Bool)
    (here : Endpoint α) :
    (b.interpolate slope tilted here).1.best.stp = b.interval.best.stp ∨
      (b.interpolate slope tilted here).1.best.stp = here.stp := by
  cases tilted with
  | true =>
    rcases Interval.best_absorb (b.interval.mapEnds (Endpoint.lower slope))
      (here.lower slope) with h | h
    · exact .inl (congrArg (fun e => (e.raise slope).stp) h)
    · exact .inr (congrArg (fun e => (e.raise slope).stp) h)
  | false =>
    rcases Interval.best_absorb b.interval here with h | h
    · exact .inl (congrArg Endpoint.stp h)
    · exact .inr (congrArg Endpoint.stp h)

end

/-! ### Steps that stay in a set -/

section

variable {α : Type} [Scalar α] {line : Line α n} {p : SearchParams α} {S : α → Prop}

/-- The step and the point from which the search would backtrack are in the set. -/
def Phase.Within (S : α → Prop) (phase : Phase α) (stp : α) : Prop := S stp ∧ S phase.anchor

variable (hconfined : ∀ c, S (Scalar.smaller (Scalar.larger c 0) line.stpmax))

include hconfined

theorem Bracket.within_update {b : Bracket α} {here : Endpoint α} (hhere : S here.stp)
    (hbest : S b.interval.best.stp) (stage1 tilted : Bool) :
    (Phase.interpolating (b.update line p stage1 tilted here).1).Within S
      (b.update line p stage1 tilted here).2 := by
  have hanchor : S (b.interpolate (line.testSlope p) tilted here).1.best.stp := by
    rcases b.best_interpolate (line.testSlope p) tilted here with h | h
    · rw [h]
      exact hbest
    · rw [h]
      exact hhere
  have hchosen : ∀ (collapsed : Bool) (c : α),
      S (if collapsed then (b.interpolate (line.testSlope p) tilted here).1.best.stp
        else Scalar.smaller (Scalar.larger c 0) line.stpmax) := by
    intro collapsed c
    cases collapsed with
    | true => exact hanchor
    | false => exact hconfined c
  cases hbracketed : (b.interpolate (line.testSlope p) tilted here).1.bracketed with
  | true =>
    simp only [update, hbracketed, if_true]
    exact ⟨hchosen _ _, hanchor⟩
  | false =>
    simp only [update, hbracketed, Bool.false_eq_true, if_false]
    exact ⟨hconfined _, hanchor⟩

variable [Spaced α] (hhalfway : ∀ a s, S a → S s → S (halfway a s))

include hhalfway

/-- Every verdict passes on a step in the set. -/
theorem Verdict.within_of {phase phase' : Phase α} {t : Trial α n} {stp' : α}
    (h : phase.Within S t.stp) (hnext : Verdict.of line p phase t = .next phase' stp') :
    phase'.Within S stp' := by
  obtain ⟨hstp, hanchor⟩ := h
  cases continues_of hnext with
  | interpolates => exact Bracket.within_update hconfined hstp hanchor _ _
  | backtracks => exact ⟨hhalfway _ _ hanchor hstp, hanchor⟩

/-- Every trial of a search has a step in the set and is the point of the line for it. -/
theorem Search.within_of_mem {objective : Objective α n} {calls : Nat} {stp : α} (hzero : S 0)
    (hstp : S (Scalar.smaller stp line.stpmax)) {t : Trial α n}
    (ht : t ∈ (Search.of line p objective calls stp).trials) :
    S t.stp ∧ t.x = line.point t.stp := by
  by_cases hslope : line.slope < 0
  · rw [of_descent hslope] at ht
    have hbegin : (Phase.interpolating (Bracket.begin line stp)).Within S
        (Scalar.smaller stp line.stpmax) := ⟨hstp, hzero⟩
    obtain ⟨k, phase, hwithin, htrial⟩ := probe_mem (Phase.Within S)
      (fun _ _ _ _ _ h hnext => Verdict.within_of hconfined hhalfway h hnext) hbegin ht
    exact ⟨hwithin.1, congrArg Trial.x htrial⟩
  · rw [of_not_descent hslope] at ht
    cases ht

end

/-! ### Steps that are not negative -/

section

variable {α : Type} [Scalar α] {a b : α}

theorem Scalar.larger_not_neg [OrderedScalar α] (a : α) : ¬larger a 0 < 0 := by
  unfold larger
  split
  · exact OrderedScalar.lt_irrefl 0
  · rename_i h
    split
    · exact h
    · exact OrderedScalar.lt_irrefl 0

theorem Scalar.smaller_not_neg (ha : ¬a < 0) (hb : ¬b < 0) : ¬smaller a b < 0 := by
  rcases smaller_cases a b with h | h
  · rw [h]
    exact ha
  · rw [h]
    exact hb

/-- Neither the step nor the point from which the search would backtrack is negative. -/
def Phase.Forward (phase : Phase α) (stp : α) : Prop := ¬stp < 0 ∧ ¬phase.anchor < 0

end

/-! ### Exact arithmetic -/

section

theorem halfway_not_neg {a s : Extended} (ha : ¬a < 0) (hs : ¬s < 0) : ¬halfway a s < 0 := by
  have hhalf : (0 : ℝ) < 0.5 := by norm_num
  cases a with
  | finite r =>
    cases s with
    | finite q =>
      have hr : 0 ≤ r := not_lt.mp ha
      have hq : 0 ≤ q := not_lt.mp hs
      change ¬r + 0.5 * (q + -r) < (0 : ℝ)
      linarith
    | top =>
      change ¬Extended.Less ((Extended.finite r).add (Extended.directed 0.5)) (.finite 0)
      rw [Extended.directed_of_pos hhalf]
      exact id
    | bottom => exact absurd True.intro hs
    | undefined => exact id
  | top =>
    cases s with
    | finite q =>
      change ¬Extended.Less (Extended.top.add (Extended.directed (-0.5))) (.finite 0)
      rw [Extended.directed_of_neg (neg_neg_of_pos hhalf)]
      exact id
    | bottom => exact absurd True.intro hs
    | _ => exact id
  | bottom => exact absurd True.intro ha
  | undefined => cases s <;> exact id

variable [Spaced Extended] {line : Line Extended n} {p : SearchParams Extended}

theorem Verdict.forward_of (hmax : ¬line.stpmax < 0) {phase phase' : Phase Extended}
    {t : Trial Extended n} {stp' : Extended} (h : phase.Forward t.stp)
    (hnext : Verdict.of line p phase t = .next phase' stp') : phase'.Forward stp' :=
  Verdict.within_of (S := fun s => ¬s < 0)
    (fun c => Scalar.smaller_not_neg (Scalar.larger_not_neg c) hmax)
    (fun _ _ => halfway_not_neg) h hnext

/-- The value of an accepted trial is not above the start. -/
theorem Search.le_of_accepted {objective : Objective Extended n} {calls : Nat} {stp : Extended}
    (hmax : ¬line.stpmax < 0) (hstp : ¬stp < 0) (hftol : 0 < p.ftol) {t : Trial Extended n}
    {how : Acceptance} (h : (Search.of line p objective calls stp).outcome = .accepted t how) :
    t.eval.f ≤ line.f0 := by
  obtain ⟨hslope, hmade, -⟩ := probed_of_accepted h
  have hbegin : (Phase.interpolating (Bracket.begin line stp)).Forward
      (Scalar.smaller stp line.stpmax) :=
    ⟨Scalar.smaller_not_neg hstp hmax, OrderedScalar.lt_irrefl (0 : Extended)⟩
  obtain ⟨-, phase, hforward, hverdict⟩ := probe_accepted Phase.Forward
    (fun _ _ _ _ _ hforward hnext => Verdict.forward_of hmax hforward hnext) hbegin hmade
  rcases Verdict.le_of_accept hverdict with hdecrease | hle
  · exact Extended.le_of_decrease hforward.1 hftol hslope hdecrease
  · exact hle

end

/-! ### Real steps -/

theorem halfway_real (a stp : ℝ) : halfway a stp = (a + stp) / 2 := by
  change a + 0.5 * (stp - a) = (a + stp) / 2
  ring

/-- Every trial of a search has a step between zero and the longest one, and is the point of
the line for it. -/
theorem Search.between_of_mem [Spaced ℝ] {line : Line ℝ n} {p : SearchParams ℝ}
    (hmax : 0 ≤ line.stpmax) {objective : Objective ℝ n} {calls : Nat} {stp : ℝ} (hstp : 0 ≤ stp)
    {t : Trial ℝ n} (ht : t ∈ (Search.of line p objective calls stp).trials) :
    (0 ≤ t.stp ∧ t.stp ≤ line.stpmax) ∧ t.x = line.point t.stp := by
  have hconfined : ∀ c : ℝ, 0 ≤ Scalar.smaller (Scalar.larger c 0) line.stpmax ∧
      Scalar.smaller (Scalar.larger c 0) line.stpmax ≤ line.stpmax := by
    intro c
    rw [Scalar.smaller_real, Scalar.larger_real]
    exact ⟨le_min (le_max_right c 0) hmax, min_le_right _ _⟩
  have hhalfway : ∀ a s : ℝ, 0 ≤ a ∧ a ≤ line.stpmax → 0 ≤ s ∧ s ≤ line.stpmax →
      0 ≤ halfway a s ∧ halfway a s ≤ line.stpmax := by
    rintro a s ⟨ha, hamax⟩ ⟨hs, hsmax⟩
    rw [halfway_real]
    constructor <;> linarith
  have hfirst : 0 ≤ Scalar.smaller stp line.stpmax ∧
      Scalar.smaller stp line.stpmax ≤ line.stpmax := by
    rw [Scalar.smaller_real]
    exact ⟨le_min hstp hmax, min_le_right _ _⟩
  exact within_of_mem (S := fun s => 0 ≤ s ∧ s ≤ line.stpmax) hconfined hhalfway
    ⟨le_refl 0, hmax⟩ hfirst ht

end BoxDescent
