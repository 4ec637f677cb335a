import BoxDescent.Proofs.LineSearch.Stages
import BoxDescent.Proofs.LineSearch.Steps

/-!
# Accepted trials

What a caller can rely on in a trial that a search accepts, for objectives that may answer
anything.  The step lies between zero and the longest one, since each way to the next step
stays there; so sufficient decrease keeps the value from rising above the start.
-/

namespace BoxDescent

variable {n : Nat}

/-! ### Searches that never backtrack -/

namespace Search

section

variable {α : Type} [Scalar α] [Spaced α] {line : Line α n} {p : SearchParams α}
  {objective : Objective α n} {left k : Nat} {phase : Phase α} {stp : α} {t : Trial α n}
  {how : Acceptance}

theorem backtracked_of_backtracking {a : α}
    (h : (probe line p objective left k (.backtracking a) stp).2 = some (t, how)) :
    how = .backtracked := by
  obtain ⟨-, phase', ⟨a', rfl⟩, haccept⟩ := probe_accepted
    (fun phase' _ => ∃ a', phase' = .backtracking a')
    (fun k phase' stp' next stp'' hphase hnext => by
      obtain ⟨a', rfl⟩ := hphase
      cases Verdict.continues_of hnext with
      | backtracks => exact ⟨_, rfl⟩) ⟨a, rfl⟩ h
  cases Verdict.accepts_of haccept with
  | backtracked decrease => rfl

/-- Unless a search ends by backtracking, all of its trials were finite. -/
theorem isFinite_of_mem_probe (h : (probe line p objective left k phase stp).2 = some (t, how))
    (hhow : how ≠ .backtracked) {u : Trial α n}
    (hu : u ∈ (probe line p objective left k phase stp).1) : u.eval.isFinite = true := by
  induction left generalizing k phase stp with
  | zero => cases h
  | succ left ih =>
    unfold probe at h hu
    dsimp only at h hu
    cases hverdict : Verdict.of line p phase (line.trial objective k stp) with
    | accept how' =>
      rw [hverdict] at hu
      rw [List.mem_singleton.mp hu]
      exact Verdict.isFinite_of_accept hverdict
    | next phase' stp' =>
      rw [hverdict] at h hu
      cases Verdict.continues_of hverdict with
      | backtracks => exact absurd (backtracked_of_backtracking h) hhow
      | interpolates finite =>
        rcases List.mem_cons.mp hu with rfl | hlater
        · exact finite
        · exact ih h hlater

end

end Search

/-! ### Steps with limits -/

namespace Extended

/-- A finite step between zero and `m`. -/
def Between (m : ℝ) (s : Extended) : Prop := ∃ r : ℝ, s = .finite r ∧ 0 ≤ r ∧ r ≤ m

variable {m : ℝ} {a s : Extended}

theorem Between.nonneg (h : Between m s) : 0 ≤ s := by
  obtain ⟨r, rfl, hr, -⟩ := h
  exact hr

theorem Between.le (h : Between m s) : s ≤ .finite m := by
  obtain ⟨r, rfl, -, hr⟩ := h
  exact hr

theorem between_zero (hm : 0 ≤ m) : Between m 0 := ⟨0, rfl, le_refl 0, hm⟩

theorem between_smaller (hm : 0 ≤ m) (hs : ¬s < 0) : Between m (Scalar.smaller s (.finite m)) := by
  unfold Scalar.smaller
  split
  · exact ⟨m, rfl, hm, le_refl m⟩
  · rename_i hle
    split
    · rename_i hnumber
      cases s with
      | finite r => exact ⟨r, rfl, not_lt.mp hs, not_lt.mp hle⟩
      | top => exact absurd True.intro hle
      | bottom => exact absurd True.intro hs
      | undefined => exact (beq_iff.mp hnumber).elim
    · exact ⟨m, rfl, hm, le_refl m⟩

theorem between_halfway (ha : Between m a) (hs : Between m s) : Between m (halfway a s) := by
  obtain ⟨r, rfl, hr, hrm⟩ := ha
  obtain ⟨q, rfl, hq, hqm⟩ := hs
  refine ⟨r + 0.5 * (q + -r), rfl, ?_, ?_⟩ <;> linarith

theorem not_neg_of_nonneg (h : 0 ≤ s) : ¬s < 0 := by
  cases s with
  | finite r =>
    have hr : (0 : ℝ) ≤ r := h
    exact not_lt.mpr hr
  | top => exact id
  | bottom => exact h.elim
  | undefined => exact id

theorem abs_of_less_zero (h : s < 0) : Scalar.abs s = -s := by
  cases s with
  | finite r => exact congrArg finite (abs_of_neg h)
  | bottom => rfl
  | top => exact h.elim
  | undefined => exact h.elim

end Extended

/-! ### What is accepted -/

namespace Search

/-- What holds of a trial that a search along the line accepts. -/
structure Acceptable [Spaced Extended] (line : Line Extended n) (p : SearchParams Extended)
    (objective : Objective Extended n) (calls : Nat) (stp : Extended) (t : Trial Extended n)
    (how : Acceptance) : Prop where
  called : Calls line.box objective (calls + 1) (of line p objective calls stp).trials
  evals_pos : 1 ≤ (of line p objective calls stp).evals
  evals_le : (of line p objective calls stp).evals ≤ p.maxEvals
  last : (of line p objective calls stp).trials.getLast? = some t
  finite : t.eval.isFinite = true
  point : t.x = line.box.project (addScaled line.x t.stp line.d)
  stp_nonneg : 0 ≤ t.stp
  stp_le : t.stp ≤ line.stpmax
  value : 0 < p.ftol → t.eval.f ≤ line.f0
  wolfe : how = .wolfe →
    t.eval.f ≤ line.f0 + t.stp * (p.ftol * line.slope) ∧
      Scalar.abs (dot t.eval.g line.d) ≤ p.gtol * Scalar.abs line.slope
  backtracked : how = .backtracked → t.eval.f ≤ line.f0 + t.stp * (p.ftol * line.slope)
  all_finite : how ≠ .backtracked →
    ∀ u ∈ (of line p objective calls stp).trials, u.eval.isFinite = true
  /-- Where no minimum was ever bracketed, a search that cannot go on has sufficient decrease. -/
  free : ∀ {rounding narrow atMax}, how = .degenerate rounding narrow atMax →
    (∀ b s, ⟨.interpolating b, s⟩ ∈ stagesOf line p objective calls stp →
      b.interval.bracketed = false) →
    t.eval.f ≤ line.f0 + t.stp * (p.ftol * line.slope)

variable [Spaced Extended] {line : Line Extended n} {p : SearchParams Extended}
  {objective : Objective Extended n} {calls : Nat} {stp : Extended} {t : Trial Extended n}
  {how : Acceptance}

theorem between_of_mem_extended {m : ℝ} (hm : 0 ≤ m) (hmax : line.stpmax = .finite m)
    (hstp : ¬stp < 0) (ht : t ∈ (of line p objective calls stp).trials) :
    Extended.Between m t.stp ∧ t.x = line.point t.stp := by
  have hlimited : ∀ {c : Extended}, ¬c < 0 →
      Extended.Between m (Scalar.smaller c line.stpmax) := by
    intro c hc
    rw [hmax]
    exact Extended.between_smaller hm hc
  exact within_of_mem (fun c => hlimited (Scalar.larger_not_neg c))
    (fun _ _ => Extended.between_halfway) (Extended.between_zero hm) (hlimited hstp) ht

/-- Whatever the objective answers, an accepted trial is the last one made and worth it. -/
theorem acceptable_of_accepted (hstp : 0 ≤ stp) (hmax : 0 ≤ line.stpmax)
    (hfinite : Scalar.isFinite line.stpmax = true)
    (h : (Search.of line p objective calls stp).outcome = .accepted t how) :
    Acceptable line p objective calls stp t how := by
  obtain ⟨m, hm⟩ : ∃ m, line.stpmax = .finite m := by
    cases hcase : line.stpmax with
    | finite m => exact ⟨m, rfl⟩
    | _ =>
      rw [hcase] at hfinite
      cases hfinite
  obtain ⟨hslope, hmade, htrials⟩ := probed_of_accepted h
  obtain ⟨hmem, htfinite⟩ := mem_of_accepted h
  obtain ⟨earlier, phase, hstages, hlast, haccept⟩ := stages_of_accepted hmade
  have hforward := Extended.not_neg_of_nonneg hstp
  have hmpos : (0 : Extended) ≤ .finite m := hm ▸ hmax
  obtain ⟨hbetween, hpoint⟩ := between_of_mem_extended hmpos hm hforward hmem
  have haccepts := Verdict.accepts_of haccept
  exact
    { called := calls_of
      evals_pos := List.length_pos_of_mem hmem
      evals_le := length_trials_le
      last := htrials ▸ hlast
      finite := htfinite
      point := hpoint
      stp_nonneg := hbetween.nonneg
      stp_le := hm ▸ hbetween.le
      value := fun hftol => le_of_accepted (Extended.not_neg_of_nonneg hmax) hforward hftol h
      wolfe := by
        rintro rfl
        cases haccepts with
        | wolfe decrease flat =>
          rw [Extended.abs_of_less_zero hslope]
          exact ⟨decrease, flat⟩
      backtracked := by
        rintro rfl
        cases haccepts with
        | backtracked decrease => exact decrease
      all_finite := fun hhow u hu => by
        rw [htrials] at hu
        exact isFinite_of_mem_probe hmade hhow hu
      free := by
        rintro rounding narrow atMax rfl hnever
        cases haccepts with
        | degenerate value free =>
          refine free (hnever _ t.stp ?_)
          rw [stagesOf, if_pos hslope, hstages]
          exact List.mem_append_right earlier (List.mem_singleton_self _) }

omit [Spaced Extended] in
/-- The first value is no number, and the search goes half way back. -/
theorem acceptable_after_undefined :
    let _ : Spaced Extended := ⟨fun _ _ _ => false⟩
    let line : Line Extended 1 :=
      { box := .unbounded 1, x := #v[0], d := #v[1], f0 := 0, slope := -1, stpmax := 1 }
    let p : SearchParams Extended :=
      { ulps := 4, maxEvals := 2, ftol := 0.001, gtol := 0.9, xtol := 0.1 }
    let objective : Objective Extended 1 := fun k _ => (if k = 1 then .undefined else -1, #[0])
    (0 : Extended) ≤ 1 ∧ Scalar.isFinite line.stpmax = true ∧
      ∃ t, (Search.of line p objective 0 1).outcome = .accepted t .backtracked ∧
        Acceptable line p objective 0 1 t .backtracked := by
  intro spaced line p objective
  have hone : (0 : Extended) ≤ 1 := zero_le_one' ℝ
  have hslope : line.slope < 0 := by
    change (-1 : ℝ) < 0
    norm_num
  have hstep : Scalar.smaller 1 line.stpmax = .finite 1 := by
    rcases Scalar.smaller_cases 1 line.stpmax with h | h <;> rw [h] <;> rfl
  have hnext : Verdict.of line p (.interpolating (Bracket.begin line 1))
      (line.trial objective 1 (.finite 1)) = .next (.backtracking 0) (halfway 0 (.finite 1)) := rfl
  have hdecrease : (line.trial objective 2 (halfway 0 (.finite 1))).eval.f ≤
      line.testValue p (halfway 0 (.finite 1)) := by
    change (-1 : ℝ) ≤ 0 + (0 + 0.5 * (1 + -0)) * (0.001 * -1)
    norm_num
  have haccept : Verdict.of line p (.backtracking 0)
      (line.trial objective 2 (halfway 0 (.finite 1))) = .accept .backtracked := by
    have hfinite : (line.trial objective 2 (halfway 0 (.finite 1))).eval.isFinite = true := by
      rw [Evaluation.isFinite, Bool.and_eq_true]
      refine ⟨rfl, Vector.all_eq_true.mpr fun i hi => ?_⟩
      obtain rfl : i = 0 := by omega
      rfl
    rw [Verdict.of, if_pos hfinite]
    exact if_pos hdecrease
  have haccepted : (Search.of line p objective 0 1).outcome =
      .accepted (line.trial objective 2 (halfway 0 (.finite 1))) .backtracked := by
    rw [of_descent hslope, probed, hstep, probe, hnext]
    dsimp only
    rw [probe, haccept]
  exact ⟨hone, rfl, _, haccepted, acceptable_of_accepted hone hone rfl haccepted⟩

end Search

end BoxDescent
