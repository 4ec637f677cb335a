import BoxDescent.Proofs.Extended
import BoxDescent.Proofs.LineSearch.Stages

/-!
# Searches that turn back

After a trial that is not finite, or a bracket that can shrink no further with a value above the
start, a search only halves the distance to the best point.  It accepts the first finite trial
with sufficient decrease, if it makes one.
-/

namespace BoxDescent

variable {α : Type} [Scalar α] [Spaced α] {n : Nat} {line : Line α n} {p : SearchParams α}
  {objective : Objective α n}

/-! ### Turning back -/

/-- The bracket can shrink no further, or the step is the longest one. -/
def Bracket.isDegenerate (line : Line α n) (p : SearchParams α) (b : Bracket α)
    (here : Endpoint α) : Bool :=
  b.interval.bracketed && (decide (here.stp ≤ b.stmin) || decide (b.stmax ≤ here.stp)) ||
    b.interval.bracketed && decide (b.stmax - b.stmin ≤ p.xtol * b.stmax) ||
    (Spaced.near p.ulps here.stp line.stpmax && decide (here.f ≤ line.testValue p here.stp) &&
      decide (here.dg ≤ line.testSlope p))

namespace Verdict

/-- A trial that makes the search backtrack: it is not finite, or it is rejected although the
bracket is degenerate. -/
inductive TurnsBack (line : Line α n) (p : SearchParams α) (t : Trial α n) : Phase α → Prop
  | undefined {phase : Phase α} (value : t.eval.isFinite = false) : TurnsBack line p t phase
  | rejected {b : Bracket α} (finite : t.eval.isFinite = true)
      (steep : ¬(t.eval.f ≤ line.testValue p t.stp ∧
        Scalar.abs (dot t.eval.g line.d) ≤ p.gtol * -line.slope))
      (degenerate : b.isDegenerate line p (line.endpoint t) = true)
      (above : ¬t.eval.f ≤ line.f0) : TurnsBack line p t (.interpolating b)

/-- A finite trial with sufficient decrease. -/
def Decreases (line : Line α n) (p : SearchParams α) (t : Trial α n) : Prop :=
  t.eval.isFinite = true ∧ t.eval.f ≤ line.testValue p t.stp

variable {t : Trial α n} {phase : Phase α} {a : α}

theorem of_turnsBack (h : TurnsBack line p t phase) :
    Verdict.of line p phase t = backtrack phase.anchor t.stp := by
  cases h with
  | undefined value =>
    unfold Verdict.of
    rw [if_neg (Bool.eq_false_iff.mp value)]
  | rejected finite steep degenerate above =>
    rw [Verdict.of, if_pos finite]
    exact (if_neg steep).trans ((if_pos degenerate).trans (if_neg above))

theorem of_decreases (h : Decreases line p t) :
    Verdict.of line p (.backtracking a) t = .accept .backtracked := by
  rw [Verdict.of, if_pos h.1]
  exact if_pos h.2

theorem of_not_decreases (h : ¬Decreases line p t) :
    Verdict.of line p (.backtracking a) t = .next (.backtracking a) (halfway a t.stp) := by
  unfold Verdict.of
  split
  · rename_i hfinite
    exact if_neg fun hvalue => h ⟨hfinite, hvalue⟩
  · rfl

end Verdict

/-! ### Halving the distance -/

namespace Search

section

variable {a : α} {step : Nat → α} (hstep : ∀ j, 1 ≤ j → halfway a (step j) = step (j + 1)) {c : Nat}

include hstep

/-- After a trial without sufficient decrease the next step is half way back. -/
theorem halves {rest j : Nat} (hj : 1 ≤ j)
    (hhere : ¬Verdict.Decreases line p (line.trial objective (c + j) (step j))) :
    stages line p objective (rest + 1) (c + j) (.backtracking a) (step j) =
        ⟨.backtracking a, step j⟩ ::
          stages line p objective rest (c + (j + 1)) (.backtracking a) (step (j + 1)) ∧
      probe line p objective (rest + 1) (c + j) (.backtracking a) (step j) =
        let later := probe line p objective rest (c + (j + 1)) (.backtracking a) (step (j + 1))
        (line.trial objective (c + j) (step j) :: later.1, later.2) := by
  have hnext : Verdict.of line p (.backtracking a) (line.trial objective (c + j) (step j)) =
      .next (.backtracking a) (step (j + 1)) := by
    rw [Verdict.of_not_decreases hhere, ← hstep j hj]
    rfl
  exact ⟨stages_of_next hnext, probe_of_next hnext⟩

theorem stages_backtracking {rest j m : Nat} {st : Stage α} (hj : 1 ≤ j)
    (h : (stages line p objective rest (c + j) (.backtracking a) (step j))[m]? = some st) :
    st = ⟨.backtracking a, step (j + m)⟩ := by
  induction rest generalizing j m with
  | zero => cases h
  | succ rest ih =>
    cases m with
    | zero => exact (Option.some.inj h).symm
    | succ m =>
      by_cases hhere : Verdict.Decreases line p (line.trial objective (c + j) (step j))
      · rw [stages_of_accept (Verdict.of_decreases hhere)] at h
        cases h
      · rw [(halves hstep hj hhere).1, List.getElem?_cons_succ] at h
        rw [ih (Nat.le_succ_of_le hj) h, Nat.succ_add_eq_add_succ]

/-- The first trial with sufficient decrease ends the search. -/
theorem probe_backtracking_of_first {rest j m : Nat} (hj : 1 ≤ j) (hm : m < rest)
    (hgood : Verdict.Decreases line p (line.trial objective (c + (j + m)) (step (j + m))))
    (hfirst : ∀ i < m,
      ¬Verdict.Decreases line p (line.trial objective (c + (j + i)) (step (j + i)))) :
    (probe line p objective rest (c + j) (.backtracking a) (step j)).2 =
        some (line.trial objective (c + (j + m)) (step (j + m)), .backtracked) ∧
      (probe line p objective rest (c + j) (.backtracking a) (step j)).1.length = m + 1 := by
  induction rest generalizing j m with
  | zero => cases hm
  | succ rest ih =>
    cases m with
    | zero =>
      rw [Nat.add_zero] at hgood ⊢
      rw [probe_of_accept (Verdict.of_decreases hgood)]
      exact ⟨rfl, rfl⟩
    | succ m =>
      have hshift : ∀ i, j + (i + 1) = j + 1 + i := fun i => by omega
      rw [hshift] at hgood
      obtain ⟨hlast, hlength⟩ := ih (Nat.le_succ_of_le hj) (Nat.lt_of_succ_lt_succ hm) hgood
        fun i hi => hshift i ▸ hfirst (i + 1) (Nat.succ_lt_succ hi)
      rw [(halves hstep hj (hfirst 0 (Nat.succ_pos m))).2, hshift m]
      exact ⟨hlast, congrArg Nat.succ hlength⟩

theorem probe_backtracking_of_none {rest j : Nat} (hj : 1 ≤ j)
    (hnone : ∀ i < rest,
      ¬Verdict.Decreases line p (line.trial objective (c + (j + i)) (step (j + i)))) :
    (probe line p objective rest (c + j) (.backtracking a) (step j)).2 = none := by
  induction rest generalizing j with
  | zero => rfl
  | succ rest ih =>
    have hshift : ∀ i, j + (i + 1) = j + 1 + i := fun i => by omega
    rw [(halves hstep hj (hnone 0 (Nat.succ_pos rest))).2]
    exact ih (Nat.le_succ_of_le hj) fun i hi => hshift i ▸ hnone (i + 1) (Nat.succ_lt_succ hi)

end

/-! ### From a stage on -/

variable {left k : Nat} {phase : Phase α} {stp : α}

/-- After a stage whose trial hands on, a search is a search with the trials that are left. -/
theorem probe_from {i : Nat} {st : Stage α} {phase' : Phase α} {stp' : α}
    (hstage : (stages line p objective left k phase stp)[i]? = some st)
    (hnext : Verdict.of line p st.phase (line.trial objective (k + i) st.stp) = .next phase' stp') :
    ∃ rest, left = i + 1 + rest ∧
      (∀ m, (stages line p objective left k phase stp)[i + 1 + m]? =
        (stages line p objective rest (k + i + 1) phase' stp')[m]?) ∧
      (probe line p objective left k phase stp).2 =
        (probe line p objective rest (k + i + 1) phase' stp').2 ∧
      (probe line p objective left k phase stp).1.length =
        i + 1 + (probe line p objective rest (k + i + 1) phase' stp').1.length := by
  induction left generalizing i k phase stp with
  | zero => cases hstage
  | succ left ih =>
    cases i with
    | zero =>
      cases hstage
      rw [Nat.add_zero] at hnext
      rw [stages_of_next hnext, probe_of_next hnext]
      refine ⟨left, Nat.add_comm left 1, fun m => ?_, rfl, Nat.add_comm _ 1⟩
      rw [Nat.zero_add, Nat.add_comm 1 m, List.getElem?_cons_succ]
    | succ i =>
      cases hverdict : Verdict.of line p phase (line.trial objective k stp) with
      | accept how =>
        rw [stages_of_accept hverdict] at hstage
        cases hstage
      | next phase'' stp'' =>
        rw [stages_of_next hverdict, List.getElem?_cons_succ] at hstage
        have hshift : k + (i + 1) = k + 1 + i := by omega
        rw [hshift] at hnext ⊢
        obtain ⟨rest, hleft, hstages, hlast, hlength⟩ := ih hstage hnext
        rw [stages_of_next hverdict, probe_of_next hverdict]
        refine ⟨rest, by omega, fun m => ?_, hlast, ?_⟩
        · rw [← hstages, Nat.add_right_comm (i + 1) 1 m, List.getElem?_cons_succ]
        · rw [List.length_cons, hlength]
          omega

/-- A search that accepts nothing makes all the trials allowed. -/
theorem length_probe_of_none (h : (probe line p objective left k phase stp).2 = none) :
    (probe line p objective left k phase stp).1.length = left := by
  induction left generalizing k phase stp with
  | zero => rfl
  | succ left ih =>
    cases hverdict : Verdict.of line p phase (line.trial objective k stp) with
    | accept how =>
      rw [probe_of_accept hverdict] at h
      cases h
    | next phase' stp' =>
      rw [probe_of_next hverdict] at h ⊢
      exact congrArg Nat.succ (ih h)

theorem probe_eq_none_iff : (probe line p objective left k phase stp).2 = none ↔
    ∀ i st, (stages line p objective left k phase stp)[i]? = some st →
      ∀ how, Verdict.of line p st.phase (line.trial objective (k + i) st.stp) ≠ .accept how := by
  induction left generalizing k phase stp with
  | zero =>
    refine ⟨fun _ i st hstage => ?_, fun _ => rfl⟩
    cases hstage
  | succ left ih =>
    cases hverdict : Verdict.of line p phase (line.trial objective k stp) with
    | accept how =>
      rw [probe_of_accept hverdict, stages_of_accept hverdict]
      refine ⟨fun hnone => ?_, fun hnever => absurd hverdict (hnever 0 _ rfl how)⟩
      cases hnone
    | next phase' stp' =>
      have hshift : ∀ i, k + 1 + i = k + (i + 1) := fun i => by omega
      rw [probe_of_next hverdict, stages_of_next hverdict]
      dsimp only
      rw [ih]
      constructor
      · intro hnever i st hstage how
        cases i with
        | zero =>
          cases hstage
          rw [Nat.add_zero, hverdict]
          exact nofun
        | succ i =>
          rw [← hshift]
          exact hnever i st hstage how
      · intro hnever i st hstage how
        rw [hshift]
        exact hnever (i + 1) st hstage how

/-! ### Outcomes -/

variable {calls : Nat}

theorem outcome_of_some {t : Trial α n} {how : Acceptance} (hslope : line.slope < 0)
    (h : (probed line p objective calls stp).2 = some (t, how)) :
    (of line p objective calls stp).outcome = .accepted t how := by
  rw [of_descent hslope]
  dsimp only
  rw [h]

theorem outcome_of_none (hslope : line.slope < 0)
    (h : (probed line p objective calls stp).2 = none) :
    (of line p objective calls stp).outcome =
        (if (of line p objective calls stp).trials.any fun t => t.eval.isFinite then
          .stalled (bestOf line.f0 (of line p objective calls stp).trials) else .nonFinite) ∧
      (of line p objective calls stp).trials.length = p.maxEvals := by
  rw [of_descent hslope]
  dsimp only
  rw [h]
  exact ⟨rfl, length_probe_of_none h⟩

/-- What follows on the trial with index `i` if it turns the search back toward `a`; the steps are
those that halving leads to. -/
structure TurnedBack (line : Line α n) (p : SearchParams α) (objective : Objective α n)
    (calls : Nat) (stp : α) (i : Nat) (a : α) (step : Nat → α) : Prop where
  steps : ∀ j st, 1 ≤ j → (stagesOf line p objective calls stp)[i + j]? = some st →
    st = ⟨.backtracking a, step j⟩
  accepted : ∀ j, 1 ≤ j → i + j < p.maxEvals →
    Verdict.Decreases line p (line.trial objective (calls + 1 + (i + j)) (step j)) →
    (∀ m, 1 ≤ m → m < j →
      ¬Verdict.Decreases line p (line.trial objective (calls + 1 + (i + m)) (step m))) →
    (of line p objective calls stp).outcome =
        .accepted (line.trial objective (calls + 1 + (i + j)) (step j)) .backtracked ∧
      (of line p objective calls stp).evals = i + j + 1
  exhausted :
    (∀ j, 1 ≤ j → i + j < p.maxEvals →
      ¬Verdict.Decreases line p (line.trial objective (calls + 1 + (i + j)) (step j))) →
    (∀ t how, (of line p objective calls stp).outcome ≠ .accepted t how) ∧
      (of line p objective calls stp).evals = p.maxEvals

theorem turnedBack_of {i : Nat} {st : Stage α} {step : Nat → α}
    (hstage : (stagesOf line p objective calls stp)[i]? = some st)
    (hturns : Verdict.TurnsBack line p (line.trial objective (calls + 1 + i) st.stp) st.phase)
    (hfirst : halfway st.phase.anchor st.stp = step 1)
    (hstep : ∀ j, 1 ≤ j → halfway st.phase.anchor (step j) = step (j + 1)) :
    TurnedBack line p objective calls stp i st.phase.anchor step := by
  have hslope := slope_of_mem_stagesOf (List.mem_of_getElem? hstage)
  have hnext := Verdict.of_turnsBack hturns
  rw [Verdict.backtrack] at hnext
  rw [stagesOf_of_descent hslope] at hstage
  obtain ⟨rest, hleft, hstages, hlast, hlength⟩ := probe_from hstage hnext
  change halfway st.phase.anchor (line.trial objective (calls + 1 + i) st.stp).stp = step 1 at hfirst
  rw [hfirst] at hstages hlast hlength
  refine { steps := ?_, accepted := ?_, exhausted := ?_ }
  · intro j st' hj hlater
    obtain ⟨m, rfl⟩ : ∃ m, j = 1 + m := ⟨j - 1, by omega⟩
    rw [stagesOf_of_descent hslope, ← Nat.add_assoc, hstages] at hlater
    exact stages_backtracking hstep (Nat.le_refl 1) hlater
  · intro j hj hroom hgood hbefore
    obtain ⟨m, rfl⟩ : ∃ m, j = 1 + m := ⟨j - 1, by omega⟩
    rw [← Nat.add_assoc (calls + 1)] at hgood ⊢
    have hroom' : m < rest := by omega
    obtain ⟨haccepted, hcount⟩ := probe_backtracking_of_first hstep (Nat.le_refl 1) hroom' hgood
      fun m' hm' => by
        rw [Nat.add_assoc (calls + 1)]
        exact hbefore (1 + m') (by omega) (by omega)
    refine ⟨outcome_of_some hslope (hlast.trans haccepted), ?_⟩
    rw [evals, of_descent hslope]
    show (probe line p objective p.maxEvals (calls + 1) _ _).1.length = i + (1 + m) + 1
    rw [hlength, hcount]
    omega
  · intro hnever
    have hnone : (probe line p objective rest (calls + 1 + i + 1) (.backtracking st.phase.anchor)
        (step 1)).2 = none := by
      apply probe_backtracking_of_none hstep (Nat.le_refl 1)
      intro m hm
      rw [Nat.add_assoc (calls + 1)]
      exact hnever (1 + m) (by omega) (by omega)
    obtain ⟨houtcome, hcount⟩ := outcome_of_none hslope (hlast.trans hnone)
    refine ⟨fun t how haccepted => ?_, hcount⟩
    rw [houtcome] at haccepted
    split at haccepted <;> cases haccepted

end Search

/-! ### Exact arithmetic -/

namespace Extended

variable {a s : Extended} {q : ℝ}

/-- The step after halving the way from `a` to `s` a number of times. -/
noncomputable def halved (a s : Extended) (j : Nat) : Extended := a + (s - a) / .finite (2 ^ j)

theorem top_div (hq : 0 < q) : top / finite q = top := if_neg (lt_asymm hq)

theorem bottom_div (hq : 0 < q) : bottom / finite q = bottom := if_neg (lt_asymm hq)

theorem half_mul_div (t : Extended) (hq : 0 < q) :
    0.5 * (t / finite q) = t / finite (q * 2) := by
  have hhalf : (0 : ℝ) < 0.5 := by norm_num
  have hdouble : 0 < q * 2 := mul_pos hq two_pos
  cases t with
  | finite r =>
    rw [finite_div hq.ne', finite_div hdouble.ne']
    show finite (0.5 * (r / q)) = finite (r / (q * 2))
    congr 1
    rw [← div_div]
    ring
  | top =>
    rw [top_div hq, top_div hdouble]
    exact directed_of_pos hhalf
  | bottom =>
    rw [bottom_div hq, bottom_div hdouble]
    exact directed_of_neg (neg_neg_of_pos hhalf)
  | undefined => rfl

theorem halfway_eq_halved (a s : Extended) : halfway a s = halved a s 1 := by
  have hone : (s - a) / finite 1 = s - a := by
    cases s - a with
    | finite r => rw [finite_div one_ne_zero, div_one]
    | top => exact top_div one_pos
    | bottom => exact bottom_div one_pos
    | undefined => rfl
  have hhalf := half_mul_div (s - a) one_pos
  rw [hone, one_mul] at hhalf
  rw [halfway, halved, hhalf, pow_one]

/-- There is no step half way to an infinite anchor. -/
theorem halved_of_not_finite (s : Extended) (j : Nat) (ha : Scalar.isFinite a = false) :
    halved a s j = undefined := by
  have hpow : (0 : ℝ) < 2 ^ j := pow_pos two_pos j
  cases a with
  | finite r => cases ha
  | top =>
    cases s with
    | finite r => exact congrArg (add top) (bottom_div hpow)
    | bottom => exact congrArg (add top) (bottom_div hpow)
    | _ => rfl
  | bottom =>
    cases s with
    | finite r => exact congrArg (add bottom) (top_div hpow)
    | top => exact congrArg (add bottom) (top_div hpow)
    | _ => rfl
  | undefined => rfl

theorem halfway_halved (a s : Extended) (j : Nat) :
    halfway a (halved a s j) = halved a s (j + 1) := by
  cases a with
  | finite r =>
    have hpow : (0 : ℝ) < 2 ^ j := pow_pos two_pos j
    have hhalf := half_mul_div (s - finite r) hpow
    -- the way back from the step is what has been added to a finite anchor
    have hback : ∀ u : Extended, finite r + u - finite r = u := by
      intro u
      cases u with
      | finite u => exact congrArg finite (add_sub_cancel_left r u)
      | _ => rfl
    rw [halfway, halved, halved, hback, hhalf, pow_succ]
  | top =>
    rw [halved_of_not_finite s j rfl, halved_of_not_finite s (j + 1) rfl]
    rfl
  | bottom =>
    rw [halved_of_not_finite s j rfl, halved_of_not_finite s (j + 1) rfl]
    rfl
  | undefined => rfl

end Extended

end BoxDescent
