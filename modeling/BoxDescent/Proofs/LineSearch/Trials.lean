import Mathlib.Data.List.Induction
import BoxDescent.LineSearch.Search

/-!
# The trials of a search

A search calls the objective once for each trial, in order, at points of the box.  The trial
that it accepts, or keeps as the best, is one of them and finite.
-/

namespace BoxDescent

variable {α : Type} [Scalar α] {n : Nat}

/-! ### Evaluations -/

namespace Evaluation

/-- An evaluation holds the answer; a gradient of the wrong length is replaced. -/
theorem eq_answer (objective : Objective α n) (k : Nat) (x : Vector α n) :
    (objective.eval k x).f = (objective k x).1 ∧
      ((objective k x).2.size = n → (objective.eval k x).g.toArray = (objective k x).2) ∧
      ((objective k x).2.size ≠ n → (objective.eval k x).g = Vector.replicate n Scalar.nan) := by
  unfold Objective.eval ofAnswer
  split
  · rename_i hsize
    exact ⟨rfl, fun _ => rfl, fun hne => absurd hsize hne⟩
  · rename_i hsize
    exact ⟨rfl, fun he => absurd he hsize, fun _ => rfl⟩

theorem finite_of_isFinite {e : Evaluation α n} (h : e.isFinite = true) :
    Scalar.isFinite e.f = true ∧ ∀ i : Fin n, Scalar.isFinite e.g[i] = true := by
  rw [isFinite, Bool.and_eq_true, Bool.and_eq_true] at h
  refine ⟨h.1.2, fun i => ?_⟩
  exact Vector.all_eq_true.mp h.2 i.val i.isLt

end Evaluation

/-! ### Verdicts -/

/-- A trial as a point of the search line. -/
def Line.endpoint (line : Line α n) (t : Trial α n) : Endpoint α :=
  { stp := t.stp, f := t.eval.f, dg := dot t.eval.g line.d }

namespace Verdict

variable [Spaced α] {line : Line α n} {p : SearchParams α} {t : Trial α n}

/-- How a trial comes to be accepted. -/
inductive Accepts (line : Line α n) (p : SearchParams α) (t : Trial α n) :
    Phase α → Acceptance → Prop
  | wolfe {b : Bracket α} (decrease : t.eval.f ≤ line.testValue p t.stp)
      (flat : Scalar.abs (dot t.eval.g line.d) ≤ p.gtol * -line.slope) :
      Accepts line p t (.interpolating b) .wolfe
  | degenerate {b : Bracket α} {rounding narrow atMax : Bool} (value : t.eval.f ≤ line.f0)
      (free : b.interval.bracketed = false → t.eval.f ≤ line.testValue p t.stp) :
      Accepts line p t (.interpolating b) (.degenerate rounding narrow atMax)
  | backtracked {a : α} (decrease : t.eval.f ≤ line.testValue p t.stp) :
      Accepts line p t (.backtracking a) .backtracked

/-- How a search goes on after a trial: by interpolation, if the trial is finite, too steep, and
not at an end of the bracket or of the line; or by backtracking. -/
inductive Continues (line : Line α n) (p : SearchParams α) (t : Trial α n) :
    Phase α → Phase α → α → Prop
  | interpolates {b : Bracket α} (finite : t.eval.isFinite = true)
      (steep : t.eval.f ≤ line.testValue p t.stp →
        ¬Scalar.abs (dot t.eval.g line.d) ≤ p.gtol * -line.slope)
      (inside : b.interval.bracketed = true → ¬t.stp ≤ b.stmin ∧ ¬b.stmax ≤ t.stp)
      (before_end : Spaced.near p.ulps t.stp line.stpmax = true →
        t.eval.f ≤ line.testValue p t.stp → ¬dot t.eval.g line.d ≤ line.testSlope p)
      {stage1 tilted : Bool}
      (stage_iff : stage1 = true ↔ b.stage1 = true ∧
        ¬(t.eval.f ≤ line.testValue p t.stp ∧ 0 ≤ dot t.eval.g line.d))
      (tilted_iff : tilted = true ↔ stage1 = true ∧ t.eval.f ≤ b.interval.best.f ∧
        line.testValue p t.stp < t.eval.f) :
      Continues line p t (.interpolating b)
        (.interpolating (b.update line p stage1 tilted (line.endpoint t)).1)
        (b.update line p stage1 tilted (line.endpoint t)).2
  | backtracks {phase : Phase α} :
      Continues line p t phase (.backtracking phase.anchor) (halfway phase.anchor t.stp)

variable {phase phase' : Phase α} {how : Acceptance} {stp' : α}

theorem accepts_of (h : Verdict.of line p phase t = .accept how) : Accepts line p t phase how := by
  unfold Verdict.of at h
  split at h
  · split at h
    · split at h
      · cases h
        exact .backtracked ‹_›
      · cases h
    · rename_i b
      unfold interpolating at h
      dsimp only at h
      split at h
      · rename_i hwolfe
        cases h
        exact .wolfe hwolfe.1 hwolfe.2
      · split at h
        · rename_i hends
          split at h
          · cases h
            refine .degenerate ‹_› fun hfree => ?_
            simp only [hfree, Bool.false_and, Bool.false_or, Bool.and_eq_true] at hends
            exact of_decide_eq_true hends.1.2
          · cases h
        · cases h
  · cases h

theorem continues_of (h : Verdict.of line p phase t = .next phase' stp') :
    Continues line p t phase phase' stp' := by
  unfold Verdict.of at h
  split at h
  · rename_i hfinite
    split at h
    · split at h
      · cases h
      · cases h
        exact Continues.backtracks
    · rename_i b
      unfold interpolating at h
      dsimp only at h
      split at h
      · cases h
      · rename_i hsteep
        split at h
        · split at h
          · cases h
          · cases h
            exact Continues.backtracks
        · rename_i hends
          cases h
          simp only [Bool.not_eq_true, Bool.or_eq_false_iff] at hends
          obtain ⟨⟨hround, -⟩, hmax⟩ := hends
          refine .interpolates hfinite (fun hle hflat => hsteep ⟨hle, hflat⟩) ?_ ?_ ?_ ?_
          · intro hbracketed
            rw [hbracketed, Bool.true_and, Bool.or_eq_false_iff] at hround
            exact ⟨of_decide_eq_false hround.1, of_decide_eq_false hround.2⟩
          · intro hnear hle
            rw [hnear, decide_eq_true hle, Bool.true_and, Bool.true_and] at hmax
            exact of_decide_eq_false hmax
          · simp only [Bool.and_eq_true, Bool.not_eq_true', ← Bool.not_eq_true, decide_eq_true_eq]
          · simp only [Bool.and_eq_true, decide_eq_true_eq, and_assoc]
  · cases h
    exact .backtracks

theorem isFinite_of_accept (h : Verdict.of line p phase t = .accept how) :
    t.eval.isFinite = true := by
  unfold Verdict.of at h
  split at h
  · assumption
  · cases h

/-- An accepted trial has sufficient decrease, or its value is not above the start. -/
theorem le_of_accept (h : Verdict.of line p phase t = .accept how) :
    t.eval.f ≤ line.testValue p t.stp ∨ t.eval.f ≤ line.f0 := by
  cases accepts_of h with
  | wolfe decrease => exact .inl decrease
  | degenerate value => exact .inr value
  | backtracked decrease => exact .inl decrease

/-! A first trial is accepted by the Wolfe conditions or not at all, unless its step is the
longest one. -/

section

variable (hfinite : t.eval.isFinite = true)

include hfinite

theorem accept_of_wolfe {b : Bracket α}
    (hwolfe : t.eval.f ≤ line.testValue p t.stp ∧
      Scalar.abs (dot t.eval.g line.d) ≤ p.gtol * -line.slope) :
    Verdict.of line p (.interpolating b) t = .accept .wolfe := by
  unfold Verdict.of
  rw [if_pos hfinite]
  exact if_pos hwolfe

/-- At the lower edge of a bracket a trial is accepted unless its value is above the start. -/
theorem accept_at_edge {b : Bracket α} (hbracketed : b.interval.bracketed = true)
    (hedge : t.stp ≤ b.stmin) (hvalue : t.eval.f ≤ line.f0) :
    ∃ how, Verdict.of line p (.interpolating b) t = .accept how := by
  by_cases hwolfe : t.eval.f ≤ line.testValue p t.stp ∧
      Scalar.abs (dot t.eval.g line.d) ≤ p.gtol * -line.slope
  · exact ⟨_, accept_of_wolfe hfinite hwolfe⟩
  · unfold Verdict.of
    rw [if_pos hfinite]
    dsimp only
    unfold interpolating
    dsimp only
    rw [if_neg hwolfe, if_pos hvalue, hbracketed, decide_eq_true hedge]
    simp only [Bool.true_or, Bool.and_true, if_true]
    exact ⟨_, rfl⟩

theorem next_of_begin
    (hwolfe : ¬(t.eval.f ≤ line.testValue p t.stp ∧
      Scalar.abs (dot t.eval.g line.d) ≤ p.gtol * -line.slope))
    (hnear : Spaced.near p.ulps t.stp line.stpmax = false) (stp : α) :
    ∃ phase' stp',
      Verdict.of line p (.interpolating (Bracket.begin line stp)) t = .next phase' stp' := by
  have hfree : (Bracket.begin line stp).interval.bracketed = false := rfl
  unfold Verdict.of
  rw [if_pos hfinite]
  dsimp only
  unfold interpolating
  dsimp only
  rw [if_neg hwolfe, hnear, hfree]
  simp only [Bool.false_and, Bool.or_false, Bool.false_eq_true, if_false]
  exact ⟨_, _, rfl⟩

end

end Verdict

/-! ### Calls -/

/-- The trials are the calls of the objective from call number `k` on, each at a point of the
box. -/
def Calls (box : Box α n) (objective : Objective α n) : Nat → List (Trial α n) → Prop
  | _, [] => True
  | k, t :: ts =>
    ((∃ y, t.x = box.project y) ∧ t.eval = objective.eval k t.x) ∧ Calls box objective (k + 1) ts

section

variable {box : Box α n} {objective : Objective α n} {k : Nat}

theorem Calls.append {ts us : List (Trial α n)} (ht : Calls box objective k ts)
    (hu : Calls box objective (k + ts.length) us) : Calls box objective k (ts ++ us) := by
  induction ts generalizing k with
  | nil => exact hu
  | cons t ts ih =>
    refine ⟨ht.1, ih ht.2 ?_⟩
    rw [List.length_cons, Nat.add_comm ts.length 1, ← Nat.add_assoc] at hu
    exact hu

theorem Calls.getElem {ts : List (Trial α n)} (h : Calls box objective k ts) {i : Nat}
    (hi : i < ts.length) :
    (∃ y, ts[i].x = box.project y) ∧ ts[i].eval = objective.eval (k + i) ts[i].x := by
  induction ts generalizing k i with
  | nil => cases hi
  | cons t ts ih =>
    cases i with
    | zero => exact h.1
    | succ i =>
      have hrest := ih h.2 (Nat.lt_of_succ_lt_succ hi)
      rw [Nat.add_assoc, Nat.add_comm 1 i] at hrest
      exact hrest

end

/-! ### Probing -/

namespace Search

variable [Spaced α] {line : Line α n} {p : SearchParams α} {objective : Objective α n}

theorem calls_probe {left k : Nat} {phase : Phase α} {stp : α} :
    Calls line.box objective k (probe line p objective left k phase stp).1 := by
  induction left generalizing k phase stp with
  | zero => exact True.intro
  | succ left ih =>
    have hhere : (∃ y, (line.trial objective k stp).x = line.box.project y) ∧
        (line.trial objective k stp).eval =
          objective.eval k (line.trial objective k stp).x := ⟨⟨_, rfl⟩, rfl⟩
    unfold probe
    dsimp only
    split
    · exact ⟨hhere, True.intro⟩
    · exact ⟨hhere, ih⟩

/-- What every verdict passes on to the next trial holds where a trial is accepted. -/
theorem probe_accepted (Inv : Phase α → α → Prop)
    (hnext : ∀ k phase stp phase' stp', Inv phase stp →
      Verdict.of line p phase (line.trial objective k stp) = .next phase' stp' → Inv phase' stp')
    {left k : Nat} {phase : Phase α} {stp : α} (h : Inv phase stp) {t : Trial α n}
    {how : Acceptance} (ht : (probe line p objective left k phase stp).2 = some (t, how)) :
    t ∈ (probe line p objective left k phase stp).1 ∧
      ∃ phase', Inv phase' t.stp ∧ Verdict.of line p phase' t = .accept how := by
  induction left generalizing k phase stp with
  | zero => cases ht
  | succ left ih =>
    unfold probe at ht ⊢
    dsimp only at ht ⊢
    split at ht
    · rename_i hverdict
      cases ht
      exact ⟨List.mem_cons_self, phase, h, hverdict⟩
    · rename_i phase' stp' hverdict
      obtain ⟨hmem, hlast⟩ := ih (hnext _ _ _ _ _ h hverdict) ht
      exact ⟨List.mem_cons_of_mem _ hmem, hlast⟩

/-- What every verdict passes on to the next trial holds at each trial. -/
theorem probe_mem (Inv : Phase α → α → Prop)
    (hnext : ∀ k phase stp phase' stp', Inv phase stp →
      Verdict.of line p phase (line.trial objective k stp) = .next phase' stp' → Inv phase' stp')
    {left k : Nat} {phase : Phase α} {stp : α} (h : Inv phase stp) {t : Trial α n}
    (ht : t ∈ (probe line p objective left k phase stp).1) :
    ∃ k' phase', Inv phase' t.stp ∧ t = line.trial objective k' t.stp := by
  induction left generalizing k phase stp with
  | zero => cases ht
  | succ left ih =>
    unfold probe at ht
    dsimp only at ht
    split at ht
    · cases List.mem_singleton.mp ht
      exact ⟨k, phase, h, rfl⟩
    · rename_i phase' stp' hverdict
      rcases List.mem_cons.mp ht with rfl | hlater
      · exact ⟨k, phase, h, rfl⟩
      · exact ih (hnext _ _ _ _ _ h hverdict) hlater

/-! ### Outcomes -/

variable {calls : Nat} {stp : α}

/-- The trials that a search makes along a line that descends. -/
def probed (line : Line α n) (p : SearchParams α) (objective : Objective α n) (calls : Nat)
    (stp : α) : List (Trial α n) × Option (Trial α n × Acceptance) :=
  probe line p objective p.maxEvals (calls + 1) (.interpolating (Bracket.begin line stp))
    (Scalar.smaller stp line.stpmax)

theorem of_descent (h : line.slope < 0) :
    Search.of line p objective calls stp =
      let made := probed line p objective calls stp
      { trials := made.1
        outcome :=
          match made.2 with
          | some (t, how) => .accepted t how
          | none =>
            if made.1.any fun t => t.eval.isFinite then .stalled (bestOf line.f0 made.1)
            else .nonFinite } :=
  if_pos h

theorem of_not_descent (h : ¬line.slope < 0) :
    Search.of line p objective calls stp =
      { trials := [], outcome := .notDescent line.slope } :=
  if_neg h

theorem trials_ne_nil (hslope : line.slope < 0) (hevals : 0 < p.maxEvals) :
    (of line p objective calls stp).trials ≠ [] := by
  obtain ⟨left, hleft⟩ : ∃ left, p.maxEvals = left + 1 := ⟨p.maxEvals - 1, by omega⟩
  rw [of_descent hslope, probed, hleft, probe]
  split <;> exact List.cons_ne_nil _ _

theorem length_probe_le {left k : Nat} {phase : Phase α} {stp : α} :
    (probe line p objective left k phase stp).1.length ≤ left := by
  induction left generalizing k phase stp with
  | zero => exact Nat.le_refl 0
  | succ left ih =>
    unfold probe
    dsimp only
    split
    · exact Nat.succ_le_succ (Nat.zero_le left)
    · exact Nat.succ_le_succ ih

theorem length_trials_le {calls : Nat} {stp : α} :
    (of line p objective calls stp).trials.length ≤ p.maxEvals := by
  by_cases h : line.slope < 0
  · rw [of_descent h]
    exact length_probe_le
  · rw [of_not_descent h]
    exact Nat.zero_le _

theorem calls_of : Calls line.box objective (calls + 1) (of line p objective calls stp).trials := by
  by_cases h : line.slope < 0
  · rw [of_descent h]
    exact calls_probe
  · rw [of_not_descent h]
    exact True.intro

theorem probed_of_accepted {t : Trial α n} {how : Acceptance}
    (h : (of line p objective calls stp).outcome = .accepted t how) :
    line.slope < 0 ∧ (probed line p objective calls stp).2 = some (t, how) ∧
      (of line p objective calls stp).trials = (probed line p objective calls stp).1 := by
  by_cases hslope : line.slope < 0
  · rw [of_descent hslope] at h ⊢
    dsimp only at h
    split at h
    · rename_i t' how' hmade
      cases h
      exact ⟨hslope, hmade, rfl⟩
    · split at h
      · cases h
      · cases h
  · rw [of_not_descent hslope] at h
    cases h

theorem slope_of_notDescent {slope : α}
    (h : (of line p objective calls stp).outcome = .notDescent slope) : ¬line.slope < 0 := by
  intro hslope
  rw [of_descent hslope] at h
  dsimp only at h
  split at h
  · cases h
  · split at h
    · cases h
    · cases h

/-- A search with a single trial ends with the verdict on it. -/
theorem of_single (hslope : line.slope < 0) (hevals : p.maxEvals = 1) :
    let t := line.trial objective (calls + 1) (Scalar.smaller stp line.stpmax)
    of line p objective calls stp =
      { trials := [t]
        outcome :=
          match Verdict.of line p (.interpolating (Bracket.begin line stp)) t with
          | .accept how => .accepted t how
          | .next _ _ =>
            if t.eval.isFinite then .stalled (bestOf line.f0 [t]) else .nonFinite } := by
  intro t
  rw [of_descent hslope, probed, hevals, probe]
  cases hverdict : Verdict.of line p (.interpolating (Bracket.begin line stp)) t with
  | accept how => rfl
  | next phase' stp' =>
    simp only [probe, List.any_cons, List.any_nil, Bool.or_false]
    rfl

/-- A search whose first trial passes the Wolfe test makes no other. -/
theorem of_wolfe {t : Trial α n} (hslope : line.slope < 0) (hevals : 0 < p.maxEvals)
    (ht : line.trial objective (calls + 1) (Scalar.smaller stp line.stpmax) = t)
    (hfinite : t.eval.isFinite = true)
    (hwolfe : t.eval.f ≤ line.testValue p t.stp ∧
      Scalar.abs (dot t.eval.g line.d) ≤ p.gtol * -line.slope) :
    of line p objective calls stp = { trials := [t], outcome := .accepted t .wolfe } := by
  obtain ⟨left, hleft⟩ : ∃ left, p.maxEvals = left + 1 := ⟨p.maxEvals - 1, by omega⟩
  have hverdict : Verdict.of line p (.interpolating (Bracket.begin line stp)) t =
      .accept .wolfe := Verdict.accept_of_wolfe hfinite hwolfe
  rw [of_descent hslope, probed, hleft, probe, ht, hverdict]

theorem best_of_stalled {best : Option (Trial α n)}
    (h : (of line p objective calls stp).outcome = .stalled best) :
    best = bestOf line.f0 (of line p objective calls stp).trials := by
  by_cases hslope : line.slope < 0
  · rw [of_descent hslope] at h ⊢
    dsimp only at h ⊢
    split at h
    · cases h
    · split at h
      · cases h
        rfl
      · cases h
  · rw [of_not_descent hslope] at h
    cases h

section

omit [Spaced α]

/-- The trials that take the place of the best one. -/
def Improves (f0 : α) (best : Option (Trial α n)) (t : Trial α n) : Prop :=
  t.eval.isFinite = true ∧ t.eval.f < f0 ∧ ∀ b ∈ best, t.eval.f < b.eval.f

theorem bestOf_concat (f0 : α) (ts : List (Trial α n)) (t : Trial α n) :
    (Improves f0 (bestOf f0 ts) t ∧ bestOf f0 (ts ++ [t]) = some t) ∨
      (¬Improves f0 (bestOf f0 ts) t ∧ bestOf f0 (ts ++ [t]) = bestOf f0 ts) := by
  have hstep : bestOf f0 (ts ++ [t]) =
      if t.eval.isFinite && decide (t.eval.f < f0)
          && (bestOf f0 ts).all (fun b => decide (t.eval.f < b.eval.f))
      then some t else bestOf f0 ts := by
    rw [bestOf, List.foldl_append, List.foldl_cons, List.foldl_nil, ← bestOf]
  have htaken : (t.eval.isFinite && decide (t.eval.f < f0) &&
      (bestOf f0 ts).all (fun b => decide (t.eval.f < b.eval.f))) = true ↔
        Improves f0 (bestOf f0 ts) t := by
    simp only [Improves, Bool.and_eq_true, decide_eq_true_eq, Option.all_eq_true, Option.mem_def,
      and_assoc]
  rw [hstep]
  by_cases h : Improves f0 (bestOf f0 ts) t
  · exact .inl ⟨h, if_pos (htaken.mpr h)⟩
  · exact .inr ⟨h, if_neg (mt htaken.mp h)⟩

/-- The best trial is lower than the best one before it. -/
theorem split_of_bestOf {f0 : α} {ts : List (Trial α n)} {b : Trial α n}
    (h : bestOf f0 ts = some b) :
    ∃ before after, ts = before ++ b :: after ∧ Improves f0 (bestOf f0 before) b := by
  induction ts using List.reverseRecOn with
  | nil => cases h
  | append_singleton ts t ih =>
    rcases bestOf_concat f0 ts t with ⟨himproves, hlast⟩ | ⟨-, hkept⟩
    · cases hlast.symm.trans h
      exact ⟨ts, [], rfl, himproves⟩
    · obtain ⟨before, after, hsplit, himproves⟩ := ih (hkept.symm.trans h)
      refine ⟨before, after ++ [t], ?_, himproves⟩
      rw [hsplit, List.append_assoc, List.cons_append]

theorem of_mem_bestOf {f0 : α} {ts : List (Trial α n)} {t : Trial α n}
    (h : t ∈ bestOf f0 ts) : t ∈ ts ∧ t.eval.isFinite = true ∧ t.eval.f < f0 := by
  obtain ⟨before, after, rfl, himproves⟩ := split_of_bestOf h
  refine ⟨?_, himproves.1, himproves.2.1⟩
  exact List.mem_append_right before List.mem_cons_self

end

/-- The trial that a search accepts is one of its trials and finite. -/
theorem mem_of_accepted {t : Trial α n} {how : Acceptance}
    (h : (of line p objective calls stp).outcome = .accepted t how) :
    t ∈ (of line p objective calls stp).trials ∧ t.eval.isFinite = true := by
  obtain ⟨-, hmade, htrials⟩ := probed_of_accepted h
  obtain ⟨hmem, phase, -, hverdict⟩ :=
    probe_accepted (fun _ _ => True) (fun _ _ _ _ _ _ _ => True.intro) True.intro hmade
  rw [htrials]
  exact ⟨hmem, Verdict.isFinite_of_accept hverdict⟩

/-- The trial that a search keeps as the best is one of its trials, finite, and lower than
the start. -/
theorem mem_of_stalled {t : Trial α n}
    (h : (of line p objective calls stp).outcome = .stalled (some t)) :
    t ∈ (of line p objective calls stp).trials ∧ t.eval.isFinite = true ∧
      t.eval.f < line.f0 :=
  of_mem_bestOf (best_of_stalled h).symm

end Search

end BoxDescent
