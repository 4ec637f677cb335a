import BoxDescent.Proofs.LineSearch.Accepted
import BoxDescent.Proofs.LineSearch.Backtracking

/-!
# Outcomes of searches

What each outcome of a search says about its trials, for objectives that may answer anything.
The best trial of a search that stalls is the first of the lowest ones.
-/

namespace BoxDescent

variable {n : Nat}

namespace Search

variable {α : Type} [Scalar α]

/-! ### The best trial of a search -/

def level (f0 : α) (best : Option (Trial α n)) : α := best.elim f0 fun t => t.eval.f

/-- The best trial, if any, is below the start, and no finite one of the trials is below it. -/
structure Lowest (f0 : α) (best : Option (Trial α n)) (ts : List (Trial α n)) : Prop where
  below : ∀ b ∈ best, b.eval.f < f0
  least : ∀ t ∈ ts, t.eval.isFinite = true → ¬t.eval.f < level f0 best

variable {f0 : α} {best : Option (Trial α n)} {ts : List (Trial α n)} {b t : Trial α n}

theorem Improves.lt_level (h : Improves f0 best t) : t.eval.f < level f0 best := by
  cases best with
  | none => exact h.2.1
  | some b => exact h.2.2 b rfl

section

variable [IsStrictOrder α (· < ·)]

theorem Lowest.take (h : Lowest f0 best ts) (himproves : Improves f0 best t) :
    Lowest f0 (some t) (ts ++ [t]) where
  below b hb := by
    cases hb
    exact himproves.2.1
  least u hu hfinite hless := by
    rcases List.mem_append.mp hu with hbefore | hlast
    · exact h.least u hbefore hfinite (IsTrans.trans _ _ _ hless himproves.lt_level)
    · cases List.mem_singleton.mp hlast
      exact irrefl _ hless

theorem Lowest.pass (h : Lowest f0 best ts) (hkept : ¬Improves f0 best t) :
    Lowest f0 best (ts ++ [t]) where
  below := h.below
  least u hu hfinite hless := by
    rcases List.mem_append.mp hu with hbefore | hlast
    · exact h.least u hbefore hfinite hless
    · cases List.mem_singleton.mp hlast
      apply hkept
      cases best with
      | none => exact ⟨hfinite, hless, nofun⟩
      | some b =>
        have hbelow : t.eval.f < f0 := IsTrans.trans _ _ _ hless (h.below b rfl)
        refine ⟨hfinite, hbelow, fun b' hb' => ?_⟩
        cases hb'
        exact hless

theorem lowest_bestOf (f0 : α) (ts : List (Trial α n)) : Lowest f0 (bestOf f0 ts) ts := by
  induction ts using List.reverseRecOn with
  | nil => exact { below := nofun, least := nofun }
  | append_singleton ts t ih =>
    rcases bestOf_concat f0 ts t with ⟨himproves, hlast⟩ | ⟨hkept, hsame⟩
    · rw [hlast]
      exact ih.take himproves
    · rw [hsame]
      exact ih.pass hkept

end

/-! ### Outcomes -/

variable [Spaced α] {line : Line α n} {p : SearchParams α} {objective : Objective α n}
  {calls : Nat} {stp : α}

/-- A search is not begun, accepts a trial, or makes all the trials allowed. -/
theorem outcome_cases (line : Line α n) (p : SearchParams α) (objective : Objective α n)
    (calls : Nat) (stp : α) :
    let s := of line p objective calls stp
    (¬line.slope < 0 ∧ s.trials = [] ∧ s.outcome = .notDescent line.slope) ∨
      (∃ t how, line.slope < 0 ∧ (probed line p objective calls stp).2 = some (t, how) ∧
        t ∈ s.trials ∧ t.eval.isFinite = true ∧ s.outcome = .accepted t how) ∨
      (line.slope < 0 ∧ (probed line p objective calls stp).2 = none ∧
        s.trials.length = p.maxEvals ∧
        s.outcome = if s.trials.any fun t => t.eval.isFinite then
          .stalled (bestOf line.f0 s.trials) else .nonFinite) := by
  intro s
  by_cases hslope : line.slope < 0
  · cases hlast : (probed line p objective calls stp).2 with
    | none =>
      obtain ⟨houtcome, hlength⟩ := outcome_of_none hslope hlast
      exact .inr (.inr ⟨hslope, rfl, hlength, houtcome⟩)
    | some last =>
      have houtcome := outcome_of_some hslope hlast
      obtain ⟨hmem, hfinite⟩ := mem_of_accepted houtcome
      exact .inr (.inl ⟨last.1, last.2, hslope, rfl, hmem, hfinite, houtcome⟩)
  · have hof : s = { trials := [], outcome := .notDescent line.slope } := of_not_descent hslope
    rw [hof]
    exact .inl ⟨hslope, rfl, rfl⟩

theorem outcome_eq_notDescent_iff {slope : α} :
    (of line p objective calls stp).outcome = .notDescent slope ↔
      ¬line.slope < 0 ∧ slope = line.slope := by
  constructor
  · intro h
    have hslope := slope_of_notDescent h
    rw [of_not_descent hslope] at h
    cases h
    exact ⟨hslope, rfl⟩
  · rintro ⟨hslope, rfl⟩
    rw [of_not_descent hslope]

theorem trials_of_notDescent {slope : α}
    (h : (of line p objective calls stp).outcome = .notDescent slope) :
    (of line p objective calls stp).trials = [] := by
  rw [of_not_descent (slope_of_notDescent h)]

theorem outcome_eq_nonFinite_iff (hevals : 1 ≤ p.maxEvals) :
    (of line p objective calls stp).outcome = .nonFinite ↔
      (of line p objective calls stp).evals = p.maxEvals ∧
        ∀ t ∈ (of line p objective calls stp).trials, t.eval.isFinite = false := by
  rcases outcome_cases line p objective calls stp with
    ⟨-, htrials, houtcome⟩ | ⟨t, how, -, -, hmem, hfinite, houtcome⟩ | ⟨-, -, hlength, houtcome⟩
  · rw [houtcome, evals, htrials]
    constructor
    · intro h
      cases h
    · intro h
      have hzero : 0 = p.maxEvals := h.1
      omega
  · rw [houtcome]
    constructor
    · intro h
      cases h
    · intro h
      rw [h.2 t hmem] at hfinite
      cases hfinite
  · rw [houtcome]
    split
    · rename_i hany
      obtain ⟨t, hmem, hfinite⟩ := List.any_eq_true.mp hany
      constructor
      · intro h
        cases h
      · intro h
        rw [h.2 t hmem] at hfinite
        cases hfinite
    · rename_i hnone
      refine ⟨fun _ => ⟨hlength, fun t ht => ?_⟩, fun _ => rfl⟩
      exact Bool.eq_false_iff.mpr fun hfinite => hnone (List.any_eq_true.mpr ⟨t, ht, hfinite⟩)

/-- None of the trials is accepted. -/
def NeverAccepts (line : Line α n) (p : SearchParams α) (objective : Objective α n)
    (calls : Nat) (stp : α) : Prop :=
  ∀ i st, (stagesOf line p objective calls stp)[i]? = some st →
    ∀ how, Verdict.of line p st.phase (line.trial objective (calls + 1 + i) st.stp) ≠ .accept how

theorem neverAccepts_iff (hslope : line.slope < 0) :
    NeverAccepts line p objective calls stp ↔ (probed line p objective calls stp).2 = none := by
  rw [NeverAccepts, stagesOf_of_descent hslope]
  exact probe_eq_none_iff.symm

theorem outcome_eq_stalled_iff (hevals : 1 ≤ p.maxEvals) :
    (∃ best, (of line p objective calls stp).outcome = .stalled best) ↔
      (of line p objective calls stp).evals = p.maxEvals ∧
        (∃ t ∈ (of line p objective calls stp).trials, t.eval.isFinite = true) ∧
        NeverAccepts line p objective calls stp := by
  rcases outcome_cases line p objective calls stp with
    ⟨-, htrials, houtcome⟩ | ⟨t, how, hslope, hlast, -, -, houtcome⟩ |
      ⟨hslope, hlast, hlength, houtcome⟩
  · rw [houtcome, evals, htrials]
    constructor
    · rintro ⟨_, h⟩
      cases h
    · intro h
      have hzero : 0 = p.maxEvals := h.1
      omega
  · rw [houtcome, neverAccepts_iff hslope, hlast]
    constructor
    · rintro ⟨_, h⟩
      cases h
    · intro h
      cases h.2.2
  · rw [houtcome, neverAccepts_iff hslope]
    split
    · rename_i hany
      exact ⟨fun _ => ⟨hlength, List.any_eq_true.mp hany, hlast⟩, fun _ => ⟨_, rfl⟩⟩
    · rename_i hnone
      constructor
      · rintro ⟨_, h⟩
        cases h
      · intro h
        exact absurd (List.any_eq_true.mpr h.2.1) hnone

/-! ### Answers without numbers -/

omit [Spaced α] in
theorem allFinite_eq_false_iff {v : Vector α n} :
    allFinite v = false ↔ ∃ i : Fin n, Scalar.isFinite v[i] = false := by
  rw [allFinite, Vector.all_eq_false]
  constructor
  · rintro ⟨i, hi, h⟩
    exact ⟨⟨i, hi⟩, Bool.eq_false_iff.mpr h⟩
  · rintro ⟨i, h⟩
    exact ⟨i, i.isLt, Bool.eq_false_iff.mp h⟩

section

variable {k : Nat} {x : Vector Extended n} {objective : Objective Extended n}

/-- A gradient of the wrong length counts as one whose entries are no numbers. -/
theorem replaced_not_finite (h : (objective.eval k x).isReplaced = true) :
    ∃ i : Fin n, Scalar.isFinite (objective.eval k x).g[i] = false := by
  rw [Evaluation.isReplaced, Bool.and_eq_true] at h
  have hn : 0 < n := of_decide_eq_true h.2
  refine ⟨⟨0, hn⟩, ?_⟩
  unfold Objective.eval Evaluation.ofAnswer at h ⊢
  split
  · rename_i hsize
    rw [dif_pos hsize] at h
    cases h.1
  · rw [getElem_eq_val, Vector.getElem_replicate]
    rfl

theorem isFinite_eq_false_iff : (objective.eval k x).isFinite = false ↔
    Scalar.isFinite (objective.eval k x).f = false ∨
      ∃ i : Fin n, Scalar.isFinite (objective.eval k x).g[i] = false := by
  rw [Evaluation.isFinite, Bool.and_eq_false_iff, Bool.and_eq_false_iff, Bool.not_eq_false',
    allFinite_eq_false_iff]
  constructor
  · rintro ((hreplaced | hvalue) | hentry)
    · exact .inr (replaced_not_finite hreplaced)
    · exact .inl hvalue
    · exact .inr hentry
  · rintro (hvalue | hentry)
    · exact .inl (.inr hvalue)
    · exact .inr hentry

end

/-! ### Exact arithmetic -/

/-- The first of the finite trials with the least value, if that is below `f0`. -/
def FirstLeast (f0 : Extended) (ts : List (Trial Extended n)) : Option (Trial Extended n) → Prop
  | none => ∀ t ∈ ts, t.eval.isFinite = true → ¬t.eval.f < f0
  | some b => b.eval.isFinite = true ∧ b.eval.f < f0 ∧
      (∀ t ∈ ts, t.eval.isFinite = true → b.eval.f ≤ t.eval.f) ∧
      ∃ before after, ts = before ++ b :: after ∧
        ∀ t ∈ before, t.eval.isFinite = true → b.eval.f < t.eval.f

theorem firstLeast_bestOf (f0 : Extended) (ts : List (Trial Extended n)) :
    FirstLeast f0 ts (bestOf f0 ts) := by
  have hlowest := lowest_bestOf f0 ts
  have hnumber : ∀ t : Trial Extended n, t.eval.isFinite = true →
      (t.eval.f == t.eval.f) = true := fun _ h =>
    OrderedScalar.beq_of_isFinite (Evaluation.finite_of_isFinite h).1
  cases hbest : bestOf f0 ts with
  | none =>
    rw [hbest] at hlowest
    exact hlowest.least
  | some b =>
    rw [hbest] at hlowest
    obtain ⟨before, after, hsplit, himproves⟩ := split_of_bestOf hbest
    refine ⟨himproves.1, himproves.2.1, fun t ht hfinite => ?_, before, after, hsplit, ?_⟩
    · exact OrderedScalar.le_of_not_lt (hnumber t hfinite) (hnumber b himproves.1)
        (hlowest.least t ht hfinite)
    · intro t ht hfinite
      have hnot := (lowest_bestOf f0 before).least t ht hfinite
      exact Extended.less_of_not_less himproves.lt_level
        (Extended.beq_iff.mp (hnumber t hfinite)) hnot

variable [Spaced Extended]

/-- What a search tells by its outcome. -/
structure Outcomes (line : Line Extended n) (p : SearchParams Extended)
    (objective : Objective Extended n) (calls : Nat) (stp : Extended) : Prop where
  /-- The trials are made one after the other, each with one call. -/
  trials_eq : (of line p objective calls stp).trials =
    (stagesOf line p objective calls stp).mapIdx
      fun i st => line.trial objective (calls + 1 + i) st.stp
  failed_iff : ∀ t ∈ (of line p objective calls stp).trials, t.eval.isFinite = false ↔
    Scalar.isFinite t.eval.f = false ∨ ∃ i : Fin n, Scalar.isFinite t.eval.g[i] = false
  notDescent_iff : ∀ slope, (of line p objective calls stp).outcome = .notDescent slope ↔
    ¬line.slope < 0 ∧ slope = line.slope
  not_begun : ¬line.slope < 0 → (of line p objective calls stp).trials = []
  nonFinite_iff : (of line p objective calls stp).outcome = .nonFinite ↔
    (of line p objective calls stp).evals = p.maxEvals ∧
      ∀ t ∈ (of line p objective calls stp).trials, t.eval.isFinite = false
  stalled_iff : (∃ best, (of line p objective calls stp).outcome = .stalled best) ↔
    (of line p objective calls stp).evals = p.maxEvals ∧
      (∃ t ∈ (of line p objective calls stp).trials, t.eval.isFinite = true) ∧
      NeverAccepts line p objective calls stp
  best : ∀ best, (of line p objective calls stp).outcome = .stalled best →
    FirstLeast line.f0 (of line p objective calls stp).trials best
  /-- Turning back is for good, and each step is half way between the one before and the best
  point at the turn. -/
  turned : ∀ i st, (stagesOf line p objective calls stp)[i]? = some st →
    Verdict.TurnsBack line p (line.trial objective (calls + 1 + i) st.stp) st.phase →
      TurnedBack line p objective calls stp i st.phase.anchor
        (Extended.halved st.phase.anchor st.stp)

/-- Every outcome says exactly what has happened, whatever the objective answers. -/
theorem outcomes (box : Box Extended n) (x d g0 : Vector Extended n) (f0 stpmax : Extended)
    (p : SearchParams Extended) (objective : Objective Extended n) (calls : Nat) (stp : Extended)
    (hevals : 1 ≤ p.maxEvals) :
    Outcomes { box := box, x := x, d := d, f0 := f0, slope := dot g0 d, stpmax := stpmax } p
      objective calls stp where
  trials_eq := trials_of
  failed_iff := by
    intro t ht
    rw [trials_of] at ht
    obtain ⟨i, hi, rfl⟩ := List.mem_mapIdx.mp ht
    exact isFinite_eq_false_iff
  notDescent_iff _ := outcome_eq_notDescent_iff
  not_begun h := by
    rw [of_not_descent h]
  nonFinite_iff := outcome_eq_nonFinite_iff hevals
  stalled_iff := outcome_eq_stalled_iff hevals
  best best h := by
    rw [best_of_stalled h]
    exact firstLeast_bestOf _ _
  turned i st hstage hturns := turnedBack_of hstage hturns (Extended.halfway_eq_halved _ _)
    fun j _ => Extended.halfway_halved _ _ j

omit [Spaced Extended] in
/-- The first value is no number, and the trial half way back ends the search. -/
theorem outcomes_after_undefined :
    let _ : Spaced Extended := ⟨fun _ _ _ => false⟩
    let line : Line Extended 1 :=
      { box := .unbounded 1, x := #v[0], d := #v[1], f0 := 0, slope := dot #v[-1] #v[1]
        stpmax := 1 }
    let p : SearchParams Extended :=
      { ulps := 4, maxEvals := 3, ftol := 0.001, gtol := 0.9, xtol := 0.1 }
    let objective : Objective Extended 1 := fun k _ => (if k = 1 then .undefined else -1, #[0])
    1 ≤ p.maxEvals ∧ Outcomes line p objective 0 1 ∧
      (Search.of line p objective 0 1).outcome =
        .accepted (line.trial objective 2 (Extended.halved 0 1 1)) .backtracked ∧
      (Search.of line p objective 0 1).evals = 2 := by
  intro spaced line p objective
  have hevals : 1 ≤ p.maxEvals := by decide
  have houtcomes : Outcomes line p objective 0 1 :=
    outcomes (.unbounded 1) #v[0] #v[1] #v[-1] 0 1 p objective 0 1 hevals
  have hslope : line.slope < 0 := by
    show (0 + -1 * 1 : ℝ) < 0
    norm_num
  have hstep : Scalar.smaller 1 line.stpmax = 1 := by
    rcases Scalar.smaller_cases 1 line.stpmax with h | h <;> exact h
  have hstage : (stagesOf line p objective 0 1)[0]? =
      some ⟨.interpolating (Bracket.begin line 1), 1⟩ := by
    rw [stagesOf_of_descent hslope, hstep, stages, List.getElem?_cons_zero]
  have hturned := houtcomes.turned 0 _ hstage (.undefined rfl)
  have hdecrease : Verdict.Decreases line p (line.trial objective 2 (Extended.halved 0 1 1)) := by
    have hfinite : (line.trial objective 2 (Extended.halved 0 1 1)).eval.isFinite = true := by
      rw [Evaluation.isFinite, Bool.and_eq_true]
      refine ⟨rfl, Vector.all_eq_true.mpr fun i hi => ?_⟩
      obtain rfl : i = 0 := by omega
      rfl
    refine ⟨hfinite, ?_⟩
    rw [← Extended.halfway_eq_halved]
    show (-1 : ℝ) ≤ 0 + (0 + 0.5 * (1 + -0)) * (0.001 * (0 + -1 * 1))
    norm_num
  obtain ⟨houtcome, hcount⟩ := hturned.accepted 1 (Nat.le_refl 1) (by decide) hdecrease
    fun m hm hlt => absurd hm (by omega)
  exact ⟨hevals, houtcomes, houtcome, hcount⟩

end Search

end BoxDescent
