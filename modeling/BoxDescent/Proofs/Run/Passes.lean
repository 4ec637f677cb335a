import BoxDescent.Proofs.LineSearch.Trials
import BoxDescent.Run

/-!
# From pass to pass

What a pass can lead to, and the induction over the passes of a run.  A pass goes on from an
accepted trial, or from the same iterate without corrections; or it ends the run.
-/

namespace BoxDescent

variable {α : Type} {n : Nat}

/-- The iterate that a search arrives at. -/
def Search.arrival? (s : Search α n) : Option (Iterate α n) :=
  match s.outcome with
  | .accepted t _ => some t.iterate
  | _ => none

theorem Search.arrival?_of_accepted {s : Search α n} {t : Trial α n} {how : Acceptance}
    (h : s.outcome = .accepted t how) : s.arrival? = some t.iterate := by
  rw [arrival?, h]

theorem Search.accepted_of_arrival? {s : Search α n} {it : Iterate α n}
    (h : s.arrival? = some it) : ∃ t how, s.outcome = .accepted t how ∧ t.iterate = it := by
  unfold arrival? at h
  split at h
  · rename_i t how houtcome
    exact ⟨t, how, houtcome, Option.some.inj h⟩
  · cases h

variable [Scalar α] [Spaced α] [DenseSolver α]

namespace Problem

variable {p : Problem α n}

/-! ### Outcomes of a pass -/

section

omit [Spaced α]

/-- How the search `s` of a pass from `st` leads to another pass. -/
inductive Continues (p : Problem α n) (st : p.State) (s : Search α n) : p.State → Prop
  | accepted (t : Trial α n) (how : Acceptance) (outcome : s.outcome = .accepted t how)
      (gradient : p.gradientIsSmall t.iterate = false)
      (reduction : p.reductionIsSmall st.iterate.f t.eval.f = false)
      (room : st.iterations + 1 < p.settings.maxIterations) :
      Continues p st s
        { iterate := t.iterate
          iterations := st.iterations + 1
          evals := st.evals + s.evals
          store := (st.store.push (t.x - st.iterate.x) (t.eval.g - st.iterate.g)).1 }
  | retried (failed : s.arrival? = none) (corrections : st.store.isEmpty = false) :
      Continues p st s { st with evals := st.evals + s.evals, store := Store.empty }

/-- How the search `s` of a pass from `st` ends the run. -/
inductive Finishes (p : Problem α n) (st : p.State) (s : Search α n) : Result α n → Prop
  | smallGradient (t : Trial α n) (how : Acceptance) (outcome : s.outcome = .accepted t how)
      (gradient : p.gradientIsSmall t.iterate = true) :
      Finishes p st s
        (p.finish t.iterate (st.iterations + 1) (st.evals + s.evals) .smallGradient)
  | smallReduction (t : Trial α n) (how : Acceptance) (outcome : s.outcome = .accepted t how)
      (gradient : p.gradientIsSmall t.iterate = false)
      (reduction : p.reductionIsSmall st.iterate.f t.eval.f = true) :
      Finishes p st s
        (p.finish t.iterate (st.iterations + 1) (st.evals + s.evals) .smallReduction)
  | iterationLimit (t : Trial α n) (how : Acceptance) (outcome : s.outcome = .accepted t how)
      (gradient : p.gradientIsSmall t.iterate = false)
      (reduction : p.reductionIsSmall st.iterate.f t.eval.f = false)
      (limit : p.settings.maxIterations ≤ st.iterations + 1) :
      Finishes p st s
        (p.finish t.iterate (st.iterations + 1) (st.evals + s.evals) .iterationLimit)
  | noDescent (slope : α) (outcome : s.outcome = .notDescent slope)
      (corrections : st.store.isEmpty = true) :
      Finishes p st s (p.finish st.iterate st.iterations (st.evals + s.evals) .noDescent)
  | budgetSpent (best : Option (Trial α n)) (outcome : s.outcome = .stalled best)
      (corrections : st.store.isEmpty = true) :
      Finishes p st s (p.finish ((best.map Trial.iterate).getD st.iterate) st.iterations
        (st.evals + s.evals) .budgetSpent)
  | nonFiniteLine (outcome : s.outcome = .nonFinite) (corrections : st.store.isEmpty = true) :
      Finishes p st s (p.finish st.iterate st.iterations (st.evals + s.evals) .nonFiniteLine)

/-- What a search can lead to. -/
def Leads (p : Problem α n) (st : p.State) (s : Search α n) :
    Outcome α n p.settings.memory → Prop
  | .next next => Continues p st s next
  | .stop result => Finishes p st s result

variable {st : p.State} {s : Search α n}

theorem leads_acceptTrial {t : Trial α n} {how : Acceptance} (h : s.outcome = .accepted t how) :
    Leads p st s (p.acceptTrial st (st.evals + s.evals) t).2 := by
  unfold acceptTrial
  dsimp only
  split
  · rename_i hgrad
    exact .smallGradient t how h hgrad
  · rename_i hgrad
    rw [Bool.not_eq_true] at hgrad
    split
    · rename_i hred
      exact .smallReduction t how h hgrad hred
    · rename_i hred
      rw [Bool.not_eq_true] at hred
      split
      · rename_i hlimit
        exact .iterationLimit t how h hgrad hred hlimit
      · rename_i hlimit
        exact .accepted t how h hgrad hred (Nat.lt_of_not_le hlimit)

theorem leads_failSearch {reason : Reason} {best : Option (Trial α n)}
    (h : s.arrival? = none)
    (hend : st.store.isEmpty = true → Leads p st s (p.giveUp st (st.evals + s.evals) reason best)) :
    Leads p st s (p.failSearch st (st.evals + s.evals) reason best) := by
  unfold failSearch
  split
  · rename_i hempty
    exact hend hempty
  · rename_i hempty
    rw [Store.clear_eq_empty]
    exact .retried h (Bool.eq_false_iff.mpr hempty)

theorem leads_afterSearch : Leads p st s (p.afterSearch st s).2 := by
  unfold afterSearch
  dsimp only
  split
  · rename_i t how h
    exact leads_acceptTrial h
  · rename_i slope h
    exact leads_failSearch (by rw [Search.arrival?, h]) (.noDescent slope h)
  · rename_i best h
    exact leads_failSearch (by rw [Search.arrival?, h]) (.budgetSpent best h)
  · rename_i h
    exact leads_failSearch (by rw [Search.arrival?, h]) (.nonFiniteLine h)

end

theorem continues_of_pass {st next : p.State} (h : (p.pass st).outcome = .next next) :
    Continues p st (p.pass st).search next := by
  have hleads : Leads p st (p.pass st).search (p.pass st).outcome := leads_afterSearch
  rw [h] at hleads
  exact hleads

theorem finishes_of_pass {st : p.State} {result : Result α n}
    (h : (p.pass st).outcome = .stop result) : Finishes p st (p.pass st).search result := by
  have hleads : Leads p st (p.pass st).search (p.pass st).outcome := leads_afterSearch
  rw [h] at hleads
  exact hleads

theorem outcome_of_accepted {st : p.State} {t : Trial α n} {how : Acceptance}
    (h : (p.pass st).search.outcome = .accepted t how)
    (hgradient : p.gradientIsSmall t.iterate = false)
    (hreduction : p.reductionIsSmall st.iterate.f t.iterate.f = false)
    (hroom : st.iterations + 1 < p.settings.maxIterations) :
    (p.pass st).outcome = .next
      { iterate := t.iterate
        iterations := st.iterations + 1
        evals := st.evals + (p.pass st).search.evals
        store := (st.store.push (t.iterate.x - st.iterate.x) (t.iterate.g - st.iterate.g)).1 } := by
  change (p.afterSearch st (p.pass st).search).2 = _
  simp only [afterSearch, h, acceptTrial, hgradient, hreduction, Nat.not_le_of_lt hroom,
    Bool.false_eq_true, if_false]

theorem outcome_of_small {st : p.State} {t : Trial α n} {how : Acceptance}
    (h : (p.pass st).search.outcome = .accepted t how)
    (hgradient : p.gradientIsSmall t.iterate = true) :
    (p.pass st).outcome = .stop (p.finish t.iterate (st.iterations + 1)
      (st.evals + (p.pass st).search.evals) .smallGradient) := by
  change (p.afterSearch st (p.pass st).search).2 = _
  simp only [afterSearch, h, acceptTrial, hgradient, if_true]

theorem outcome_of_stalled {st : p.State} {best : Option (Trial α n)}
    (h : (p.pass st).search.outcome = .stalled best) :
    (p.pass st).outcome =
      p.failSearch st (st.evals + (p.pass st).search.evals) .budgetSpent best := by
  change (p.afterSearch st (p.pass st).search).2 = _
  rw [afterSearch, h]

/-! ### The search of a pass -/

/-- The line that is searched in the pass from a state. -/
def lineFrom (p : Problem α n) (st : p.State) : Line α n :=
  let d := (p.pass st).step.direction st.iterate.x
  { box := p.box
    x := st.iterate.x
    d := d
    f0 := st.iterate.f
    slope := dot st.iterate.g d
    stpmax := p.longestStep st.iterations st.iterate.x d }

theorem search_eq (st : p.State) :
    (p.pass st).search = Search.of (p.lineFrom st) p.settings.search p.objective st.evals
      (p.firstStep st.iterations (p.lineFrom st).d (p.lineFrom st).stpmax) := rfl

theorem calls_search (st : p.State) :
    Calls p.box p.objective (st.evals + 1) (p.pass st).search.trials := by
  have hbox : p.box = (p.lineFrom st).box := rfl
  rw [search_eq, hbox]
  exact Search.calls_of

/-- A trial that a pass accepts is on the box. -/
theorem project_of_accepted {st : p.State} {t : Trial α n} {how : Acceptance}
    (h : (p.pass st).search.outcome = .accepted t how) : ∃ y, t.x = p.box.project y := by
  have hmem : t ∈ (p.pass st).search.trials := by
    rw [search_eq] at h ⊢
    exact (Search.mem_of_accepted h).1
  obtain ⟨i, hi, rfl⟩ := List.getElem_of_mem hmem
  exact ((calls_search st).getElem hi).1

/-! ### Passes in sequence -/

theorem passes_of_stop {st : p.State} {result : Result α n}
    (h : (p.pass st).outcome = .stop result) : p.passes st = ([p.pass st], result) := by
  rw [passes]
  split
  · rename_i result' h'
    rw [h] at h'
    cases h'
    rfl
  · rename_i next h'
    rw [h] at h'
    cases h'

theorem passes_of_next {st next : p.State} (h : (p.pass st).outcome = .next next) :
    p.passes st = (p.pass st :: (p.passes next).1, (p.passes next).2) := by
  rw [passes]
  split
  · rename_i result' h'
    rw [h] at h'
    cases h'
  · rename_i next' h'
    rw [h] at h'
    cases h'
    rfl

/-- What the last pass of a run has, and each pass has if the next one has it, every pass has. -/
theorem passes_induction {motive : p.State → List (Pass α n p.settings.memory) × Result α n → Prop}
    (stop : ∀ st result, Finishes p st (p.pass st).search result →
      motive st ([p.pass st], result))
    (next : ∀ st st', Continues p st (p.pass st).search st' → motive st' (p.passes st') →
      motive st (p.pass st :: (p.passes st').1, (p.passes st').2))
    (st : p.State) : motive st (p.passes st) := by
  induction hleft : p.passesLeft st using Nat.strongRecOn generalizing st with
  | _ left ih =>
    cases houtcome : (p.pass st).outcome with
    | stop result =>
      rw [passes_of_stop houtcome]
      exact stop st result (finishes_of_pass houtcome)
    | next st' =>
      rw [passes_of_next houtcome]
      have hless : p.passesLeft st' < left := hleft ▸ passesLeft_of_pass houtcome
      exact next st st' (continues_of_pass houtcome) (ih _ hless st' rfl)

/-- What every pass hands on to the next holds at the start of each. -/
theorem passes_invariant {Inv : p.State → Prop}
    (hnext : ∀ st st', Inv st → Continues p st (p.pass st).search st' → Inv st')
    {st : p.State} (hst : Inv st) :
    ∀ pass ∈ (p.passes st).1, Inv pass.entry ∧ pass = p.pass pass.entry := by
  revert hst
  refine passes_induction (motive := fun st made => Inv st →
    ∀ pass ∈ made.1, Inv pass.entry ∧ pass = p.pass pass.entry) ?_ ?_ st
  · intro st result _ hst pass hpass
    cases List.mem_singleton.mp hpass
    exact ⟨hst, rfl⟩
  · intro st st' hcont ih hst pass hpass
    rcases List.mem_cons.mp hpass with rfl | hlater
    · exact ⟨hst, rfl⟩
    · exact ih (hnext st st' hst hcont) pass hlater

theorem mem_passes (st : p.State) : p.pass st ∈ (p.passes st).1 := by
  cases houtcome : (p.pass st).outcome with
  | stop result =>
    rw [passes_of_stop houtcome]
    exact List.mem_cons_self
  | next st' =>
    rw [passes_of_next houtcome]
    exact List.mem_cons_self

/-! ### The start of a run -/

/-- The first call of a run. -/
def firstTrial (p : Problem α n) (x0 : Vector α n) : Trial α n where
  stp := 0
  x := p.box.project x0
  eval := p.objective.eval 1 (p.box.project x0)

section

variable {x0 : Vector α n}

theorem start_run : (p.run x0).start = p.firstTrial x0 := by
  unfold run
  dsimp only
  split
  · split <;> rfl
  · rfl

theorem run_of_not_finite (h : (p.firstTrial x0).eval.isFinite = false) :
    p.run x0 =
      { projected := !(p.box.project x0 == x0)
        start := p.firstTrial x0
        firstReport := none
        passes := []
        result := p.finish (p.firstTrial x0).iterate 0 1 .nonFiniteStart } :=
  if_neg (Bool.eq_false_iff.mp h)

theorem run_of_small (h : (p.firstTrial x0).eval.isFinite = true)
    (hgrad : p.gradientIsSmall (p.firstTrial x0).iterate = true) :
    p.run x0 =
      { projected := !(p.box.project x0 == x0)
        start := p.firstTrial x0
        firstReport := some (p.reportOn 0 (p.firstTrial x0).iterate)
        passes := []
        result := p.finish (p.firstTrial x0).iterate 0 1 .smallGradient } :=
  (if_pos h).trans (if_pos hgrad)

theorem run_of_passes (h : (p.firstTrial x0).eval.isFinite = true)
    (hgrad : p.gradientIsSmall (p.firstTrial x0).iterate = false) :
    p.run x0 =
      { projected := !(p.box.project x0 == x0)
        start := p.firstTrial x0
        firstReport := some (p.reportOn 0 (p.firstTrial x0).iterate)
        passes := (p.passes (p.initial (p.firstTrial x0).iterate)).1
        result := (p.passes (p.initial (p.firstTrial x0).iterate)).2 } :=
  (if_pos h).trans (if_neg (Bool.eq_false_iff.mp hgrad))

/-- What holds at the start of the first pass, and is handed on by every pass, holds at the start
of each pass of the run. -/
theorem run_invariant (Inv : p.State → Prop)
    (hstart : (p.firstTrial x0).eval.isFinite = true →
      p.gradientIsSmall (p.firstTrial x0).iterate = false →
        Inv (p.initial (p.firstTrial x0).iterate))
    (hnext : ∀ st st', Inv st → Continues p st (p.pass st).search st' → Inv st') :
    ∀ pass ∈ (p.run x0).passes, Inv pass.entry ∧ pass = p.pass pass.entry := by
  cases hfinite : (p.firstTrial x0).eval.isFinite with
  | false =>
    rw [run_of_not_finite hfinite]
    exact fun _ hpass => nomatch hpass
  | true =>
    cases hgrad : p.gradientIsSmall (p.firstTrial x0).iterate with
    | true =>
      rw [run_of_small hfinite hgrad]
      exact fun _ hpass => nomatch hpass
    | false =>
      rw [run_of_passes hfinite hgrad]
      exact passes_invariant hnext (hstart hfinite hgrad)

end

end Problem

end BoxDescent
