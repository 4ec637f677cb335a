import BoxDescent.Linear.DiagonalPivoting
import BoxDescent.Proofs.LineSearch.Steps
import BoxDescent.Proofs.Run.Passes
import BoxDescent.Proofs.Settings

/-!
# The course of a run

The iterates that a run accepts, one after the other, and how it ends.  Every iterate is
reported once; a run stops at the first one that meets a tolerance.
-/

namespace BoxDescent

variable {α : Type} {n : Nat}

/-! ### Accepted iterates -/

section

variable [DenseSolver α]

/-- The iterates that passes arrive at. -/
def arrivals {cap : Nat} (passes : List (Pass α n cap)) : List (Iterate α n) :=
  passes.filterMap fun pass => pass.search.arrival?

/-- The iterates of a run: the first point, and those accepted. -/
def Run.iterates {cap : Nat} (run : Run α n cap) : List (Iterate α n) :=
  run.start.iterate :: arrivals run.passes

theorem arrivals_cons {cap : Nat} {pass : Pass α n cap} {it : Iterate α n}
    (h : pass.search.arrival? = some it) (later : List (Pass α n cap)) :
    arrivals (pass :: later) = it :: arrivals later :=
  List.filterMap_cons_some h

theorem arrivals_cons_none {cap : Nat} {pass : Pass α n cap} (h : pass.search.arrival? = none)
    (later : List (Pass α n cap)) : arrivals (pass :: later) = arrivals later :=
  List.filterMap_cons_none h

end

namespace Problem

variable [Scalar α] {p : Problem α n}

/-- An iterate that meets a tolerance, coming from the one before. -/
def meetsTolerance (p : Problem α n) (before it : Iterate α n) : Bool :=
  p.gradientIsSmall it || p.reductionIsSmall before.f it.f

/-- The course from iterate `it`, with number `k`, through the iterates that follow it, to the
result. -/
inductive Course (p : Problem α n) :
    Nat → Iterate α n → List (Iterate α n) → Result α n → Prop
  | failed {k : Nat} {it : Iterate α n} {result : Result α n}
      (room : k < p.settings.maxIterations)
      (iterations : result.iterations = k)
      (status : result.status = .lineSearchFailed ∨ result.status = .numericalError)
      (point : result.point = it ∨
        (result.status = .lineSearchFailed ∧ result.point.f < it.f)) :
      Course p k it [] result
  | stopped {k : Nat} {it it' : Iterate α n} {result : Result α n}
      (room : k < p.settings.maxIterations)
      (descent : it'.f ≤ it.f)
      (iterations : result.iterations = k + 1)
      (point : result.point = it')
      (status : (p.meetsTolerance it it' = true ∧ result.status = .converged) ∨
        (p.meetsTolerance it it' = false ∧ result.status = .maxIterReached ∧
          k + 1 = p.settings.maxIterations)) :
      Course p k it [it'] result
  | onward {k : Nat} {it it' : Iterate α n} {its : List (Iterate α n)} {result : Result α n}
      (descent : it'.f ≤ it.f)
      (tolerance : p.meetsTolerance it it' = false)
      (rest : Course p (k + 1) it' its result) :
      Course p k it (it' :: its) result

/-! ### What a course shows -/

namespace Course

variable {k : Nat} {it : Iterate α n} {its : List (Iterate α n)} {result : Result α n}

theorem iterations_eq (h : Course p k it its result) : result.iterations = k + its.length := by
  induction h with
  | failed room iterations => exact iterations
  | stopped room descent iterations => exact iterations
  | onward descent tolerance rest ih =>
    rw [ih, List.length_cons]
    omega

theorem iterations_le (h : Course p k it its result) :
    result.iterations ≤ p.settings.maxIterations := by
  induction h with
  | failed room iterations => omega
  | stopped room descent iterations => omega
  | onward descent tolerance rest ih => exact ih

theorem descending (h : Course p k it its result) :
    (it :: its).IsChain fun before after => after.f ≤ before.f := by
  induction h with
  | failed => exact .singleton _
  | stopped room descent => exact .cons_cons descent (.singleton _)
  | onward descent tolerance rest ih => exact .cons_cons descent ih

theorem not_converged (h : Course p k it [] result) : result.status ≠ .converged := by
  cases h with
  | failed room iterations status =>
    rcases status with h | h
    · rw [h]
      exact Status.noConfusion
    · rw [h]
      exact Status.noConfusion

/-- Only the last iterate of a run that converges meets a tolerance. -/
theorem meetsTolerance_iff (h : Course p k it its result) {j : Nat} {before after : Iterate α n}
    (hbefore : (it :: its)[j]? = some before) (hafter : its[j]? = some after) :
    p.meetsTolerance before after = true ↔
      j + 1 = its.length ∧ result.status = .converged := by
  induction h generalizing j with
  | failed => cases hafter
  | stopped room descent iterations point status =>
    cases j with
    | succ j => cases hafter
    | zero =>
      cases hbefore
      cases hafter
      rcases status with ⟨hmeets, hstatus⟩ | ⟨hmeets, hstatus, -⟩
      · exact iff_of_true hmeets ⟨rfl, hstatus⟩
      · rw [hmeets, hstatus]
        exact iff_of_false Bool.false_ne_true fun he => Status.noConfusion he.2
  | onward descent tolerance rest ih =>
    cases j with
    | succ j =>
      rw [List.length_cons, Nat.add_right_cancel_iff]
      exact ih hbefore hafter
    | zero =>
      cases hbefore
      cases hafter
      rw [tolerance]
      refine iff_of_false Bool.false_ne_true ?_
      rintro ⟨hlast, hstatus⟩
      have hnil := List.eq_nil_of_length_eq_zero (Nat.succ.inj hlast).symm
      rw [hnil] at rest
      exact rest.not_converged hstatus

theorem limit_reached (h : Course p k it its result) (hstatus : result.status = .maxIterReached) :
    result.iterations = p.settings.maxIterations := by
  induction h with
  | failed room iterations status =>
    rw [hstatus] at status
    rcases status with he | he <;> cases he
  | stopped room descent iterations point status =>
    rw [hstatus] at status
    rcases status with ⟨-, he⟩ | ⟨-, -, hlimit⟩
    · cases he
    · exact iterations.trans hlimit
  | onward descent tolerance rest ih => exact ih hstatus

/-- A run that fails does so before the limit. -/
theorem lt_limit (h : Course p k it its result)
    (hstatus : result.status = .lineSearchFailed ∨ result.status = .numericalError) :
    result.iterations < p.settings.maxIterations := by
  induction h with
  | failed room iterations => exact iterations ▸ room
  | stopped room descent iterations point status =>
    rcases status with ⟨-, he⟩ | ⟨-, he, -⟩
    · rw [he] at hstatus
      rcases hstatus with h | h <;> cases h
    · rw [he] at hstatus
      rcases hstatus with h | h <;> cases h
  | onward descent tolerance rest ih => exact ih hstatus

/-- The result is the last iterate, or lower where the last search has failed. -/
theorem point_cases (h : Course p k it its result) {last : Iterate α n}
    (hlast : (it :: its).getLast? = some last) :
    result.point = last ∨ (result.status = .lineSearchFailed ∧ result.point.f < last.f) := by
  induction h with
  | failed room iterations status point =>
    cases hlast
    exact point
  | stopped room descent iterations point =>
    cases hlast
    exact .inl point
  | onward descent tolerance rest ih => exact ih hlast

end Course

/-! ### Every run has a course -/

section

variable [Spaced α] [DenseSolver α]

/-- Where no search accepts a value above its start, the passes of a run make a course. -/
theorem course_passes (st : p.State)
    (hle : ∀ (st : p.State) (t : Trial α n) (how : Acceptance),
      (p.pass st).search.outcome = .accepted t how → t.eval.f ≤ st.iterate.f)
    (hroom : st.iterations < p.settings.maxIterations) :
    Course p st.iterations st.iterate (arrivals (p.passes st).1) (p.passes st).2 := by
  -- the room is part of what the induction carries: a pass that goes on leaves room
  revert hroom
  refine passes_induction (motive := fun st made => st.iterations < p.settings.maxIterations →
    Course p st.iterations st.iterate (arrivals made.1) made.2) ?_ ?_ st
  · intro st result hfinish hroom
    have hfailed : (p.pass st).search.arrival? = none →
        result.iterations = st.iterations →
        (result.status = .lineSearchFailed ∨ result.status = .numericalError) →
        (result.point = st.iterate ∨
          (result.status = .lineSearchFailed ∧ result.point.f < st.iterate.f)) →
        Course p st.iterations st.iterate (arrivals [p.pass st]) result := by
      intro hnone hiterations hstatus hpoint
      rw [arrivals_cons_none hnone]
      exact .failed hroom hiterations hstatus hpoint
    cases hfinish with
    | smallGradient t how outcome gradient =>
      rw [arrivals_cons (Search.arrival?_of_accepted outcome)]
      refine .stopped hroom (hle st t how outcome) rfl rfl (.inl ⟨?_, rfl⟩)
      rw [meetsTolerance, gradient, Bool.true_or]
    | smallReduction t how outcome gradient reduction =>
      rw [arrivals_cons (Search.arrival?_of_accepted outcome)]
      refine .stopped hroom (hle st t how outcome) rfl rfl (.inl ⟨?_, rfl⟩)
      rw [meetsTolerance, gradient, Bool.false_or]
      exact reduction
    | iterationLimit t how outcome gradient reduction limit =>
      rw [arrivals_cons (Search.arrival?_of_accepted outcome)]
      refine .stopped hroom (hle st t how outcome) rfl rfl (.inr ⟨?_, rfl, ?_⟩)
      · rw [meetsTolerance, gradient, Bool.false_or]
        exact reduction
      · omega
    | noDescent slope outcome =>
      exact hfailed (by rw [Search.arrival?, outcome]) rfl (.inl rfl) (.inl rfl)
    | nonFiniteLine outcome =>
      exact hfailed (by rw [Search.arrival?, outcome]) rfl (.inr rfl) (.inl rfl)
    | budgetSpent best outcome =>
      refine hfailed (by rw [Search.arrival?, outcome]) rfl (.inl rfl) ?_
      cases best with
      | none => exact .inl rfl
      | some t =>
        rw [search_eq] at outcome
        obtain ⟨-, -, hless⟩ := Search.mem_of_stalled outcome
        exact .inr ⟨rfl, hless⟩
  · intro st next hnext ih hroom
    cases hnext with
    | accepted t how outcome gradient reduction room =>
      rw [arrivals_cons (Search.arrival?_of_accepted outcome)]
      refine .onward (hle st t how outcome) ?_ (ih room)
      rw [meetsTolerance, gradient, Bool.false_or]
      exact reduction
    | retried failed =>
      rw [arrivals_cons_none failed]
      exact ih hroom

/-! ### Reports -/

theorem report_pass (st : p.State) :
    (p.pass st).report = (p.pass st).search.arrival?.map (p.reportOn (st.iterations + 1)) := by
  change p.reportOf st (p.pass st).search = _
  unfold reportOf Search.arrival?
  cases (p.pass st).search.outcome <;> rfl

/-- Each iterate at which the passes arrive is reported, with its number. -/
theorem reports_passes (st : p.State) :
    (p.passes st).1.filterMap Pass.report =
      (arrivals (p.passes st).1).mapIdx fun j => p.reportOn (st.iterations + 1 + j) := by
  refine passes_induction (motive := fun st made => made.1.filterMap Pass.report =
    (arrivals made.1).mapIdx fun j => p.reportOn (st.iterations + 1 + j)) ?_ ?_ st
  · intro st result _
    have hreport := report_pass st
    cases harrival : (p.pass st).search.arrival? with
    | none =>
      rw [harrival] at hreport
      rw [arrivals_cons_none harrival, List.filterMap_cons_none hreport]
      rfl
    | some it =>
      rw [harrival] at hreport
      rw [arrivals_cons harrival, List.filterMap_cons_some hreport]
      rfl
  · intro st next hnext ih
    have hreport := report_pass st
    cases hnext with
    | accepted t how outcome =>
      rw [Search.arrival?_of_accepted outcome] at hreport
      rw [arrivals_cons (Search.arrival?_of_accepted outcome),
        List.filterMap_cons_some hreport, List.mapIdx_cons, ih]
      have hshift : ∀ j, st.iterations + 1 + 1 + j = st.iterations + 1 + (j + 1) := by omega
      simp only [hshift]
    | retried failed =>
      rw [failed] at hreport
      rw [arrivals_cons_none failed, List.filterMap_cons_none hreport]
      exact ih

/-! ### The story of a whole run -/

/-- Report `k` meets a tolerance. -/
def Stopping (p : Problem α n) (reports : List (Report α)) (k : Nat) : Prop :=
  ∃ report, reports[k]? = some report ∧
    (report.pgNorm ≤ p.settings.gradientTolerance ∨
      ∃ before, 0 < k ∧ reports[k - 1]? = some before ∧
        before.f - report.f ≤ p.settings.reductionFactor * Scalar.epsilon *
          Scalar.larger (Scalar.larger (Scalar.abs before.f) (Scalar.abs report.f)) 1)

/-- What the reports of a run tell about it. -/
structure Tells (p : Problem α n) (run : Run α n p.settings.memory) : Prop where
  /-- Report `k` is on iterate `k`. -/
  reports_eq : run.reports = run.iterates.mapIdx fun k it =>
    { iteration := k, f := it.f, pgNorm := p.box.projectedGradientNorm it.x it.g }
  length_eq : run.reports.length = run.result.iterations + 1
  iterations_le : run.result.iterations ≤ p.settings.maxIterations
  descending : ∀ k before after, run.reports[k]? = some before →
    run.reports[k + 1]? = some after → after.f ≤ before.f
  stopping_iff : ∀ k, k < run.reports.length →
    (Stopping p run.reports k ↔ k = run.result.iterations ∧ run.result.status = .converged)
  limit_reached : run.result.status = .maxIterReached →
    run.result.iterations = p.settings.maxIterations
  lt_limit : run.result.status = .lineSearchFailed ∨ run.result.status = .numericalError →
    run.result.iterations < p.settings.maxIterations
  /-- The result is the last iterate reported, or lower after a failed search. -/
  last : ∃ last, run.iterates[run.result.iterations]? = some last ∧
    (run.result.point = last ∨
      (run.result.status = .lineSearchFailed ∧ run.result.point.f < last.f))

omit [Spaced α] [DenseSolver α] in
theorem stopping_zero {it : Iterate α n} {its : List (Iterate α n)} :
    Stopping p ((it :: its).mapIdx p.reportOn) 0 ↔ p.gradientIsSmall it = true := by
  have hreport : ((it :: its).mapIdx p.reportOn)[0]? = some (p.reportOn 0 it) := by
    rw [List.mapIdx_cons]
    rfl
  constructor
  · rintro ⟨report, hk, hsmall⟩
    cases hreport.symm.trans hk
    rcases hsmall with hgradient | ⟨before, hpos, -⟩
    · exact decide_eq_true hgradient
    · exact absurd hpos (lt_irrefl 0)
  · intro h
    exact ⟨_, hreport, .inl (of_decide_eq_true h)⟩

omit [Spaced α] [DenseSolver α] in
theorem stopping_succ {it before after : Iterate α n} {its : List (Iterate α n)} {j : Nat}
    (hbefore : (it :: its)[j]? = some before) (hafter : its[j]? = some after) :
    Stopping p ((it :: its).mapIdx p.reportOn) (j + 1) ↔
      p.meetsTolerance before after = true := by
  have hlast : ((it :: its).mapIdx p.reportOn)[j]? = some (p.reportOn j before) := by
    rw [List.getElem?_mapIdx, hbefore, Option.map_some]
  have hreport : ((it :: its).mapIdx p.reportOn)[j + 1]? = some (p.reportOn (j + 1) after) := by
    rw [List.getElem?_mapIdx, List.getElem?_cons_succ, hafter, Option.map_some]
  rw [meetsTolerance, Bool.or_eq_true]
  constructor
  · rintro ⟨report, hk, hsmall⟩
    cases hreport.symm.trans hk
    rcases hsmall with hgradient | ⟨report', -, hk', hreduction⟩
    · exact .inl (decide_eq_true hgradient)
    · cases hlast.symm.trans hk'
      exact .inr (decide_eq_true hreduction)
  · intro h
    refine ⟨_, hreport, ?_⟩
    rcases h with hgradient | hreduction
    · exact .inl (of_decide_eq_true hgradient)
    · exact .inr ⟨_, Nat.succ_pos j, hlast, of_decide_eq_true hreduction⟩

omit [Spaced α] in
/-- A run that ends at its first point tells so. -/
theorem tells_of_small {run : Run α n p.settings.memory} {it : Iterate α n}
    (hgradient : p.gradientIsSmall it = true) (hiterates : run.iterates = [it])
    (hreports : run.reports = [it].mapIdx p.reportOn)
    (hresult : run.result = p.finish it 0 1 .smallGradient) : Tells p run := by
  have hstatus : run.result.status = .converged := by
    rw [hresult]
    rfl
  have hnone : run.result.iterations = 0 := by
    rw [hresult]
    rfl
  refine
    { reports_eq := by
        rw [hreports, hiterates]
        rfl
      length_eq := by
        rw [hreports, hnone]
        rfl
      iterations_le := by
        rw [hnone]
        exact Nat.zero_le _
      descending := ?_
      stopping_iff := ?_
      limit_reached := ?_
      lt_limit := ?_
      last := ⟨it, by rw [hiterates, hnone]; rfl, .inl (by rw [hresult]; rfl)⟩ }
  · intro k before after _ hafter
    rw [hreports] at hafter
    cases hafter
  · intro k hk
    rw [hreports, List.length_mapIdx, List.length_singleton, Nat.lt_one_iff] at hk
    have hzero : Stopping p run.reports 0 := by
      rw [hreports]
      exact stopping_zero.mpr hgradient
    rw [hk]
    exact iff_of_true hzero ⟨hnone.symm, hstatus⟩
  · intro h
    rw [hstatus] at h
    cases h
  · intro h
    rw [hstatus] at h
    rcases h with h | h <;> cases h

omit [Spaced α] in
/-- A run that goes from pass to pass tells its course. -/
theorem Course.tells {run : Run α n p.settings.memory} {it : Iterate α n}
    {its : List (Iterate α n)} (h : Course p 0 it its run.result)
    (hgradient : p.gradientIsSmall it = false) (hiterates : run.iterates = it :: its)
    (hreports : run.reports = run.iterates.mapIdx p.reportOn) : Tells p run := by
  have hcount : run.result.iterations = its.length := by
    rw [h.iterations_eq, Nat.zero_add]
  have hlength : run.reports.length = run.result.iterations + 1 := by
    rw [hreports, hiterates, List.length_mapIdx, List.length_cons, hcount]
  refine
    { reports_eq := hreports
      length_eq := hlength
      iterations_le := h.iterations_le
      descending := ?_
      stopping_iff := ?_
      limit_reached := h.limit_reached
      lt_limit := h.lt_limit
      last := ?_ }
  · intro k before after hbefore hafter
    rw [hreports, hiterates, List.getElem?_mapIdx, Option.map_eq_some_iff] at hbefore hafter
    obtain ⟨first, hfirst, rfl⟩ := hbefore
    obtain ⟨second, hsecond, rfl⟩ := hafter
    obtain ⟨hk, rfl⟩ := List.getElem?_eq_some_iff.mp hfirst
    obtain ⟨hk', rfl⟩ := List.getElem?_eq_some_iff.mp hsecond
    exact List.isChain_iff_getElem.mp h.descending k hk'
  · intro k hk
    rw [hlength, hcount] at hk
    rw [hreports, hiterates, hcount]
    cases k with
    | zero =>
      rw [stopping_zero, hgradient]
      refine iff_of_false Bool.false_ne_true ?_
      rintro ⟨hzero, hstatus⟩
      rw [List.eq_nil_of_length_eq_zero hzero.symm] at h
      exact h.not_converged hstatus
    | succ j =>
      have hj : j < its.length := Nat.lt_of_succ_lt_succ hk
      obtain ⟨before, hbefore⟩ : ∃ before, (it :: its)[j]? = some before :=
        ⟨_, List.getElem?_eq_getElem (Nat.lt_succ_of_lt hj)⟩
      have hafter : its[j]? = some its[j] := List.getElem?_eq_getElem hj
      rw [stopping_succ hbefore hafter]
      exact h.meetsTolerance_iff hbefore hafter
  · have hlast : (it :: its)[its.length]? = (it :: its).getLast? := by
      rw [List.getLast?_eq_getElem?, List.length_cons, Nat.add_sub_cancel]
    obtain ⟨last, hsome⟩ : ∃ last, (it :: its).getLast? = some last :=
      ⟨_, List.getLast?_eq_some_getLast (List.cons_ne_nil it its)⟩
    refine ⟨last, ?_, h.point_cases hsome⟩
    rw [hiterates, hcount, hlast, hsome]

end

end Problem

/-! ### Exact arithmetic -/

namespace Problem

theorem longestStep_not_neg (p : Problem Extended n) (iterations : Nat)
    (x d : Vector Extended n) : ¬p.longestStep iterations x d < 0 := by
  unfold longestStep
  split
  · split
    · exact Extended.one_not_neg
    · exact Extended.larger_one_not_neg _
  · exact Extended.bigStep_not_neg

theorem firstStep_not_neg (p : Problem Extended n) (iterations : Nat) (d : Vector Extended n)
    {stpmax : Extended} (hmax : ¬stpmax < 0) : ¬p.firstStep iterations d stpmax < 0 := by
  unfold firstStep
  split
  · exact Scalar.smaller_not_neg (Extended.one_div_sqrt_not_neg _) hmax
  · exact Extended.one_not_neg

variable [Spaced Extended] [DenseSolver Extended]

theorem le_of_accepted {p : Problem Extended n} (hsettings : p.settings.Sound) (st : p.State)
    (t : Trial Extended n) (how : Acceptance)
    (h : (p.pass st).search.outcome = .accepted t how) : t.eval.f ≤ st.iterate.f := by
  rw [search_eq] at h
  have hmax : ¬(p.lineFrom st).stpmax < 0 := p.longestStep_not_neg _ _ _
  exact Search.le_of_accepted hmax (p.firstStep_not_neg _ _ hmax) hsettings.decrease_pos h

/-- The reports of a run whose first evaluation is finite tell its course; another one reports
nothing. -/
theorem reports_tell_course (p : Problem Extended n) (x0 : Vector Extended n)
    (hcheck : p.settings.check = .ok ()) :
    ((p.run x0).start.eval.isFinite = true → Tells p (p.run x0)) ∧
    ((p.run x0).start.eval.isFinite = false →
      (p.run x0).reports = [] ∧ (p.run x0).result.status = .numericalError ∧
        (p.run x0).result.iterations = 0 ∧ (p.run x0).result.evals = 1) := by
  have hsettings := Settings.check_eq_ok_iff.mp hcheck
  rw [start_run]
  constructor
  · intro hfinite
    cases hgradient : p.gradientIsSmall (p.firstTrial x0).iterate with
    | true =>
      rw [run_of_small hfinite hgradient]
      exact tells_of_small hgradient rfl rfl rfl
    | false =>
      rw [run_of_passes hfinite hgradient]
      have hcourse := course_passes (p.initial (p.firstTrial x0).iterate)
        (le_of_accepted hsettings) hsettings.maxIterations_pos
      refine hcourse.tells hgradient rfl ?_
      have hshift : (fun j => p.reportOn (0 + 1 + j)) = fun j => p.reportOn (j + 1) := by
        funext j
        rw [Nat.add_comm]
      have hreports := reports_passes (p.initial (p.firstTrial x0).iterate)
      rw [Run.iterates, List.mapIdx_cons, ← hshift]
      exact congrArg (List.cons _) hreports
  · intro hfinite
    rw [run_of_not_finite hfinite]
    exact ⟨rfl, rfl, rfl, rfl⟩

/-- One variable as its own value up to the call with the given number, and no number from
there on. -/
noncomputable def numberedUntil (calls : Nat) : Objective Extended 1 := fun k x =>
  if k < calls then (x.head, #[1]) else (.undefined, #[1])

omit [Spaced Extended] [DenseSolver Extended] in
theorem reports_tell_course_of_identity :
    let _ : Spaced Extended := ⟨fun _ _ _ => false⟩
    let _ := DenseSolver.symmetric Extended
    let box : Box Extended 1 := .unbounded 1
    let p : Problem Extended 1 :=
      { settings := Settings.default, objective := numberedUntil 3, box := box }
    let q : Problem Extended 1 :=
      { settings := Settings.default, objective := numberedUntil 1, box := box }
    p.settings.check = .ok () ∧ (p.run #v[.finite 3]).start.eval.isFinite = true ∧
      Tells p (p.run #v[.finite 3]) ∧ (q.run #v[.finite 3]).start.eval.isFinite = false ∧
        (q.run #v[.finite 3]).reports = [] := by
  intro spaced solver box p q
  have hcheck : p.settings.check = .ok () :=
    Settings.check_eq_ok_iff.mpr Settings.sound_default_extended
  have hfinite : (p.run #v[.finite 3]).start.eval.isFinite = true := by
    rw [start_run, Evaluation.isFinite, Bool.and_eq_true]
    refine ⟨rfl, Vector.all_eq_true.mpr fun i hi => ?_⟩
    obtain rfl : i = 0 := by omega
    rfl
  have hundefined : (q.run #v[.finite 3]).start.eval.isFinite = false := by
    rw [start_run]
    rfl
  exact ⟨hcheck, hfinite, (reports_tell_course p #v[.finite 3] hcheck).1 hfinite, hundefined,
    ((reports_tell_course q #v[.finite 3] hcheck).2 hundefined).1⟩

end Problem

end BoxDescent
