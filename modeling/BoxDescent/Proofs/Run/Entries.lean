import Mathlib.Data.List.DropRight
import BoxDescent.Proofs.History.Operation
import BoxDescent.Proofs.Run.Best

/-!
# Where passes start

A pass starts from the iterate that was reported last.  Its store has been offered the
differences of the iterates since the last search that failed, in their order; a failed search
leaves all as it was but the number of calls and a store that is empty again.
-/

namespace BoxDescent

variable {α : Type} {n cap : Nat}

/-! ### Iterates since the last failed search -/

section

variable [DenseSolver α]

def Pass.accepts (pass : Pass α n cap) : Bool := pass.search.arrival?.isSome

/-- The iterate from which the last failed search was made, or else the first one, and those
accepted since. -/
def sinceFailure (start : Iterate α n) (prior : List (Pass α n cap)) : List (Iterate α n) :=
  (start :: arrivals prior).rtake ((prior.rtakeWhile Pass.accepts).length + 1)

variable {start it : Iterate α n} {prior : List (Pass α n cap)} {pass : Pass α n cap}

theorem arrivals_concat (h : pass.search.arrival? = some it) :
    arrivals (prior ++ [pass]) = arrivals prior ++ [it] := by
  simp [arrivals, h]

theorem arrivals_concat_none (h : pass.search.arrival? = none) :
    arrivals (prior ++ [pass]) = arrivals prior := by
  simp [arrivals, h]

theorem sinceFailure_concat (h : pass.search.arrival? = some it) :
    sinceFailure start (prior ++ [pass]) = sinceFailure start prior ++ [it] := by
  have hsome : pass.accepts = true := by simp [Pass.accepts, h]
  rw [sinceFailure, arrivals_concat h, List.rtakeWhile_concat_pos _ _ _ hsome,
    List.length_append, List.length_singleton, ← List.cons_append, List.rtake_concat_succ]
  rfl

theorem sinceFailure_concat_none (h : pass.search.arrival? = none)
    (hlast : (start :: arrivals prior).getLast? = some it) :
    sinceFailure start (prior ++ [pass]) = [it] := by
  have hnone : ¬pass.accepts = true := by simp [Pass.accepts, h]
  obtain ⟨older, holder⟩ := List.getLast?_eq_some_iff.mp hlast
  rw [sinceFailure, arrivals_concat_none h, List.rtakeWhile_concat_neg _ _ _ hnone, holder,
    List.length_nil, List.rtake_concat_succ, List.rtake_zero, List.nil_append]

theorem sinceFailure_eq_concat (hlast : (start :: arrivals prior).getLast? = some it) :
    ∃ older, sinceFailure start prior = older ++ [it] := by
  obtain ⟨older, holder⟩ := List.getLast?_eq_some_iff.mp hlast
  rw [sinceFailure, holder, List.rtake_concat_succ]
  exact ⟨_, rfl⟩

end

/-- What each of the iterates after the first offers to the store. -/
def offers [Scalar α] (its : List (Iterate α n)) : List (Store.Operation α n) :=
  its.zipWith (fun before after => .offer (after.x - before.x) (after.g - before.g)) its.tail

theorem offers_concat [Scalar α] (older : List (Iterate α n)) (before after : Iterate α n) :
    offers (older ++ [before] ++ [after]) =
      offers (older ++ [before]) ++ [.offer (after.x - before.x) (after.g - before.g)] := by
  induction older with
  | nil => rfl
  | cons it older ih =>
    cases older with
    | nil => rfl
    | cons it' older => exact congrArg (List.cons _) ih

/-! ### From pass to pass -/

namespace Problem

variable [Scalar α] [Spaced α] [DenseSolver α] {p : Problem α n}

/-- The state after the given passes of a run from `start`. -/
structure Follows (p : Problem α n) (start : Iterate α n)
    (prior : List (Pass α n p.settings.memory)) (st : p.State) : Prop where
  iterate : (start :: arrivals prior).getLast? = some st.iterate
  iterations : st.iterations = (arrivals prior).length
  report : (p.reportOn 0 start :: prior.filterMap Pass.report).getLast? =
    some (p.reportOn st.iterations st.iterate)
  store : st.store = Store.after (offers (sinceFailure start prior))
  evals : st.evals = 1 + (prior.flatMap fun pass => pass.search.trials).length

omit [Spaced α] in
theorem follows_initial (start : Iterate α n) : Follows p start [] (p.initial start) where
  iterate := rfl
  iterations := rfl
  report := rfl
  store := rfl
  evals := rfl

theorem Follows.next {start : Iterate α n} {prior : List (Pass α n p.settings.memory)}
    {st st' : p.State} (h : Follows p start prior st)
    (hnext : Continues p st (p.pass st).search st') :
    Follows p start (prior ++ [p.pass st]) st' := by
  have hreport := report_pass st
  have hevals := evals_of_continues hnext
  have htrials : ((prior ++ [p.pass st]).flatMap fun pass => pass.search.trials).length =
      (prior.flatMap fun pass => pass.search.trials).length +
        (p.pass st).search.trials.length := by simp
  cases hnext with
  | accepted t how outcome =>
    have harrival := Search.arrival?_of_accepted outcome
    rw [harrival] at hreport
    obtain ⟨older, holder⟩ := sinceFailure_eq_concat h.iterate
    refine ⟨?_, ?_, ?_, ?_, ?_⟩
    · rw [arrivals_concat harrival, ← List.cons_append, List.getLast?_concat]
    · show st.iterations + 1 = _
      rw [arrivals_concat harrival, List.length_append, h.iterations]
      rfl
    · rw [List.filterMap_append, List.filterMap_cons_some hreport, ← List.cons_append]
      exact List.getLast?_concat
    · rw [sinceFailure_concat harrival, holder, offers_concat, Store.after_append, ← holder,
        ← h.store]
      rfl
    · rw [hevals, htrials, h.evals, Nat.add_assoc]
  | retried failed corrections =>
    rw [failed] at hreport
    refine ⟨?_, ?_, ?_, ?_, ?_⟩
    · rw [arrivals_concat_none failed]
      exact h.iterate
    · rw [arrivals_concat_none failed]
      exact h.iterations
    · rw [List.filterMap_append, List.filterMap_cons_none hreport, List.filterMap_nil,
        List.append_nil]
      exact h.report
    · rw [sinceFailure_concat_none failed h.iterate]
      rfl
    · rw [hevals, htrials, h.evals, Nat.add_assoc]

/-- What is known of a state and of the passes that led to it is known at the start of every
later pass. -/
theorem Trail.known {Inv : List (Pass α n p.settings.memory) → p.State → Prop}
    (hnext : ∀ prior st st', Inv prior st → Continues p st (p.pass st).search st' →
      Inv (prior ++ [p.pass st]) st')
    {st : p.State} {result : Result α n} {prior before later : List (Pass α n p.settings.memory)}
    {pass : Pass α n p.settings.memory} (h : Trail p st (before ++ pass :: later) result)
    (hst : Inv prior st) : Inv (prior ++ before) pass.entry := by
  -- along the trail, the passes made so far move from `before` to `prior`
  generalize hmade : before ++ pass :: later = made at h
  induction h generalizing prior before with
  | last outcome =>
    cases before with
    | nil =>
      cases hmade
      rwa [List.append_nil]
    | cons first before =>
      rw [List.cons_append] at hmade
      exact absurd (List.cons.inj hmade).2 (by simp)
  | onward outcome rest ih =>
    cases before with
    | nil =>
      cases hmade
      rwa [List.append_nil]
    | cons first before =>
      cases hmade
      rw [List.append_cons]
      exact ih (hnext _ _ _ hst (continues_of_pass outcome)) rfl

/-! ### Failed searches -/

omit [Spaced α] in
theorem Finishes.isEmpty {st : p.State} {s : Search α n} {result : Result α n}
    (h : Finishes p st s result) (hfailed : s.arrival? = none) : st.store.isEmpty = true := by
  cases h with
  | smallGradient t how outcome | smallReduction t how outcome | iterationLimit t how outcome =>
    rw [Search.arrival?_of_accepted outcome] at hfailed
    cases hfailed
  | noDescent slope outcome corrections => exact corrections
  | budgetSpent best outcome corrections => exact corrections
  | nonFiniteLine outcome corrections => exact corrections

theorem admission_of_failed {st : p.State} (h : (p.pass st).search.arrival? = none) :
    (p.pass st).admission = none := by
  change (p.afterSearch st (p.pass st).search).1 = none
  unfold Search.arrival? at h
  unfold afterSearch
  dsimp only
  split
  · rename_i houtcome
    rw [houtcome] at h
    cases h
  all_goals rfl

/-- A search that fails with corrections is followed by a pass without them. -/
theorem Trail.retried {st : p.State} {later : List (Pass α n p.settings.memory)}
    {result : Result α n} (h : Trail p st (p.pass st :: later) result)
    (hfailed : (p.pass st).search.arrival? = none) (hstore : st.store.isEmpty = false) :
    ∃ next rest, later = next :: rest ∧
      next.entry = { st with
        evals := st.evals + (p.pass st).search.evals
        store := st.store.clear } := by
  rw [Store.clear_eq_empty]
  generalize hmade : p.pass st :: later = made at h
  cases h with
  | last outcome =>
    have hempty := (finishes_of_pass outcome).isEmpty hfailed
    rw [hstore] at hempty
    cases hempty
  | onward outcome rest =>
    obtain ⟨-, rfl⟩ := List.cons.inj hmade
    cases continues_of_pass outcome with
    | accepted t how outcome' =>
      rw [Search.arrival?_of_accepted outcome'] at hfailed
      cases hfailed
    | retried failed corrections =>
      cases rest with
      | last => exact ⟨_, _, rfl, rfl⟩
      | onward => exact ⟨_, _, rfl, rfl⟩

/-! ### Whole runs -/

theorem run_of_mem {x0 : Vector α n} {pass : Pass α n p.settings.memory}
    (h : pass ∈ (p.run x0).passes) :
    (p.run x0).firstReport = some (p.reportOn 0 (p.run x0).start.iterate) ∧
      Trail p (p.initial (p.run x0).start.iterate) (p.run x0).passes (p.run x0).result := by
  cases hfinite : (p.firstTrial x0).eval.isFinite with
  | false =>
    rw [run_of_not_finite hfinite] at h
    cases h
  | true =>
    cases hgrad : p.gradientIsSmall (p.firstTrial x0).iterate with
    | true =>
      rw [run_of_small hfinite hgrad] at h
      cases h
    | false =>
      rw [run_of_passes hfinite hgrad]
      exact ⟨rfl, trail_passes _⟩

/-- Every pass starts from the last reported iterate, with the store that the differences of the
iterates since the last failed search make of an empty one.  After a search that fails with
corrections the next pass starts the same way, except that calls have been made and the store is
as good as new. -/
theorem passes_start_from_reports (p : Problem α n) (x0 : Vector α n)
    (hcheck : p.settings.check = .ok ()) :
    let run := p.run x0
    let start := run.start.iterate
    ∀ (prior : List (Pass α n p.settings.memory)) (pass : Pass α n p.settings.memory)
        (later : List (Pass α n p.settings.memory)), run.passes = prior ++ pass :: later →
      let entry := pass.entry
      (start :: arrivals prior).getLast? = some entry.iterate ∧
      entry.iterations = (arrivals prior).length ∧
      (run.firstReport.toList ++ prior.filterMap Pass.report).getLast? =
        some (p.reportOn entry.iterations entry.iterate) ∧
      entry.store = Store.after (offers (sinceFailure start prior)) ∧
      entry.evals = 1 + (prior.flatMap fun pass => pass.search.trials).length ∧
      (pass.search.arrival? = none → entry.store.isEmpty = false →
        pass.report = none ∧ pass.admission = none ∧
          ∃ next rest, later = next :: rest ∧
            next.entry = { entry with
              evals := entry.evals + pass.search.evals
              store := entry.store.clear } ∧
            Store.create n p.settings.memory = .ok next.entry.store) := by
  intro run start prior pass later hpasses entry
  have hmem : pass ∈ run.passes := by simp [hpasses]
  obtain ⟨hfirst, htrail⟩ := run_of_mem hmem
  rw [show (p.run x0).passes = prior ++ pass :: later from hpasses] at htrail
  have hfollows : Follows p start prior entry :=
    htrail.known (fun _ _ _ => Follows.next) (follows_initial start)
  have hsplit := htrail.split
  obtain ⟨st, rfl⟩ : ∃ st, pass = p.pass st := ⟨entry, Option.some.inj hsplit.head_eq⟩
  refine ⟨hfollows.iterate, hfollows.iterations, ?_, hfollows.store, hfollows.evals, ?_⟩
  · rw [show run.firstReport = _ from hfirst]
    exact hfollows.report
  · intro hfailed hstore
    obtain ⟨next, rest, hlater, hnext⟩ := hsplit.retried hfailed hstore
    have hreport : (p.pass st).report = none := by rw [report_pass, hfailed, Option.map_none]
    have hmemory := (Settings.check_eq_ok_iff.mp hcheck).memory_pos
    refine ⟨hreport, admission_of_failed hfailed, next, rest, hlater, hnext, ?_⟩
    rw [hnext, Store.clear_eq_empty, Store.create, if_neg (Nat.ne_of_gt hmemory)]

/-- Of a run in which a search fails with a pair. -/
theorem passes_start_from_reports_of_quartic :
    let _ := DenseSolver.symmetric ℝ
    let _ : Spaced ℝ := ⟨fun _ a b => decide (a = b)⟩
    let p := shortProblem
    let run := p.run #v[2]
    p.settings.check = .ok () ∧
      ∃ (prior : List (Pass ℝ 1 p.settings.memory)) (pass : Pass ℝ 1 p.settings.memory)
        (later : List (Pass ℝ 1 p.settings.memory)), run.passes = prior ++ pass :: later ∧
        pass.entry.iterations = 1 ∧ (arrivals prior).length = 1 ∧
        pass.entry.store.isEmpty = false ∧ pass.search.arrival? = none ∧ pass.report = none ∧
          ∃ next rest, later = next :: rest ∧ next.entry.iterate = pass.entry.iterate ∧
            next.entry.iterations = 1 ∧
              Store.create 1 p.settings.memory = .ok next.entry.store := by
  intro solver spaced p run
  have hcheck : p.settings.check = .ok () := Settings.check_eq_ok_iff.mpr sound_shortProblem
  obtain ⟨-, -, -, -, pass, hpass, hiterations, hstore, hfailed, -⟩ := run_quartic
  obtain ⟨prior, later, hpasses⟩ := List.append_of_mem hpass
  obtain ⟨-, hcount, -, -, -, hretry⟩ :=
    passes_start_from_reports p #v[2] hcheck prior pass later hpasses
  obtain ⟨hreport, -, next, rest, hlater, hnext, hcreate⟩ := hretry hfailed hstore
  refine ⟨hcheck, prior, pass, later, hpasses, hiterations, hcount.symm.trans hiterations, hstore,
    hfailed, hreport, next, rest, hlater, ?_, ?_, hcreate⟩
  · rw [hnext]
  · rw [hnext]
    exact hiterations

end Problem

end BoxDescent
