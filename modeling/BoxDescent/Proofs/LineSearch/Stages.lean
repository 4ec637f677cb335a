import Mathlib.Data.List.Chain
import BoxDescent.Proofs.LineSearch.Trials

/-!
# The stages of a search

What a search knows at the start of each trial: the phase it is in and the step it is about to
make.  A search begins with interpolation, in which every trial is finite; once it backtracks it
goes on doing so.
-/

namespace BoxDescent

variable {α : Type} [Scalar α] {n : Nat}

/-- What a search knows at the start of a trial. -/
structure Stage (α : Type) where
  phase : Phase α
  stp : α

variable [Spaced α] {line : Line α n} {p : SearchParams α}

namespace Search

/-- The stages of the trials that `probe` makes. -/
def stages (line : Line α n) (p : SearchParams α) (objective : Objective α n) :
    Nat → Nat → Phase α → α → List (Stage α)
  | 0, _, _, _ => []
  | left + 1, k, phase, stp =>
    ⟨phase, stp⟩ ::
      match Verdict.of line p phase (line.trial objective k stp) with
      | .accept _ => []
      | .next phase' stp' => stages line p objective left (k + 1) phase' stp'

/-- The stages of a search, one for each trial. -/
def stagesOf (line : Line α n) (p : SearchParams α) (objective : Objective α n) (calls : Nat)
    (stp : α) : List (Stage α) :=
  if line.slope < 0 then
    stages line p objective p.maxEvals (calls + 1) (.interpolating (Bracket.begin line stp))
      (Scalar.smaller stp line.stpmax)
  else
    []

variable {objective : Objective α n} {left k calls : Nat} {phase : Phase α} {stp : α}

/-! A trial that is accepted is the last one; after another one the search goes on. -/

theorem probe_of_accept {how : Acceptance}
    (h : Verdict.of line p phase (line.trial objective k stp) = .accept how) :
    probe line p objective (left + 1) k phase stp =
      ([line.trial objective k stp], some (line.trial objective k stp, how)) := by
  rw [probe, h]

theorem probe_of_next {phase' : Phase α} {stp' : α}
    (h : Verdict.of line p phase (line.trial objective k stp) = .next phase' stp') :
    probe line p objective (left + 1) k phase stp =
      (line.trial objective k stp :: (probe line p objective left (k + 1) phase' stp').1,
        (probe line p objective left (k + 1) phase' stp').2) := by
  rw [probe, h]

theorem stages_of_accept {how : Acceptance}
    (h : Verdict.of line p phase (line.trial objective k stp) = .accept how) :
    stages line p objective (left + 1) k phase stp = [⟨phase, stp⟩] := by
  rw [stages, h]

theorem stages_of_next {phase' : Phase α} {stp' : α}
    (h : Verdict.of line p phase (line.trial objective k stp) = .next phase' stp') :
    stages line p objective (left + 1) k phase stp =
      ⟨phase, stp⟩ :: stages line p objective left (k + 1) phase' stp' := by
  rw [stages, h]

theorem trials_stages : (probe line p objective left k phase stp).1 =
    (stages line p objective left k phase stp).mapIdx
      fun i st => line.trial objective (k + i) st.stp := by
  induction left generalizing k phase stp with
  | zero => rfl
  | succ left ih =>
    cases hverdict : Verdict.of line p phase (line.trial objective k stp) with
    | accept how =>
      rw [probe_of_accept hverdict, stages_of_accept hverdict]
      rfl
    | next phase' stp' =>
      have hshift : (fun i (st : Stage α) => line.trial objective (k + (i + 1)) st.stp) =
          fun i st => line.trial objective (k + 1 + i) st.stp := by
        funext i st
        rw [Nat.add_comm i 1, Nat.add_assoc]
      rw [probe_of_next hverdict, stages_of_next hverdict, List.mapIdx_cons, hshift, ← ih]
      rfl

theorem stagesOf_of_descent (h : line.slope < 0) :
    stagesOf line p objective calls stp =
      stages line p objective p.maxEvals (calls + 1) (.interpolating (Bracket.begin line stp))
        (Scalar.smaller stp line.stpmax) :=
  if_pos h

/-- Only a line that descends is searched. -/
theorem slope_of_mem_stagesOf {st : Stage α} (h : st ∈ stagesOf line p objective calls stp) :
    line.slope < 0 := by
  by_contra hrise
  rw [stagesOf, if_neg hrise] at h
  cases h

theorem trials_of : (Search.of line p objective calls stp).trials =
    (stagesOf line p objective calls stp).mapIdx
      fun i st => line.trial objective (calls + 1 + i) st.stp := by
  by_cases h : line.slope < 0
  · rw [of_descent h, stagesOf_of_descent h]
    exact trials_stages
  · rw [of_not_descent h, stagesOf, if_neg h]
    rfl

/-- What every trial hands on holds at each stage, and so does what it makes of neighbours. -/
theorem stages_invariant (Inv : Phase α → α → Prop) (R : Stage α → Stage α → Prop)
    (hnext : ∀ k phase stp phase' stp', Inv phase stp →
      Verdict.of line p phase (line.trial objective k stp) = .next phase' stp' →
        Inv phase' stp' ∧ R ⟨phase, stp⟩ ⟨phase', stp'⟩) (h : Inv phase stp) :
    (∀ st ∈ stages line p objective left k phase stp, Inv st.phase st.stp) ∧
      (stages line p objective left k phase stp).IsChain R := by
  induction left generalizing k phase stp with
  | zero => exact ⟨nofun, .nil⟩
  | succ left ih =>
    cases hverdict : Verdict.of line p phase (line.trial objective k stp) with
    | accept how =>
      rw [stages_of_accept hverdict]
      refine ⟨fun st hst => ?_, .singleton _⟩
      rw [List.mem_singleton.mp hst]
      exact h
    | next phase' stp' =>
      rw [stages_of_next hverdict]
      obtain ⟨hinv, hstep⟩ := hnext _ _ _ _ _ h hverdict
      obtain ⟨hall, hchain⟩ := ih (k := k + 1) hinv
      refine ⟨List.forall_mem_cons.mpr ⟨h, hall⟩, ?_⟩
      cases left with
      | zero => exact .singleton _
      | succ left => exact .cons_cons hstep hchain

/-- A search that accepts a trial ends with it, at the stage of its verdict. -/
theorem stages_of_accepted {t : Trial α n} {how : Acceptance}
    (h : (probe line p objective left k phase stp).2 = some (t, how)) :
    ∃ earlier phase', stages line p objective left k phase stp = earlier ++ [⟨phase', t.stp⟩] ∧
      (probe line p objective left k phase stp).1.getLast? = some t ∧
      Verdict.of line p phase' t = .accept how := by
  induction left generalizing k phase stp with
  | zero => cases h
  | succ left ih =>
    cases hverdict : Verdict.of line p phase (line.trial objective k stp) with
    | accept how' =>
      rw [probe_of_accept hverdict] at h ⊢
      rw [stages_of_accept hverdict]
      cases h
      exact ⟨[], phase, rfl, rfl, hverdict⟩
    | next phase' stp' =>
      rw [probe_of_next hverdict] at h ⊢
      rw [stages_of_next hverdict]
      obtain ⟨earlier, last, hstages, htrial, haccept⟩ := ih h
      refine ⟨⟨phase, stp⟩ :: earlier, last, ?_, ?_, haccept⟩
      · rw [hstages, List.cons_append]
      · dsimp only
        rw [List.getLast?_cons, htrial, Option.getD_some]

end Search

end BoxDescent
