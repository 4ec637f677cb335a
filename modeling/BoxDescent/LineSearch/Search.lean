import BoxDescent.LineSearch.Verdict

/-!
# Line searches

A search makes one trial after another until one is accepted or the number of trials
allowed is spent.  It records every trial.
-/

namespace BoxDescent

/-- What a search ends with. -/
inductive SearchOutcome (α : Type) (n : Nat)
  | accepted (trial : Trial α n) (how : Acceptance)
  /-- The slope at the start is not negative. -/
  | notDescent (slope : α)
  /-- No trial was accepted.  The one with the lowest finite value below the start is
  kept, if any. -/
  | stalled (best : Option (Trial α n))
  /-- No trial was finite. -/
  | nonFinite

/-- A search: its trials in order and its outcome. -/
structure Search (α : Type) (n : Nat) where
  trials : List (Trial α n)
  outcome : SearchOutcome α n

variable {α : Type} [Scalar α] {n : Nat}

namespace Search

/-- The first of the finite trials with the lowest value below `f0`. -/
def bestOf (f0 : α) (trials : List (Trial α n)) : Option (Trial α n) :=
  trials.foldl
    (fun best t =>
      if t.eval.isFinite && decide (t.eval.f < f0)
          && best.all (fun b => decide (t.eval.f < b.eval.f))
      then some t else best)
    none

variable [Spaced α]

/-- Makes at most the given number of trials, the first with step `stp` and as call
number `k`.  Returns the trials and the last one again if it was accepted. -/
def probe (line : Line α n) (p : SearchParams α) (objective : Objective α n) :
    Nat → Nat → Phase α → α → List (Trial α n) × Option (Trial α n × Acceptance)
  | 0, _, _, _ => ([], none)
  | left + 1, k, phase, stp =>
    let t := line.trial objective k stp
    match Verdict.of line p phase t with
    | .accept how => ([t], some (t, how))
    | .next phase' stp' =>
      let later := probe line p objective left (k + 1) phase' stp'
      (t :: later.1, later.2)

/-- Searches a line, beginning with the step `stp`; `calls` calls have been made
before. -/
def of (line : Line α n) (p : SearchParams α) (objective : Objective α n) (calls : Nat)
    (stp : α) : Search α n :=
  if line.slope < 0 then
    let phase := Phase.interpolating (Bracket.begin line stp)
    let probed :=
      probe line p objective p.maxEvals (calls + 1) phase (Scalar.smaller stp line.stpmax)
    { trials := probed.1
      outcome :=
        match probed.2 with
        | some (t, how) => .accepted t how
        | none =>
          if probed.1.any fun t => t.eval.isFinite then .stalled (bestOf line.f0 probed.1)
          else .nonFinite }
  else
    { trials := [], outcome := .notDescent line.slope }

def evals (s : Search α n) : Nat := s.trials.length

end Search

end BoxDescent
