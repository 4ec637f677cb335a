import BoxDescent.Proofs.LineSearch.Finite

/-!
# Finite data

Lines, tolerances and objectives with finite values, among values that may be infinite or no
number.  Where an answer is finite, so is the point of the search line that it gives.
-/

namespace BoxDescent

open Extended

variable {n : Nat}

/-! ### Values -/

namespace Extended

/-- The value of what is finite. -/
noncomputable def toReal : Extended → ℝ
  | finite r => r
  | _ => 0

theorem exists_finite {a : Extended} (h : Scalar.isFinite a = true) : ∃ r, a = finite r := by
  cases a with
  | finite r => exact ⟨r, rfl⟩
  | _ => cases h

theorem exists_map_finite {v : Vector Extended n} (h : ∀ i : Fin n, Scalar.isFinite v[i] = true) :
    ∃ w : Vector ℝ n, v = w.map .finite := by
  choose w hw using fun i => exists_finite (h i)
  refine ⟨Vector.ofFn w, Vector.ext fun i hi => ?_⟩
  rw [Vector.getElem_map, Vector.getElem_ofFn]
  exact hw ⟨i, hi⟩

theorem finite_foldl (f : Fin n → ℝ) (a : ℝ) :
    Fin.foldl n (fun acc i => acc + finite (f i)) (finite a) =
      finite (Fin.foldl n (fun acc i => acc + f i) a) := by
  induction n with
  | zero => rfl
  | succ n ih =>
    rw [Fin.foldl_succ_last, Fin.foldl_succ_last, ih, finite_add]

theorem finite_dot (u v : Vector ℝ n) : dot (u.map .finite) (v.map .finite) = finite (dot u v) := by
  have hproduct : (fun i : Fin n => (u.map .finite)[i] * (v.map .finite)[i]) =
      fun i => finite (u[i] * v[i]) := by
    funext i
    simp only [getElem_eq_val, Vector.getElem_map, finite_mul]
  show sum (fun i : Fin n => (u.map finite)[i] * (v.map finite)[i]) = _
  rw [hproduct]
  exact finite_foldl _ 0

end Extended

/-! ### Lines -/

/-- The bound with its limits among the values that may be infinite. -/
def Bound.toExtended : Bound ℝ → Bound Extended
  | .unbounded => .unbounded
  | .atLeast l => .atLeast (.finite l)
  | .between l u => .between (.finite l) (.finite u)
  | .atMost u => .atMost (.finite u)

theorem Bound.valid_toExtended {b : Bound ℝ} (h : b.Valid) : b.toExtended.Valid := by
  obtain ⟨-, -, hcrossed⟩ := h
  have hlower : ∀ l ∈ b.toExtended.lower?, Scalar.isFinite l = true := by
    cases b <;> rintro _ ⟨⟩ <;> rfl
  have hupper : ∀ u ∈ b.toExtended.upper?, Scalar.isFinite u = true := by
    cases b <;> rintro _ ⟨⟩ <;> rfl
  refine ⟨hlower, hupper, ?_⟩
  cases b with
  | between l u =>
    have hle : l ≤ u := by
      by_contra hgt
      cases (if_neg hgt).symm.trans hcrossed
    exact if_pos (show finite l ≤ finite u from hle)
  | _ => rfl

theorem Bound.clamp_toExtended (b : Bound ℝ) (r : ℝ) :
    b.toExtended.clamp (.finite r) = .finite (b.clamp r) := by
  cases b with
  | unbounded => rfl
  | atLeast l =>
    rw [clamp, Scalar.larger_real]
    exact finite_larger r l
  | between l u =>
    rw [clamp, Scalar.larger_real, Scalar.smaller_real, ← finite_smaller, ← finite_larger]
    rfl
  | atMost u =>
    rw [clamp, Scalar.smaller_real]
    exact finite_smaller r u

noncomputable def Box.toExtended (box : Box ℝ n) : Box Extended n :=
  .ofFn (fun i => (box.kind i).toExtended) fun i => Bound.valid_toExtended (box.kind_valid i)

noncomputable def Line.toExtended (line : Line ℝ n) : Line Extended n where
  box := line.box.toExtended
  x := line.x.map .finite
  d := line.d.map .finite
  f0 := .finite line.f0
  slope := .finite line.slope
  stpmax := .finite line.stpmax

def SearchParams.toExtended (p : SearchParams ℝ) : SearchParams Extended where
  ulps := p.ulps
  maxEvals := p.maxEvals
  ftol := .finite p.ftol
  gtol := .finite p.gtol
  xtol := .finite p.xtol

/-- The objective with the same finite answers at finite points. -/
noncomputable def Objective.toExtended (objective : Objective ℝ n) : Objective Extended n :=
  fun k x =>
    let answer := objective k (x.map toReal)
    (.finite answer.1, answer.2.map .finite)

/-! ### Trials -/

section

variable {line : Line ℝ n} {objective : Objective ℝ n} {k : Nat}

/-- A finite trial lies at finite values. -/
theorem Line.exists_endpoint (line : Line ℝ n) {t : Trial Extended n} {s : ℝ}
    (hstp : t.stp = .finite s) (hfinite : t.eval.isFinite = true) :
    ∃ here : Endpoint ℝ, line.toExtended.endpoint t = here.toExtended ∧ here.stp = s := by
  obtain ⟨hf, hg⟩ := Evaluation.finite_of_isFinite hfinite
  obtain ⟨f, hf⟩ := exists_finite hf
  obtain ⟨g, hg⟩ := exists_map_finite hg
  have hdg : dot (g.map .finite) line.toExtended.d = finite (dot g line.d) := finite_dot g line.d
  refine ⟨{ stp := s, f := f, dg := dot g line.d }, ?_, rfl⟩
  rw [endpoint, hstp, hf, hg, hdg]

theorem Objective.eval_toExtended {x : Vector ℝ n} (hsize : (objective k x).2.size = n) :
    let e := objective.toExtended.eval k (x.map .finite)
    e.f = .finite (objective.eval k x).f ∧ e.g = (objective.eval k x).g.map .finite ∧
      e.isFinite = true := by
  have hx : (x.map Extended.finite).map toReal = x := by
    rw [Vector.map_map]
    exact Vector.map_id x
  have hanswer : objective.toExtended k (x.map .finite) =
      (.finite (objective k x).1, (objective k x).2.map .finite) := by
    rw [toExtended, hx]
  have hsize' : ((objective k x).2.map Extended.finite).size = n := by rw [Array.size_map, hsize]
  rw [eval, eval, hanswer, Evaluation.ofAnswer, Evaluation.ofAnswer, dif_pos hsize, dif_pos hsize']
  have hg : allFinite (Vector.map finite ⟨(objective k x).2, hsize⟩) = true := by
    rw [allFinite, Vector.all_map]
    exact Vector.all_eq_true.mpr fun _ _ => rfl
  exact ⟨rfl, rfl, hg⟩

theorem Line.point_toExtended (s : ℝ) :
    line.toExtended.point (.finite s) = (line.point s).map .finite := by
  refine Vector.ext fun i hi => ?_
  rw [Vector.getElem_map, Line.point, Line.point, Box.project, Box.project, Vector.getElem_ofFn,
    Vector.getElem_ofFn, ← Bound.clamp_toExtended]
  simp only [toExtended, Box.toExtended, Box.kind_ofFn, getElem_eq_val, Vector.getElem_ofFn,
    Vector.getElem_map]
  rfl

theorem Line.endpoint_toExtended (line : Line ℝ n) {s : ℝ}
    (hsize : (objective k (line.point s)).2.size = n) :
    let t := line.toExtended.trial objective.toExtended k (.finite s)
    line.toExtended.endpoint t = (line.endpoint (line.trial objective k s)).toExtended ∧
      t.eval.isFinite = true := by
  intro t
  obtain ⟨hf, hg, hfinite⟩ := Objective.eval_toExtended hsize
  have heval : t.eval = objective.toExtended.eval k ((line.point s).map .finite) :=
    congrArg (objective.toExtended.eval k) (point_toExtended s)
  have hdg : dot t.eval.g line.toExtended.d =
      finite (dot (objective.eval k (line.point s)).g line.d) := by
    rw [heval, hg]
    exact finite_dot _ _
  refine ⟨?_, heval ▸ hfinite⟩
  rw [endpoint, hdg, heval, hf]
  rfl

end

end BoxDescent
