import BoxDescent.Proofs.Ordered

/-!
# Exact arithmetic with infinities

The real numbers with two infinities and a value that is no number.  Finite values are added,
multiplied, divided and compared as real numbers, without rounding.  A quotient by zero is
infinite, with the sign of its numerator; an operation without a limit value gives the value
that is no number, which compares with nothing.
-/

namespace BoxDescent

inductive Extended
  | finite (r : ℝ)
  | top
  | bottom
  | undefined

namespace Extended

/-! ### Operations -/

/-- The infinity with the sign of a real number. -/
noncomputable def directed (r : ℝ) : Extended :=
  if 0 < r then top else if r < 0 then bottom else undefined

def neg : Extended → Extended
  | finite a => finite (-a)
  | top => bottom
  | bottom => top
  | undefined => undefined

def add : Extended → Extended → Extended
  | finite a, finite b => finite (a + b)
  | finite _, top => top
  | finite _, bottom => bottom
  | top, finite _ => top
  | top, top => top
  | bottom, finite _ => bottom
  | bottom, bottom => bottom
  | _, _ => undefined

noncomputable def mul : Extended → Extended → Extended
  | finite a, finite b => finite (a * b)
  | finite a, top => directed a
  | finite a, bottom => directed (-a)
  | top, finite b => directed b
  | top, top => top
  | top, bottom => bottom
  | bottom, finite b => directed (-b)
  | bottom, top => bottom
  | bottom, bottom => top
  | _, _ => undefined

noncomputable def div : Extended → Extended → Extended
  | finite a, finite b => if b = 0 then directed a else finite (a / b)
  | finite _, top => finite 0
  | finite _, bottom => finite 0
  | top, finite b => if b < 0 then bottom else top
  | bottom, finite b => if b < 0 then top else bottom
  | _, _ => undefined

noncomputable def sqrt : Extended → Extended
  | finite a => if a < 0 then undefined else finite (Real.sqrt a)
  | top => top
  | _ => undefined

def abs : Extended → Extended
  | finite a => finite |a|
  | undefined => undefined
  | _ => top

def Less : Extended → Extended → Prop
  | finite a, finite b => a < b
  | finite _, top => True
  | bottom, finite _ => True
  | bottom, top => True
  | _, _ => False

def LessEq : Extended → Extended → Prop
  | finite a, finite b => a ≤ b
  | finite _, top => True
  | bottom, finite _ => True
  | bottom, top => True
  | top, top => True
  | bottom, bottom => True
  | _, _ => False

/-- Equality of numbers. -/
def Same : Extended → Extended → Prop
  | finite a, finite b => a = b
  | top, top => True
  | bottom, bottom => True
  | _, _ => False

noncomputable instance : DecidableRel Less := fun _ _ => Classical.propDecidable _

noncomputable instance : DecidableRel LessEq := fun _ _ => Classical.propDecidable _

noncomputable instance : DecidableRel Same := fun _ _ => Classical.propDecidable _

noncomputable instance : Scalar Extended where
  zero := finite 0
  one := finite 1
  add := add
  sub a b := add a (neg b)
  mul := mul
  div := div
  neg := neg
  le := LessEq
  lt := Less
  beq a b := decide (Same a b)
  ofScientific m s e := finite (OfScientific.ofScientific m s e)
  decidableLE := inferInstanceAs (DecidableRel LessEq)
  decidableLT := inferInstanceAs (DecidableRel Less)
  sqrt := sqrt
  abs := abs
  isFinite a := match a with
    | finite _ => true
    | _ => false
  nan := undefined

/-! ### Laws of the order -/

theorem beq_iff {a b : Extended} : (a == b) = true ↔ Same a b := decide_eq_true_iff

theorem le_of_not_less {a b : Extended} (ha : Same a a) (hb : Same b b) (h : ¬Less a b) :
    LessEq b a := by
  cases a with
  | finite r =>
    cases b with
    | finite q => exact not_lt.mp h
    | top => exact h True.intro
    | bottom => exact True.intro
    | undefined => exact hb
  | top =>
    cases b with
    | undefined => exact hb
    | _ => exact True.intro
  | bottom =>
    cases b with
    | bottom => exact True.intro
    | undefined => exact hb
    | _ => exact h True.intro
  | undefined => exact ha.elim

instance : OrderedScalar Extended where
  beq_of_isFinite := by
    rintro (r | _ | _ | _) h
    · exact beq_iff.mpr rfl
    all_goals cases h
  lt_irrefl := by
    rintro (r | _ | _ | _) h
    · exact lt_irrefl r h
    all_goals exact h
  le_of_not_lt ha hb h := le_of_not_less (beq_iff.mp ha) (beq_iff.mp hb) h

theorem less_of_less_of_le {a b c : Extended} (hab : Less a b) (hbc : LessEq b c) : Less a c := by
  cases a with
  | finite r =>
    cases b with
    | finite q =>
      cases c with
      | finite p => exact lt_of_lt_of_le hab hbc
      | top => exact True.intro
      | _ => exact hbc.elim
    | top =>
      cases c with
      | top => exact True.intro
      | _ => exact hbc.elim
    | _ => exact hab.elim
  | bottom =>
    cases b with
    | finite q =>
      cases c with
      | finite p => exact True.intro
      | top => exact True.intro
      | _ => exact hbc.elim
    | top =>
      cases c with
      | top => exact True.intro
      | _ => exact hbc.elim
    | _ => exact hab.elim
  | _ => exact hab.elim

theorem le_of_less {a b : Extended} (h : Less a b) : LessEq a b := by
  cases a with
  | finite r =>
    cases b with
    | finite q => exact le_of_lt h
    | _ => exact h
  | bottom =>
    cases b with
    | undefined => exact h
    | _ => exact True.intro
  | _ => exact h.elim

instance : IsStrictOrder Extended (· < ·) where
  irrefl := OrderedScalar.lt_irrefl
  trans _ _ _ hab hbc := less_of_less_of_le hab (le_of_less hbc)

/-- What is less than a number is less than every number that the latter is not above. -/
theorem less_of_not_less {a b c : Extended} (hab : Less a b) (hc : Same c c) (h : ¬Less c b) :
    Less a c := by
  have hb : Same b b := by
    cases b with
    | finite q => rfl
    | undefined => cases a <;> exact hab
    | _ => exact True.intro
  exact less_of_less_of_le hab (le_of_not_less hc hb h)

/-! ### Signs -/

variable {a b f s t : Extended}

theorem directed_of_neg {r : ℝ} (h : r < 0) : directed r = bottom := by
  rw [directed, if_neg (lt_asymm h), if_pos h]

theorem directed_of_pos {r : ℝ} (h : 0 < r) : directed r = top := if_pos h

theorem mul_less_zero (ha : 0 < a) (hb : b < 0) : a * b < 0 := by
  cases a with
  | finite r =>
    cases b with
    | finite q =>
      have hr : 0 < r := ha
      have hq : q < 0 := hb
      exact mul_neg_of_pos_of_neg hr hq
    | bottom =>
      change Less (directed (-r)) (finite 0)
      rw [directed_of_neg (neg_neg_of_pos ha)]
      exact True.intro
    | _ => exact hb.elim
  | top =>
    cases b with
    | finite q =>
      change Less (directed q) (finite 0)
      rw [directed_of_neg hb]
      exact True.intro
    | bottom => exact True.intro
    | _ => exact hb.elim
  | _ => exact ha.elim

/-- The product of a step that is not negative with a negative slope is not positive. -/
theorem not_pos_mul (hs : ¬s < 0) (ht : t < 0) : ¬0 < s * t := by
  cases s with
  | finite r =>
    have hr : 0 ≤ r := not_lt.mp hs
    cases t with
    | finite q =>
      exact not_lt.mpr (mul_nonpos_of_nonneg_of_nonpos hr (le_of_lt ht))
    | bottom =>
      change ¬Less (finite 0) (directed (-r))
      unfold directed
      rw [if_neg (not_lt.mpr (neg_nonpos.mpr hr))]
      split <;> exact id
    | _ => exact ht.elim
  | top =>
    cases t with
    | finite q =>
      change ¬Less (finite 0) (directed q)
      rw [directed_of_neg ht]
      exact id
    | bottom => exact id
    | _ => exact ht.elim
  | bottom => exact absurd True.intro hs
  | undefined => exact id

theorem le_of_le_add (h : f ≤ a + b) (hb : ¬0 < b) : f ≤ a := by
  cases a with
  | finite r =>
    cases b with
    | finite q =>
      have hq : ¬(0 : ℝ) < q := hb
      cases f with
      | finite p => exact le_trans h (add_le_of_nonpos_right (not_lt.mp hq))
      | bottom => exact True.intro
      | _ => exact h.elim
    | top => exact absurd True.intro hb
    | bottom =>
      cases f with
      | bottom => exact True.intro
      | _ => exact h.elim
    | undefined => cases f <;> exact h.elim
  | top =>
    cases b with
    | top => exact absurd True.intro hb
    | finite q => exact h
    | _ => cases f <;> exact h.elim
  | bottom =>
    cases b with
    | top => exact absurd True.intro hb
    | finite q => exact h
    | bottom => exact h
    | undefined => cases f <;> exact h.elim
  | undefined => cases b <;> cases f <;> exact h.elim

/-- A value with sufficient decrease is not above the start. -/
theorem le_of_decrease {f0 slope : Extended} (hs : ¬s < 0) (ha : 0 < a) (hslope : slope < 0)
    (h : f ≤ f0 + s * (a * slope)) : f ≤ f0 :=
  le_of_le_add h (not_pos_mul hs (mul_less_zero ha hslope))

theorem one_not_neg : ¬(1 : Extended) < 0 := by
  have hone : (0 : ℝ) ≤ 1 := zero_le_one
  exact not_lt.mpr hone

/-- The limit of steps in a problem without bounds is not negative. -/
theorem bigStep_not_neg : ¬(1e10 : Extended) < 0 := by
  have hpos : (0 : ℝ) ≤ 1e10 := by norm_num
  exact not_lt.mpr hpos

theorem larger_one_not_neg (a : Extended) : ¬Scalar.larger a 1 < 0 := by
  unfold Scalar.larger
  split
  · exact one_not_neg
  · rename_i hone
    split
    · cases a with
      | finite r =>
        have hr : (1 : ℝ) ≤ r := not_lt.mp hone
        exact not_lt.mpr (le_trans zero_le_one hr)
      | bottom => exact absurd True.intro hone
      | _ => exact id
    · exact one_not_neg

theorem one_div_sqrt_not_neg (a : Extended) : ¬1 / Scalar.sqrt a < 0 := by
  cases a with
  | finite r =>
    change ¬Less (div (finite 1) (if r < 0 then undefined else finite (Real.sqrt r))) (finite 0)
    split
    · exact id
    · change ¬Less (if Real.sqrt r = 0 then directed 1 else finite (1 / Real.sqrt r)) (finite 0)
      split
      · rw [directed_of_pos one_pos]
        exact id
      · exact not_lt.mpr (div_nonneg zero_le_one (Real.sqrt_nonneg r))
  | top => exact lt_irrefl (0 : ℝ)
  | _ => exact id

/-! ### Finite values -/

section

variable {a b : ℝ}

theorem finite_add (a b : ℝ) : finite a + finite b = finite (a + b) := rfl

theorem finite_sub (a b : ℝ) : finite a - finite b = finite (a - b) := rfl

theorem finite_mul (a b : ℝ) : finite a * finite b = finite (a * b) := rfl

theorem finite_neg (a : ℝ) : -finite a = finite (-a) := rfl

theorem finite_abs (a : ℝ) : Scalar.abs (finite a) = finite |a| := rfl

theorem finite_literal (m : Nat) (s : Bool) (e : Nat) :
    (OfScientific.ofScientific m s e : Extended) = finite (OfScientific.ofScientific m s e) := rfl

theorem finite_div (h : b ≠ 0) : finite a / finite b = finite (a / b) := if_neg h

theorem finite_sqrt (h : 0 ≤ a) : Scalar.sqrt (finite a) = finite (Real.sqrt a) :=
  if_neg (not_lt.mpr h)

theorem finite_lt : finite a < finite b ↔ a < b := Iff.rfl

theorem finite_lt_zero : finite a < 0 ↔ a < 0 := Iff.rfl

theorem finite_beq_zero (a : ℝ) : (finite a == 0) = decide (a = 0) :=
  decide_eq_decide.mpr Iff.rfl

theorem sqrt_of_neg (h : a < 0) : Scalar.sqrt (finite a) = undefined := if_pos h

/-! An operation on what is no number gives no number. -/

theorem undefined_left (x : Extended) :
    undefined + x = undefined ∧ undefined - x = undefined ∧ undefined * x = undefined ∧
      undefined / x = undefined := by
  cases x <;> exact ⟨rfl, rfl, rfl, rfl⟩

theorem undefined_right (x : Extended) :
    x + undefined = undefined ∧ x * undefined = undefined := by
  cases x <;> exact ⟨rfl, rfl⟩

theorem neg_undefined : -undefined = undefined := rfl

theorem finite_ite {c c' : Prop} [Decidable c] [Decidable c'] (h : c ↔ c') :
    (if c then finite a else finite b) = finite (if c' then a else b) := by
  by_cases hc : c'
  · rw [if_pos hc, if_pos (h.mpr hc)]
  · rw [if_neg hc, if_neg fun hcase => hc (h.mp hcase)]

theorem finite_larger (a b : ℝ) : Scalar.larger (finite a) (finite b) = finite (max a b) := by
  rw [← Scalar.larger_real, Scalar.larger, Scalar.larger]
  have hsame : (finite a == finite a) = true := beq_iff.mpr rfl
  rw [hsame, Scalar.beq_real, decide_eq_true rfl, if_pos rfl, if_pos rfl]
  exact finite_ite finite_lt

theorem finite_smaller (a b : ℝ) : Scalar.smaller (finite a) (finite b) = finite (min a b) := by
  rw [← Scalar.smaller_real, Scalar.smaller, Scalar.smaller]
  have hsame : (finite a == finite a) = true := beq_iff.mpr rfl
  rw [hsame, Scalar.beq_real, decide_eq_true rfl, if_pos rfl, if_pos rfl]
  exact finite_ite finite_lt

end

end Extended

end BoxDescent
