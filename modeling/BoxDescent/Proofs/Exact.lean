import Mathlib
import BoxDescent.Scalar

/-!
# Exact arithmetic

The real numbers as scalars.  Every real number is finite and none stands for "no
number", so `larger` and `smaller` are the maximum and the minimum.  In place of "no
number" there is zero, which is also what a line search makes of a step without a value.
The operations of `Scalar` are those of the real numbers by definition; the instances
that lead through `Scalar` come last, so that statements about real numbers are written
with the usual ones.
-/

namespace BoxDescent

attribute [instance (50)] Scalar.toZero Scalar.toOne Scalar.toAdd Scalar.toSub Scalar.toMul
  Scalar.toDiv Scalar.toNeg Scalar.toLE Scalar.toLT Scalar.toBEq Scalar.toOfScientific

-- A literal of `ℝ` asks for a numeral that is at least two: one name for each that occurs.
instance atLeastTwo_two : Nat.AtLeastTwo 2 := ⟨by decide⟩

instance atLeastTwo_three : Nat.AtLeastTwo 3 := ⟨by decide⟩

instance atLeastTwo_four : Nat.AtLeastTwo 4 := ⟨by decide⟩

instance atLeastTwo_eight : Nat.AtLeastTwo 8 := ⟨by decide⟩

noncomputable instance : Scalar ℝ where
  decidableLE := inferInstance
  decidableLT := inferInstance
  beq a b := decide (a = b)
  sqrt := Real.sqrt
  abs a := |a|
  isFinite _ := true
  nan := 0

namespace Scalar

@[simp] theorem isFinite_real (a : ℝ) : Scalar.isFinite a = true := rfl

theorem beq_real (a b : ℝ) : @BEq.beq ℝ Scalar.toBEq a b = decide (a = b) := rfl

theorem larger_real (a b : ℝ) : larger a b = max a b := by
  unfold larger
  split
  · rename_i h
    exact (max_eq_right (le_of_lt h)).symm
  · rename_i h
    rw [beq_real, decide_eq_true rfl, if_pos rfl]
    exact (max_eq_left (not_lt.mp h)).symm

theorem smaller_real (a b : ℝ) : smaller a b = min a b := by
  unfold smaller
  split
  · rename_i h
    exact (min_eq_right (le_of_lt h)).symm
  · rename_i h
    rw [beq_real, decide_eq_true rfl, if_pos rfl]
    exact (min_eq_left (not_lt.mp h)).symm

theorem epsilon_pos : (0 : ℝ) < epsilon := by
  unfold epsilon
  norm_num

end Scalar

end BoxDescent
