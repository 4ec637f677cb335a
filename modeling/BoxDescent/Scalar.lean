/-!
# Scalars

The arithmetic that every algorithm of this library is written over.  `Scalar α`
lists the operations and comparisons a number type must offer; the algorithms
never look further, so one definition runs in binary floating point and can be
read in any other arithmetic.  What is exact here is the treatment of values that
are not numbers: `larger` and `smaller` return the other operand then, and the
first operand when the two are equal.
-/

namespace BoxDescent

/-- A number type: field operations, order, decimal literals, square root,
absolute value, and values that may fail to be finite. -/
class Scalar (α : Type) extends Zero α, One α, Add α, Sub α, Mul α, Div α, Neg α,
    LE α, LT α, BEq α, OfScientific α where
  /-- The order `≤` is decided by the program. -/
  decidableLE : DecidableLE α
  /-- The order `<` is decided by the program. -/
  decidableLT : DecidableLT α
  sqrt : α → α
  abs : α → α
  /-- Neither infinite nor the result of an undefined operation. -/
  isFinite : α → Bool
  /-- A value that stands for "no number". -/
  nan : α

/-- A number type with a grid of representable values: `near k a b` says that at
most `k` steps of the grid lie between `a` and `b`. -/
class Spaced (α : Type) where
  /-- At most the given number of steps lie between two values. -/
  near : Int → α → α → Bool

namespace Scalar

variable {α : Type} [Scalar α]

instance : DecidableLE α := Scalar.decidableLE
instance : DecidableLT α := Scalar.decidableLT

/-- The gap between 1 and the next binary64 value, `2 ^ (-52)`. -/
def epsilon : α := 1 / 4503599627370496.0

/-- The larger of two values; the other one where one is not a number. -/
def larger (a b : α) : α := if a < b then b else if a == a then a else b

/-- The smaller of two values; the other one where one is not a number. -/
def smaller (a b : α) : α := if b < a then b else if a == a then a else b

end Scalar

/-! ### Binary floating point -/

instance : Scalar Float where
  decidableLE := fun a b => inferInstanceAs (Decidable (a ≤ b))
  decidableLT := fun a b => inferInstanceAs (Decidable (a < b))
  sqrt := Float.sqrt
  abs := Float.abs
  isFinite := Float.isFinite
  nan := 0.0 / 0.0

-- Values of one sign are ordered as their bit patterns, so the difference of the
-- patterns counts grid steps.
instance : Spaced Float where
  near steps a b :=
    if a == b then true
    else if (a.toBits >>> 63) != (b.toBits >>> 63) then false
    else
      let gap : Int := (a.toBits.toNat : Int) - (b.toBits.toNat : Int)
      decide (-steps ≤ gap ∧ gap ≤ steps)

end BoxDescent
