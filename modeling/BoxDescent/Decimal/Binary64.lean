/-!
# Binary floating point values

A binary64 value taken apart: its sign, and its magnitude as a natural number times a
power of two.  Everything said about decimal digits is said of these exactly.
-/

namespace BoxDescent

inductive Binary64
  | nan
  | infinity (negative : Bool)
  /-- The value `± mantissa * 2 ^ exponent`. -/
  | finite (negative : Bool) (mantissa : Nat) (exponent : Int)
  deriving DecidableEq, Repr

namespace Binary64

/-- The least mantissa of a value that is not subnormal. -/
def hiddenBit : Nat := 4503599627370496

/-- The exponent of the least positive value. -/
def leastExponent : Int := -1074

def ofBits (bits : UInt64) : Binary64 :=
  let negative := bits >>> 63 == 1
  let field := ((bits >>> 52) &&& 0x7ff).toNat
  let fraction := (bits &&& 0xfffffffffffff).toNat
  if field = 0x7ff then
    if fraction = 0 then infinity negative else nan
  else if field = 0 then
    finite negative fraction leastExponent
  else
    finite negative (hiddenBit + fraction) (leastExponent + (field - 1))

def ofFloat (x : Float) : Binary64 := ofBits x.toBits

end Binary64

/-- The power of two with exponent `q` as a quotient of natural numbers. -/
def twoPower (q : Int) : Nat × Nat :=
  if 0 ≤ q then (Nat.pow 2 q.toNat, 1) else (1, Nat.pow 2 (-q).toNat)

/-- The exponent of the power of ten at or below the positive quotient `a / b`. -/
def decimalExponent (a b : Nat) : Int :=
  if b ≤ a then
    ((Nat.toDigits 10 (a / b)).length : Int) - 1
  else
    -((Nat.toDigits 10 ((b + a - 1) / a - 1)).length : Int)

end BoxDescent
