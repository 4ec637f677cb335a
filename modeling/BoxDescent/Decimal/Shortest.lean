import BoxDescent.Decimal.Binary64

/-!
# Shortest decimals

The shortest decimal that reads back as a given binary64 value, and of those the one
nearest to it; the higher one if two are equally near.  `Binary64.text` writes it
without an exponent.
-/

namespace BoxDescent

/-- The number `digits * 10 ^ exponent`. -/
structure Decimal where
  digits : Nat
  exponent : Int
  deriving DecidableEq, Repr

/-- The numbers that round to a positive value: those between `low` and `high`, in units
of `num / den`, ends included where `closed`. -/
structure Rounding where
  value : Nat
  low : Nat
  high : Nat
  closed : Bool
  num : Nat
  den : Nat

namespace Rounding

/-- The numbers that round to `mantissa * 2 ^ exponent`, in quarters of its last place.
Below a power of two the next value is half as far away as above it. -/
def of (mantissa : Nat) (exponent : Int) : Rounding :=
  let edge := mantissa == Binary64.hiddenBit && decide (Binary64.leastExponent < exponent)
  let unit := twoPower (exponent - 2)
  { value := 4 * mantissa
    low := if edge then 4 * mantissa - 1 else 4 * mantissa - 2
    high := 4 * mantissa + 2
    closed := mantissa % 2 == 0
    num := unit.1
    den := unit.2 }

/-- Whether `j / factor` quarters of the last place round to the value. -/
def holds (r : Rounding) (factor j : Nat) : Bool :=
  if r.closed then decide (r.low * factor ≤ j) && decide (j ≤ r.high * factor)
  else decide (r.low * factor < j) && decide (j < r.high * factor)

/-- The multiple of `10 ^ k` nearest to the value, if it rounds to the value.  Only the
two neighbours of the value on that grid can be. -/
def onGrid? (r : Rounding) (k : Int) : Option Nat :=
  let factor := r.num * Nat.pow 10 (-k).toNat
  let step := r.den * Nat.pow 10 k.toNat
  let below := r.value * factor / step
  let above := below + 1
  match r.holds factor (below * step), r.holds factor (above * step) with
  | true, true =>
    some (if 2 * (r.value * factor) < (below + above) * step then below else above)
  | true, false => some below
  | false, true => some above
  | false, false => none

/-- The shortest decimal that rounds to the value: the first among the grids of 1, 2, up
to 17 digits that has one. -/
def shortest (r : Rounding) : Decimal :=
  let top := decimalExponent (r.value * r.num) r.den
  ((List.range 17).findSome? fun (more : Nat) =>
      let k := top - more
      (r.onGrid? k).map fun j => { digits := j, exponent := k }).getD
    { digits := 0, exponent := 0 }

end Rounding

namespace Decimal

/-- The number without an exponent: all its digits, a point only if there are places
behind it, and no zeros at the end of these. -/
def text (d : Decimal) : String :=
  let all := Nat.toDigits 10 d.digits
  let kept := (all.reverse.dropWhile (· == '0')).reverse
  let exponent := d.exponent + ((all.length - kept.length : Nat) : Int)
  if 0 ≤ exponent then
    String.ofList (kept ++ List.replicate exponent.toNat '0')
  else
    let places := (-exponent).toNat
    if places < kept.length then
      let whole := kept.length - places
      String.ofList (kept.take whole ++ '.' :: kept.drop whole)
    else
      String.ofList ('0' :: '.' :: (List.replicate (places - kept.length) '0' ++ kept))

end Decimal

namespace Binary64

def text : Binary64 → String
  | nan => "NaN"
  | infinity negative => if negative then "-inf" else "inf"
  | finite negative mantissa exponent =>
    let magnitude :=
      if mantissa = 0 then "0" else (Rounding.of mantissa exponent).shortest.text
    if negative then "-" ++ magnitude else magnitude

end Binary64

end BoxDescent
