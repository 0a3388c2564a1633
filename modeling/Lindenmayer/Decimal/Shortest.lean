import Lindenmayer.Decimal.Dyadic

/-!
# The fewest digits that read back

Many decimals read back to the same double: all those nearer to it than to its
neighbours. The text of a double uses one with as few digits as there are, and of those the
nearest. For each number of digits only two decimals need a look, the neighbours of the
exact value on the grid of that many digits: if any point of the grid lies in the interval
then so does one of these two. Seventeen digits always suffice.
-/

namespace Lindenmayer

structure Decimal where
  digits : Nat
  exponent : Int
  deriving DecidableEq, Repr

namespace Decimal

/-- The number of decimal digits of `n`, one for zero. -/
def digitCount (n : Nat) : Nat := (Nat.toDigits 10 n).length

/-- The same number with no zero at the end of its digits. -/
def normalize (d : Decimal) : Decimal :=
  let rec strip (fuel digits : Nat) (exponent : Int) : Decimal :=
    match fuel with
    | 0 => ⟨digits, exponent⟩
    | fuel + 1 =>
      if digits != 0 && digits % 10 == 0 then strip fuel (digits / 10) (exponent + 1)
      else ⟨digits, exponent⟩
  strip (digitCount d.digits) d.digits d.exponent

/-- How `a · 10 ^ i` compares with `n · 2 ^ j`. -/
def compareScaled (a : Nat) (i : Int) (n : Nat) (j : Int) : Ordering :=
  compare (a * pow10 i.toNat * pow2 (-j).toNat) (n * pow2 j.toNat * pow10 (-i).toNat)

/-- Whether `d` is nearer to `x` than to any other double, or as near and `x` is even. -/
def readsBack (x : Dyadic) (d : Decimal) : Bool :=
  let low := if x.narrowBelow then 4 * x.mantissa - 1 else 4 * x.mantissa - 2
  let high := 4 * x.mantissa + 2
  let even := x.mantissa % 2 == 0
  let below := compareScaled d.digits d.exponent low (x.exponent - 2)
  let above := compareScaled d.digits d.exponent high (x.exponent - 2)
  (below == .gt || (even && below == .eq)) && (above == .lt || (even && above == .eq))

/-- The least `k` with `x < 10 ^ k`, for a positive `x`. -/
def scale (x : Dyadic) : Int :=
  let num := x.mantissa * pow2 x.exponent.toNat
  let den := pow2 (-x.exponent).toNat
  if den ≤ num then digitCount (num / den)
  else 1 - (digitCount ((den + num - 1) / num - 1) : Int)

/-- The whole part of `x / 10 ^ e`. -/
def gridFloor (x : Dyadic) (e : Int) : Nat :=
  (x.mantissa * pow2 x.exponent.toNat * pow10 (-e).toNat) /
    (pow2 (-x.exponent).toNat * pow10 e.toNat)

/-- Of the two neighbours of `x` on the grid of `10 ^ e`, the one that reads back; if both
do the nearer, and the upper when they are equally near. -/
def onGrid (x : Dyadic) (e : Int) : Option Decimal :=
  let floor := gridFloor x e
  let lower : Decimal := ⟨floor, e⟩
  let upper : Decimal := ⟨floor + 1, e⟩
  match readsBack x lower, readsBack x upper with
  | true, true =>
    if compareScaled (2 * floor + 1) e (2 * x.mantissa) x.exponent == .gt then some lower
    else some upper
  | true, false => some lower
  | false, true => some upper
  | false, false => none

/-- The exact value of `x`, with as many digits as that takes. -/
def exact (x : Dyadic) : Decimal :=
  if 0 ≤ x.exponent then ⟨x.mantissa * pow2 x.exponent.toNat, 0⟩
  else ⟨x.mantissa * Nat.pow 5 (-x.exponent).toNat, x.exponent⟩

/-- The decimal of fewest digits that reads back to `x`. -/
def shortest (x : Dyadic) : Decimal :=
  if x.mantissa = 0 then ⟨0, 0⟩ else
    let top := scale x
    let found := (List.range 17).findSome? fun n => onGrid x (top - (n + 1 : Nat))
    normalize (found.getD (exact x))

end Decimal

end Lindenmayer
