import Lindenmayer.Decimal.Shortest

/-!
# Writing numbers

The digits of a number are settled by `Decimal.shortest`; a `Notation` settles the rest:
between which powers of ten the digits are written out in place, and whether a whole
number shows that it is not an integer by a point.
-/

namespace Lindenmayer

structure FloatStyle where
  /-- Whether a number from `10 ^ n` up to `10 ^ (n + 1)` is written with its digits in
  place, and not with an exponent. -/
  positional : Int → Bool
  /-- Whether a whole number written in place ends in `.0`. -/
  pointed : Bool

namespace FloatStyle

/-- Digits in place from `1e-4` up to `1e16`, always with a point or an exponent, so that the
text is never that of an integer. -/
def canonical : FloatStyle := ⟨fun n => -4 ≤ n && n < 16, true⟩

/-- Digits in place whatever the size, and no point in a whole number. -/
def plain : FloatStyle := ⟨fun _ => true, false⟩

/-- A non-negative decimal with its digits in place. -/
def inPlace (pointed : Bool) (d : Decimal) : List Char :=
  let digits := Nat.toDigits 10 d.digits
  let point : Int := digits.length + d.exponent
  if point ≤ 0 then '0' :: '.' :: (List.replicate (-point).toNat '0' ++ digits)
  else if 0 ≤ d.exponent then
    digits ++ List.replicate d.exponent.toNat '0' ++ (if pointed then ['.', '0'] else [])
  else digits.take point.toNat ++ '.' :: digits.drop point.toNat

/-- A non-negative decimal with one digit before the point and an exponent. -/
def scientific (d : Decimal) : List Char :=
  match Nat.toDigits 10 d.digits with
  | [] => []
  | first :: more =>
    let mantissa := if more.isEmpty then [first] else first :: '.' :: more
    mantissa ++ 'e' :: (toString (d.exponent + more.length)).toList

def render (style : FloatStyle) (d : Decimal) : List Char :=
  let order := d.exponent + (Decimal.digitCount d.digits - 1 : Nat)
  if d.digits = 0 || style.positional order then inPlace style.pointed d
  else scientific d

def write (style : FloatStyle) (x : Float) : String :=
  let signed (negative : Bool) (text : List Char) : String :=
    String.ofList (if negative then '-' :: text else text)
  match FloatParts.ofFloat x with
  | .nan => "NaN"
  | .infinite negative => signed negative ['i', 'n', 'f']
  | .finite negative magnitude => signed negative (style.render (Decimal.shortest magnitude))

/-! ## Where the two styles part -/

example : canonical.write 3.0 = "3.0" ∧ plain.write 3.0 = "3" := by decide +kernel

example : canonical.write 9999999999999998.0 = "9999999999999998.0" ∧
    canonical.write 1e16 = "1e16" ∧ plain.write 1e16 = "10000000000000000" := by
  decide +kernel

example : canonical.write 0.0001 = "0.0001" ∧ canonical.write 0.000015 = "1.5e-5" ∧
    plain.write 0.000015 = "0.000015" := by decide +kernel

example : canonical.write (-0.0) = "-0.0" ∧ plain.write (-0.0) = "-0" := by decide +kernel

example : canonical.write (1.0 / 0.0) = "inf" ∧ canonical.write (0.0 / 0.0) = "NaN" := by
  decide +kernel

end FloatStyle

end Lindenmayer
