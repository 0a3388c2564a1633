/-!
# Doubles as exact numbers

A finite double is a natural number times a power of two, and everything the library says
about its text is said about that number, in exact arithmetic. The two directions live
here: the parts of a given double, and the double nearest to a given fraction.

The bits of a double are in the order of its magnitude, with the exponent above the
mantissa, so a mantissa that rounds up to the next power of two carries into the exponent
by itself. `nearestBits` relies on that and has no case for it.
-/

namespace Lindenmayer

def pow2 (n : Nat) : Nat := Nat.pow 2 n

def pow10 (n : Nat) : Nat := Nat.pow 10 n

/-- The magnitude `mantissa · 2 ^ exponent`. -/
structure Dyadic where
  mantissa : Nat
  exponent : Int
  deriving DecidableEq, Repr

inductive FloatParts where
  | nan
  | infinite (negative : Bool)
  | finite (negative : Bool) (magnitude : Dyadic)
  deriving DecidableEq, Repr

namespace Dyadic

def leastExponent : Int := -1074

/-- The least mantissa of full precision; encoded mantissas leave this bit out. -/
def hiddenBit : Nat := 0x10000000000000

def signBit : Nat := 0x8000000000000000

def infinityBits : Nat := 0x7ff0000000000000

/-- Whether the double below is half as far away as the double above. That is so at a power
of two, save for the least one of full precision. -/
def narrowBelow (d : Dyadic) : Bool :=
  d.mantissa == hiddenBit && leastExponent < d.exponent

/-- `num / den` rounded to a natural number, a half to the even neighbour. -/
def roundToEven (num den : Nat) : Nat :=
  let floor := num / den
  let rest := 2 * (num % den)
  if den < rest || (rest == den && floor % 2 == 1) then floor + 1 else floor

/-- The greatest `e` with `2 ^ e ≤ num / den`, for positive arguments. -/
def binaryOrder (num den : Nat) : Int :=
  let estimate : Int := num.log2 - den.log2
  if den * pow2 estimate.toNat ≤ num * pow2 (-estimate).toNat then estimate else estimate - 1

/-- The bits of the double nearest to `num / den`, an infinity where it is out of range. -/
def nearestBits (num den : Nat) : Nat :=
  if num = 0 then 0 else
    let exponent := max (binaryOrder num den - 52) leastExponent
    let mantissa := roundToEven (num * pow2 (-exponent).toNat) (den * pow2 exponent.toNat)
    min ((exponent - leastExponent).toNat * hiddenBit + mantissa) infinityBits

end Dyadic

namespace FloatParts

/-- The parts that a pattern of 64 bits encodes. -/
def ofBits (bits : Nat) : FloatParts :=
  let negative := bits / Dyadic.signBit % 2 == 1
  let field : Nat := bits / Dyadic.hiddenBit % 2048
  let fraction : Nat := bits % Dyadic.hiddenBit
  if field == 2047 then
    if fraction == 0 then .infinite negative else .nan
  else if field == 0 then .finite negative ⟨fraction, Dyadic.leastExponent⟩
  else .finite negative ⟨Dyadic.hiddenBit + fraction, (field : Int) - 1075⟩

def ofFloat (x : Float) : FloatParts := ofBits x.toBits.toNat

end FloatParts

end Lindenmayer
