import Lindenmayer.Decimal.Shortest
import Lindenmayer.Text.Blank

/-!
# Reading numbers

An integer is a run of digits with at most one sign in front, and must fit into 64 bits.
A floating point number is a mantissa of digits with at most one point among them, and an
optional exponent; or the name of an infinity or of the value that is no number, in any
case of letters. It is rounded once, from its exact value, so a text that `FloatStyle.write`
made reads back to the double it was made from. A number beyond the largest double reads
as infinity.
-/

namespace Lindenmayer.Numeral

open Lindenmayer.Text (isDigit)

def natural (digits : List Char) : Nat :=
  digits.foldl (fun n c => 10 * n + (c.toNat - '0'.toNat)) 0

/-- Whether a sign in front says negative, and what follows it. -/
def splitSign : List Char → Bool × List Char
  | '-' :: cs => (true, cs)
  | '+' :: cs => (false, cs)
  | cs => (false, cs)

/-- The value of a run of digits, if it is one and has any. -/
def natural? (cs : List Char) : Option Nat :=
  if !cs.isEmpty && cs.all isDigit then some (natural cs) else none

def integer? (cs : List Char) : Option Int :=
  let (negative, digits) := splitSign cs
  (natural? digits).map fun n => if negative then -(n : Int) else n

/-- `n` as a word of 64 bits, if it fits. -/
def int64? (n : Int) : Option Int64 :=
  if Int64.minValue.toInt ≤ n && n ≤ Int64.maxValue.toInt then some (Int64.ofInt n) else none

def readInt64 (s : String) : Option Int64 := (integer? s.toList).bind int64?

/-- The double of given bits below the sign. -/
def ofMagnitude (negative : Bool) (bits : Nat) : Float :=
  Float.ofBits (UInt64.ofNat (if negative then Dyadic.signBit + bits else bits))

/-- The double nearest to `d`. Far beyond the range of doubles the powers of ten are not
computed: from `1e310` on all is infinite, and below `1e-325` all is zero. -/
def nearest (negative : Bool) (d : Decimal) : Float :=
  let order := d.exponent + Decimal.digitCount d.digits
  let bits :=
    if d.digits = 0 || order < -324 then 0
    else if 310 < order then Dyadic.infinityBits
    else Dyadic.nearestBits (d.digits * pow10 d.exponent.toNat) (pow10 (-d.exponent).toNat)
  ofMagnitude negative bits

/-- The exponent that ends a number, zero if there is none. -/
def exponent? : List Char → Option Int
  | [] => some 0
  | c :: cs => if c == 'e' || c == 'E' then integer? cs else none

def decimal? (cs : List Char) : Option Decimal :=
  let whole := cs.takeWhile isDigit
  let (fraction, rest) := match cs.dropWhile isDigit with
    | '.' :: more => (more.takeWhile isDigit, more.dropWhile isDigit)
    | rest => ([], rest)
  if whole.isEmpty && fraction.isEmpty then none
  else (exponent? rest).map fun e => ⟨natural (whole ++ fraction), e - fraction.length⟩

def readFloat (s : String) : Option Float :=
  let (negative, cs) := splitSign s.toList
  let word := String.ofList (cs.map Char.toLower)
  if word == "inf" || word == "infinity" then some (ofMagnitude negative Dyadic.infinityBits)
  else if word == "nan" then some (0.0 / 0.0)
  else (decimal? cs).map (nearest negative)

example : (readFloat "-.5e1").map Float.toBits = some (-5.0 : Float).toBits := by
  decide +kernel

example : (readFloat "5e-324").map Float.toBits = some 1 ∧
    (readFloat "2e-324").map Float.toBits = some 0 := by decide +kernel

example : (readFloat "Infinity").map Float.toBits = (readFloat "1e400").map Float.toBits := by
  decide +kernel

example : (readFloat ".").isNone ∧ (readFloat "1e").isNone ∧ (readFloat "0x1").isNone := by
  decide +kernel

example : readInt64 "9223372036854775808" = none ∧
    readInt64 "-9223372036854775808" = some Int64.minValue := by decide +kernel

end Lindenmayer.Numeral
