import Lindenmayer.Decimal.Notation
import Lindenmayer.Decimal.Reading

/-!
# Number literals

Source text has two kinds of numbers, told apart by a point: without one a literal is an
integer of 64 bits, with one it is a double.
-/

namespace Lindenmayer

inductive Number where
  | integer (n : Int64)
  | float (x : Float)
  deriving Repr, BEq

namespace Number

/-- The number that a literal stands for. Only an integer can be out of range: a literal with
a point that is too large stands for infinity. -/
def ofLiteral? (literal : String) : Option Number :=
  if literal.toList.contains '.' then (Numeral.readFloat literal).map float
  else (Numeral.readInt64 literal).map integer

/-- A number in its canonical form, from which its kind can be told. -/
def text : Number → String
  | integer n => toString n.toInt
  | float x => FloatStyle.canonical.write x

end Number

end Lindenmayer
