import Lindenmayer.Term.Number
import Lindenmayer.Term.ValueType

/-!
# Values

What an expression evaluates to: an integer of 64 bits, a double, or a string. A value has
one canonical text, which is what concatenation puts together and what a placeholder is
filled with.
-/

namespace Lindenmayer

inductive Value where
  | integer (n : Int64)
  | float (x : Float)
  | string (s : String)
  deriving Repr, BEq

namespace Value

def type : Value → ValueType
  | integer _ => .integer
  | float _ => .float
  | string _ => .string

def ofNumber : Number → Value
  | .integer n => integer n
  | .float x => float x

/-- A number as a double; an integer is rounded to the nearest. -/
def toFloat? : Value → Option Float
  | integer n => some n.toFloat
  | float x => some x
  | string _ => none

/-- An integer, and nothing else. -/
def integer? : Value → Option Int64
  | integer n => some n
  | _ => none

/-- A string, and nothing else. -/
def string? : Value → Option String
  | string s => some s
  | _ => none

/-- The canonical text. A string stands for itself. -/
def text : Value → String
  | integer n => (Number.integer n).text
  | float x => (Number.float x).text
  | string s => s

theorem isConcrete_type (v : Value) : v.type.isConcrete = true := by
  cases v <;> rfl

end Value

end Lindenmayer
