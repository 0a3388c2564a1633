import Lindenmayer.Term.Operator

/-!
# Types of values

There are three types that a value can have, and two that stand in where there is none:
one for what has no value at all, and one for what has a value that is not known yet. The
types of two operands settle the type of an operation before anything is evaluated.
-/

namespace Lindenmayer

inductive ValueType where
  | integer
  | float
  | string
  /-- There is no value. -/
  | void
  /-- There may be a value, of whatever type. -/
  | unknown
  deriving DecidableEq, Repr, Inhabited

namespace ValueType

def all : List ValueType := [integer, float, string, void, unknown]

/-- Whether values of this type are numbers. -/
def isNumeric : ValueType → Bool
  | integer | float => true
  | _ => false

/-- Whether values can have this type. -/
def isConcrete : ValueType → Bool
  | integer | float | string => true
  | void | unknown => false

def text : ValueType → String
  | integer => "integer"
  | float => "floating point"
  | string => "string"
  | void => "void"
  | unknown => "unknown"

/-- The type of an operation on operands of two types, where it has one. A sum with a string
in it is a string, whatever the other operand is; everything else wants numbers, and is an
integer only of two integers. -/
def combine (operator : Operator) (lhs rhs : ValueType) : Option ValueType :=
  if operator = .add ∧ (lhs = .string ∨ rhs = .string) then
    if lhs = .void ∨ rhs = .void then none else some .string
  else if lhs.isNumeric ∧ rhs.isNumeric then
    some (if lhs = rhs then lhs else .float)
  else if (lhs = .unknown ∨ lhs.isNumeric) ∧ (rhs = .unknown ∨ rhs.isNumeric) then
    some .unknown
  else none

end ValueType

end Lindenmayer
