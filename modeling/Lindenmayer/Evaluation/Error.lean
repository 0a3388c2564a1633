import Lindenmayer.Scopes.Error
import Lindenmayer.Term.Operator

/-!
# Errors of evaluation

What can go wrong when an expression is given a value or a type. A name without a value is
one of them, and the only one that more knowledge can mend.
-/

namespace Lindenmayer

inductive EvalError where
  /-- The name has no value where it stands. -/
  | unknownIdentifier (name : String)
  /-- The operator has no meaning for operands of these types. -/
  | typeMismatch (operator : Operator) (lhs rhs : ValueType)
  | divisionByZero
  /-- The exact result is no integer of 64 bits. -/
  | overflow (operator : Operator) (lhs rhs : Int64)
  /-- The node is no part of an expression; the text says what it is. -/
  | notAnExpression (kind : String)
  /-- The look-up of a name failed for a reason of its own. -/
  | scope (cause : ScopeError)
  deriving DecidableEq, Repr

namespace EvalError

def message : EvalError → String
  | unknownIdentifier name => s!"unknown identifier `{name}`"
  | typeMismatch operator lhs rhs =>
    s!"operator `{operator.symbol}` cannot be applied to {lhs.text} and {rhs.text}"
  | divisionByZero => "integer division by zero"
  | overflow operator lhs rhs =>
    s!"integer overflow in `{lhs.toInt} {operator.symbol} {rhs.toInt}`"
  | notAnExpression kind => s!"{kind} is not an expression"
  | scope _ => "symbol lookup failed"

def causes : EvalError → List String
  | scope cause => [cause.message]
  | _ => []

def report (e : EvalError) (d : Draft) : Draft :=
  match e with
  | scope cause => cause.report d
  | notAnExpression _ => d.add .bug none e.message
  | _ => d.add .error none e.message

end EvalError

end Lindenmayer
