import Lindenmayer.Evaluation.Error
import Lindenmayer.Term.Value

/-!
# Arithmetic on values

A sum with a string in it joins the texts of its operands. Two integers are calculated with
exactly, and the result is refused where it does not fit into 64 bits; a division drops
what is left over. Any other two numbers are calculated with as doubles, where nothing is
refused.
-/

namespace Lindenmayer.Value

/-- What stands where an operator was due, when a parenthesis is asked to calculate. -/
def parenthesisError : EvalError := .notAnExpression "a parenthesis"

/-- The exact result of an operation on integers, where there is one. A division by zero has
none, and a division otherwise goes toward zero. -/
def exactResult (operator : Operator) (l r : Int) : Except EvalError Int :=
  match operator with
  | .add => .ok (l + r)
  | .subtract => .ok (l - r)
  | .multiply => .ok (l * r)
  | .divide => if r = 0 then .error .divisionByZero else .ok (l.tdiv r)
  | .parens => .error parenthesisError

def applyInteger (operator : Operator) (l r : Int64) : Except EvalError Value :=
  match exactResult operator l.toInt r.toInt with
  | .error e => .error e
  | .ok n =>
    match Numeral.int64? n with
    | some n => .ok (.integer n)
    | none => .error (.overflow operator l r)

def applyFloat (operator : Operator) (l r : Float) : Except EvalError Value :=
  match operator with
  | .add => .ok (.float (l + r))
  | .subtract => .ok (.float (l - r))
  | .multiply => .ok (.float (l * r))
  | .divide => .ok (.float (l / r))
  | .parens => .error parenthesisError

/-- An operation on numbers of whatever kind, if both operands are numbers. -/
def applyNumbers (operator : Operator) (l r : Value) : Except EvalError Value :=
  match l, r with
  | .integer a, .integer b => applyInteger operator a b
  | _, _ =>
    match l.toFloat?, r.toFloat? with
    | some a, some b => applyFloat operator a b
    | _, _ => .error (.typeMismatch operator l.type r.type)

def apply (operator : Operator) (l r : Value) : Except EvalError Value :=
  if operator = .add ∧ (l.type = .string ∨ r.type = .string) then
    .ok (.string (l.text ++ r.text))
  else applyNumbers operator l r

end Lindenmayer.Value
