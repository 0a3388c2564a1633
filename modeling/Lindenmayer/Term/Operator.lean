/-!
# Operators

Expressions know the four operations of arithmetic. The opening parenthesis stands among
them because it waits on the same stack while an expression is read; it binds tighter than
anything, and no expression holds it once it is read.
-/

namespace Lindenmayer

/-- What may stand between two operands, and the parenthesis. -/
inductive Operator where
  | add
  | subtract
  | multiply
  | divide
  | parens
  deriving DecidableEq, Repr

namespace Operator

def ofSymbol? : String → Option Operator
  | "+" => some add
  | "-" => some subtract
  | "*" => some multiply
  | "/" => some divide
  | "(" => some parens
  | _ => none

def symbol : Operator → String
  | add => "+"
  | subtract => "-"
  | multiply => "*"
  | divide => "/"
  | parens => "("

def precedence : Operator → Nat
  | add | subtract => 1
  | multiply | divide => 2
  | parens => 100

/-- Whether operators of one precedence group to the left. -/
def isLeftAssociative : Operator → Bool
  | parens => false
  | _ => true

def arity : Operator → Nat
  | parens => 1
  | _ => 2

theorem ofSymbol?_symbol (o : Operator) : ofSymbol? o.symbol = some o := by
  cases o <;> rfl

end Operator

end Lindenmayer
