import Lindenmayer.Region
import Lindenmayer.Term.Number
import Lindenmayer.Term.Operator

/-!
# What a source text says

The reader's result, before it is given nodes and scopes: statements as plain trees, each
part with the region of source it came from. Parentheses have done their work once an
expression is read and leave no trace, save that the region of a whole expression covers
them.
-/

namespace Lindenmayer

/-- An expression without the region it was read from. An operation has the region of its
operator alone. -/
inductive Expr where
  | number (n : Number) (region : Region)
  | string (s : String) (region : Region)
  | identifier (name : String) (region : Region)
  | operation (operator : Operator) (region : Region) (lhs rhs : Expr)
  deriving Repr

/-- An expression as it stands in a statement. -/
structure Expression where
  value : Expr
  /-- From the first token of the expression to the last, parentheses included. -/
  region : Region
  deriving Repr

inductive Statement where
  /-- `set name = value`; the region ends with the equals sign. -/
  | assignment (name : String) (region : Region) (value : Expression)
  /-- `rule name: expected -> replacement`, the name being optional. -/
  | rule (name : Option String) (expected replacement : String) (region : Region)
  | block (region : Region) (body : List Statement)
  | expression (value : Expression)
  deriving Repr

end Lindenmayer
