import Lindenmayer.Source.Syntax
import Lindenmayer.Source.Token

/-!
# The grammar of expressions

Expressions are sums of terms, terms are products of factors, both grouped to
the left, and a factor is a literal, a name or a sum in parentheses. `Derives`
is that grammar over tokens; it also says which tree a derivation stands for,
so parentheses can leave no trace and precedence cannot be mistaken. Blanks may
stand around any part. Nothing here knows how expressions are read.
-/

namespace Lindenmayer

/-! ## The grammar -/

/-- What an expression is made of: sums of terms, terms of factors. -/
inductive Level where
  | sum
  | term
  | factor
  deriving DecidableEq, Repr

namespace Level

/-- How tightly everything in a part of this level binds, at least. -/
def precedence : Level → Nat
  | sum => 1
  | term => 2
  | factor => 3

end Level

/-- The level of the operations of an operator. -/
def Operator.level : Operator → Level
  | .add | .subtract => .sum
  | .multiply | .divide => .term
  | .parens => .factor

/-- The level of the operand on the right. -/
def Level.tighter : Level → Level
  | .sum => .term
  | .term | .factor => .factor

namespace Token

/-- Whether a token closes a string that another one opened. -/
def closes (t opening : Token) : Prop := t.kind = .quote ∧ t.text = opening.text

def isSign (t : Token) (o : Operator) : Prop := t.kind = .operator ∧ t.text = o.symbol

instance (t opening : Token) : Decidable (t.closes opening) :=
  inferInstanceAs (Decidable (_ ∧ _))

instance (t : Token) (o : Operator) : Decidable (t.isSign o) :=
  inferInstanceAs (Decidable (_ ∧ _))

end Token

/-- The content of a string: the texts of its tokens, without line ends. -/
def stringContent : List Token → String
  | [] => ""
  | t :: ts => if t.kind = .lineEnd then stringContent ts else t.text ++ stringContent ts

/-- The expressions of a level, as tokens and as trees. -/
inductive Derives : Level → List Token → Expr → Prop where
  | number {t : Token} {n : Number} (hkind : t.kind = .number)
      (hvalue : Number.ofLiteral? t.text = some n) : Derives .factor [t] (.number n t.region)
  | identifier {t : Token} (hkind : t.kind = .identifier) :
      Derives .factor [t] (.identifier t.text t.region)
  | string {opening closing : Token} {body : List Token} (hopen : opening.kind = .quote)
      (hbody : ∀ t ∈ body, ¬ t.closes opening) (hclose : closing.closes opening) :
      Derives .factor (opening :: (body ++ [closing]))
        (.string (stringContent body) (opening.region.merge closing.region))
  | parens {opening closing : Token} {ts : List Token} {e : Expr}
      (hopen : opening.kind = .parensOpen) (inner : Derives .sum ts e)
      (hclose : closing.kind = .parensClose) : Derives .factor (opening :: (ts ++ [closing])) e
  | ofFactor {ts : List Token} {e : Expr} (h : Derives .factor ts e) : Derives .term ts e
  | product {ts us : List Token} {sign : Token} {o : Operator} {l r : Expr}
      (lhs : Derives .term ts l) (ho : o = .multiply ∨ o = .divide) (hsign : sign.isSign o)
      (rhs : Derives .factor us r) :
      Derives .term (ts ++ sign :: us) (.operation o sign.region l r)
  | ofTerm {ts : List Token} {e : Expr} (h : Derives .term ts e) : Derives .sum ts e
  | sum {ts us : List Token} {sign : Token} {o : Operator} {l r : Expr}
      (lhs : Derives .sum ts l) (ho : o = .add ∨ o = .subtract) (hsign : sign.isSign o)
      (rhs : Derives .term us r) :
      Derives .sum (ts ++ sign :: us) (.operation o sign.region l r)
  | blankBefore {level : Level} {t : Token} {ts : List Token} {e : Expr}
      (hkind : t.kind = .whitespace) (h : Derives level ts e) : Derives level (t :: ts) e
  | blankAfter {level : Level} {t : Token} {ts : List Token} {e : Expr}
      (h : Derives level ts e) (hkind : t.kind = .whitespace) : Derives level (ts ++ [t]) e

/-- Whether an expression ends in front of these tokens: at a line end, a
closing curly brace, or the end of the source. -/
def EndsExpression : List Token → Prop
  | [] => True
  | t :: _ => t.kind = .lineEnd ∨ t.kind = .curlyClose

/-! ## Parts at other levels -/

theorem precedence_le_factor (level : Level) : level.precedence ≤ Level.factor.precedence := by
  cases level with
  | sum | term | factor => decide

theorem sum_le_precedence (level : Level) : Level.sum.precedence ≤ level.precedence := by
  cases level with
  | sum | term | factor => decide

theorem Derives.weaken {level level' : Level} {ts : List Token} {e : Expr} (h : Derives level ts e)
    (hle : level'.precedence ≤ level.precedence) : Derives level' ts e := by
  cases level with
  | sum =>
      cases level' with
      | sum => exact h
      | term | factor => exact absurd hle (by decide)
  | term =>
      cases level' with
      | sum => exact .ofTerm h
      | term => exact h
      | factor => exact absurd hle (by decide)
  | factor =>
      cases level' with
      | sum => exact .ofTerm (.ofFactor h)
      | term => exact .ofFactor h
      | factor => exact h

theorem Derives.operation {o : Operator} (ho : o ≠ .parens) {ts us : List Token} {sign : Token}
    {l r : Expr} (lhs : Derives o.level ts l) (hsign : sign.isSign o)
    (rhs : Derives o.level.tighter us r) :
    Derives o.level (ts ++ sign :: us) (.operation o sign.region l r) := by
  cases o with
  | parens => exact absurd rfl ho
  | add => exact .sum lhs (.inl rfl) hsign rhs
  | subtract => exact .sum lhs (.inr rfl) hsign rhs
  | multiply => exact .product lhs (.inl rfl) hsign rhs
  | divide => exact .product lhs (.inr rfl) hsign rhs

end Lindenmayer
