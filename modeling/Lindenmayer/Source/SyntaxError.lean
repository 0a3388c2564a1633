import Lindenmayer.Report.Diagnostic
import Lindenmayer.Source.Token
import Lindenmayer.Term.Operator

/-!
# Syntax errors

What can be wrong with a source text, each fault with the place it was found at.
-/

namespace Lindenmayer

inductive Malformed where
  | strayClosingBrace
  | misplacedClosingParenthesis
  | missingClosingParenthesis
  | unknownOperator (symbol : String)
  | unexpected (kind : TokenKind) (text : String)
  | missingOperand (operator : Operator)
  | expectedExpression
  | danglingValues
  deriving DecidableEq, Repr

inductive SyntaxError where
  /-- The text ended where more was due. -/
  | prematureEnd (offset : Nat)
  /-- There is no character in front of the first. -/
  | pushBackAtStart
  /-- One kind of token was due and another was found. -/
  | unexpectedToken (expected found : TokenKind) (text : String) (region : Region)
  | malformed (fault : Malformed) (region : Region)
  /-- A number literal that has no value. -/
  | illegalNumber (literal : String) (region : Region)
  deriving DecidableEq, Repr

namespace Malformed

def message : Malformed → String
  | strayClosingBrace => "unexpected `\x7d` outside of a block"
  | misplacedClosingParenthesis => "misplaced closing parenthesis"
  | missingClosingParenthesis => "missing closing parenthesis"
  | unknownOperator symbol => s!"unknown operator `{symbol}`"
  | unexpected kind text => s!"unexpected {kind.text} `{text}` in expression"
  | missingOperand operator => s!"operator `{operator.symbol}` is missing an operand"
  | expectedExpression => "expected an expression"
  | danglingValues => "dangling values"

end Malformed

namespace SyntaxError

def message : SyntaxError → String
  | prematureEnd _ => "premature end of input"
  | pushBackAtStart => "cannot push back at the start of the input"
  | unexpectedToken expected found text _ =>
    s!"expected {expected.text} but found {found.text} `{text}`"
  | malformed fault _ => fault.message
  | illegalNumber literal _ => s!"illegal number literal `{literal}`"

def region? : SyntaxError → Option Region
  | prematureEnd offset => some ⟨offset, 0⟩
  | pushBackAtStart => none
  | unexpectedToken _ _ _ region => some region
  | malformed _ region => some region
  | illegalNumber _ region => some region

/-- Adds the error to a draft. Pushing back at the start is a fault of the caller and not of
the source. -/
def report (e : SyntaxError) (d : Draft) : Draft :=
  match e.region? with
  | some region => (d.addCause region).add .error none e.message
  | none => d.add .bug none e.message

end SyntaxError

end Lindenmayer
