import Lindenmayer.Decimal.Notation
import Lindenmayer.Report.Diagnostic

/-!
# Errors of words and rules

What can go wrong while a word is read, rewritten or resolved.
-/

namespace Lindenmayer

inductive WordError where
  /-- The number drawn lies in no interval of a stochastic rule. -/
  | noRuleMatched (value : Float)
  /-- There are no alternatives, or not as many as probabilities. -/
  | invalidProbabilities (rules probabilities : Nat)
  | missingClosingParenthesis (offset : Nat)
  | tooManyParameters (offset count max : Nat)
  | unresolvedPlaceholder (name : String)
  | missingParameter (letter : String) (index : Nat)
  /-- The parameter is no number. -/
  | badParameter (value : String)
  /-- The pattern of a rule is not exactly one letter. -/
  | multiLetterPattern (pattern : String) (count : Nat)
  | invalidRecursionCount (count : Int64)
  deriving Repr, BEq

namespace WordError

def message : WordError → String
  | noRuleMatched value =>
    "no rule matched the random value " ++ FloatStyle.plain.write value
  | invalidProbabilities rules probabilities =>
    s!"invalid probabilities: {rules} rules but {probabilities} probabilities"
  | missingClosingParenthesis offset =>
    s!"missing `)` for the parameters of the token at {offset}"
  | tooManyParameters offset count max =>
    s!"the token at {offset} has {count} parameters but accepts at most {max}"
  | unresolvedPlaceholder name => "unresolved placeholder `$\x7b" ++ name ++ "\x7d`"
  | missingParameter letter index => s!"token `{letter}` has no parameter {index}"
  | badParameter value => s!"parameter `{value}` is not a valid number"
  | multiLetterPattern pattern count =>
    s!"rule pattern `{pattern}` must be a single token but has {count}"
  | invalidRecursionCount count =>
    s!"the recursion count must be at least 1 but is {count.toInt}"

def report (e : WordError) (d : Draft) : Draft := d.add .error none e.message

end WordError

end Lindenmayer
