import Lindenmayer.Tree.Subtree

/-!
# Printing trees

A tree is printed as source text that reads back to the same tree, one statement on a line,
the statements of a block indented below its opening brace. An operand is put into
parentheses only where it would otherwise be read differently: when it binds less tightly
than the operation around it, and on the right also when it binds as tightly.
-/

namespace Lindenmayer

namespace Subtree

/-- Two blanks for each level. -/
def indentation (depth : Nat) : List Char := List.replicate (2 * depth) ' '

/-- Whether an operand has to stand in parentheses. -/
def needsParens (around : Operator) (onRight : Bool) : Subtree → Bool
  | node _ (.operation operator) _ _ =>
    operator.precedence < around.precedence ||
      (onRight && operator.precedence == around.precedence)
  | _ => false

/-- A string between quotes. There are no escapes, so a string that holds double quotes
stands between single ones. -/
def quotedLiteral (s : String) : List Char :=
  let quote := if s.toList.contains '"' then '\'' else '"'
  quote :: s.toList ++ [quote]

/-- A rule as it is written. -/
def ruleText (name : Option String) (expected replacement : String) : List Char :=
  "rule".toList ++ (match name with
    | some name => ' ' :: name.toList
    | none => []) ++ ": ".toList ++ expected.toList ++ " -> ".toList ++ replacement.toList

/-- An operand that was printed, in parentheses where it needs them. -/
def operandText (around : Operator) (onRight : Bool) (operand : Subtree)
    (printed : List Char) : List Char :=
  if needsParens around onRight operand then '(' :: printed ++ [')'] else printed

mutual

/-- The source text of a subtree at some depth of blocks. -/
def print (depth : Nat) : Subtree → List Char
  | node _ kind _ children =>
    match kind with
    | .root _ => printStatements depth children
    | .statement => printAll depth children
    | .expression => printAll depth children
    | .assignment name _ =>
      "set ".toList ++ name.toList ++ " = ".toList ++ printAll depth children
    | .rule name expected replacement => ruleText name expected replacement
    | .block _ =>
      "\x7b\n".toList ++ printStatements (depth + 1) children ++ '\n' ::
        indentation depth ++ ['}']
    | .operation operator =>
      printOperation depth operator children
    | .identifier name _ => name.toList
    | .number n => n.text.toList
    | .string s => quotedLiteral s

def printAll (depth : Nat) : List Subtree → List Char
  | [] => []
  | s :: more => print depth s ++ printAll depth more

def printStatements (depth : Nat) : List Subtree → List Char
  | [] => []
  | s :: more =>
    indentation depth ++ print depth s ++
      match more with
      | [] => []
      | _ :: _ => '\n' :: printStatements depth more

/-- An operation with its operands around it, as far as it has any. -/
def printOperation (depth : Nat) (operator : Operator) : List Subtree → List Char
  | [] => ' ' :: operator.symbol.toList ++ [' ']
  | [lhs] =>
    operandText operator false lhs (print depth lhs) ++ ' ' :: operator.symbol.toList ++
      [' ']
  | lhs :: rhs :: _ =>
    operandText operator false lhs (print depth lhs) ++ ' ' :: operator.symbol.toList ++
      ' ' :: operandText operator true rhs (print depth rhs)

end

end Subtree

namespace Tree

/-- The source text of a node and everything below it. -/
def print (t : Tree) (n : NodeId) : String := String.ofList ((t.subtree n).print 0)

end Tree

end Lindenmayer
