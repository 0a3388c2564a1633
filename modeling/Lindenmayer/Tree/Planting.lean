import Lindenmayer.Source.Parser
import Lindenmayer.Tree.Subtree

/-!
# From source text to trees

Statements that were read get nodes and scopes here. Everything is made in the order of the
source, a node after everything below it: operands before their operation, an expression
before its assignment, the statements of a block before the block. A block's scope is the
exception, since the names inside it have to be declared in it; it is made when the block
opens. An identifier declares its name where it stands, unless that scope has the name
already.

Reading is all that can fail. A source text that was read has a tree.
-/

namespace Lindenmayer.Tree

/-- Makes the nodes of an expression that stands in `scope`. -/
def plantExpr (scope : ScopeId) (t : Tree) : Expr → NodeId × Tree
  | .number n region => t.newNode (.number n) region
  | .string s region => t.newNode (.string s) region
  | .identifier name region =>
    let (n, t) := t.newNode (.identifier name scope) region
    (n, { t with scopes := (t.scopes.declare scope name (some n)).2 })
  | .operation operator region lhs rhs =>
    let (l, t) := plantExpr scope t lhs
    let (r, t) := plantExpr scope t rhs
    let (n, t) := t.newNode (.operation operator) region
    (n, t.addChildren n [l, r])

/-- Makes the nodes of an expression, with one for the expression as a whole on top. -/
def plantExpression (scope : ScopeId) (t : Tree) (e : Expression) : NodeId × Tree :=
  let (value, t) := plantExpr scope t e.value
  let (n, t) := t.newNode .expression e.region
  (n, t.addChild n value)

/-- Puts the node of a statement on top of what the statement says. -/
def wrapStatement (t : Tree) (inner : NodeId) : NodeId × Tree :=
  let (n, t) := t.newNode .statement (t.fullRegion inner)
  (n, t.addChild n inner)

mutual

/-- Makes the nodes of a statement that stands in `scope`. -/
def plantStatement (scope : ScopeId) (t : Tree) : Statement → NodeId × Tree
  | .assignment name region value =>
    let (value, t) := plantExpression scope t value
    let (n, t) := t.newNode (.assignment name scope) region
    wrapStatement (t.addChild n value) n
  | .rule name expected replacement region =>
    let (n, t) := t.newNode (.rule name expected replacement) region
    wrapStatement t n
  | .block region body =>
    let (inner, scopes) := t.scopes.createAnonymous scope
    let (statements, t) := plantAll inner { t with scopes } body
    let (n, t) := t.newNode (.block inner) region
    wrapStatement (t.addChildren n statements) n
  | .expression value =>
    let (n, t) := plantExpression scope t value
    wrapStatement t n

def plantAll (scope : ScopeId) (t : Tree) : List Statement → List NodeId × Tree
  | [] => ([], t)
  | s :: more =>
    let (n, t) := plantStatement scope t s
    let (ns, t) := plantAll scope t more
    (n :: ns, t)

end

def ofStatements (program : List Statement) : Tree :=
  let (statements, t) := plantAll Scopes.global empty program
  t.addChildren root statements

def ofSource (source : String) : Except SyntaxError Tree :=
  match Statement.ofSource source with
  | .ok program => .ok (ofStatements program)
  | .error e => .error e

end Lindenmayer.Tree
