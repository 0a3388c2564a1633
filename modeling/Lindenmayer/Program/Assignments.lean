import Lindenmayer.Tree.Subtree

/-!
# The assignments of a program

A program says what to draw by assigning variables at its top level. Assignments inside
blocks belong to the text and are printed with it, but they are never executed: neither
validation nor a run looks at them.
-/

namespace Lindenmayer

structure Assignment where
  name : String
  scope : ScopeId
  node : NodeId
  deriving DecidableEq, Repr

/-- The variable that holds the first word. -/
def axiomName : String := "axiom"

/-- The variable that holds the number of generations. -/
def recursionCountName : String := "recursionCount"

namespace Tree

def firstChild (t : Tree) (n : NodeId) : Option NodeId := (t.children n).head?

def assignment? (t : Tree) (n : NodeId) : Option Assignment :=
  match t.kind n with
  | .assignment name scope => some ⟨name, scope, n⟩
  | _ => none

/-- The assignments at the top level, in document order. -/
def assignments (t : Tree) : List Assignment :=
  t.statements.filterMap fun statement => (t.firstChild statement).bind t.assignment?

end Tree

end Lindenmayer
