import Lindenmayer.Evaluation.Basic
import Lindenmayer.Tree.Rewriting

/-!
# Folding constants

Folding replaces every operation and every identifier that has a value by the literal of
that value, from the inside out. What is replaced stays in the tree without a parent, with
the value it had; what depends on something unknown stays where it is. Folding ends at the
first expression that can have no value.
-/

namespace Lindenmayer.Tree

/-- Whether a node is replaced once it has a value. -/
def isFoldable : NodeKind → Bool
  | .operation _ | .identifier _ _ => true
  | _ => false

/-- Puts a literal in the place of a node, covering all that the node covered, and answers
whether the node had a place. The literal is made in any case. -/
def replaceByValue (t : Tree) (n : NodeId) (value : Value) : Bool × Tree :=
  let (literal, t') := t.newNode (.ofValue value) (t.fullRegion n)
  t'.replaceWith n literal

/-- Folds one node and counts it if it was replaced. -/
def foldNode (ctx : Context) : Visitor EvalError Nat := fun n t count =>
  if !isFoldable (t.kind n) then (.ok .onward, t, count)
  else
    match t.reduce ctx n with
    | .error e => (.error e, t, count)
    | .ok (.unchanged _) => (.ok .onward, t, count)
    | .ok (.literal value) =>
      match t.replaceByValue n value with
      | (true, t) => (.ok .onward, t, count + 1)
      | (false, t) => (.ok .onward, t, count)

/-- Folds everything below a node and answers how much was replaced. What was done before an
error stands. -/
def foldConstants (t : Tree) (ctx : Context) (n : NodeId) : Except EvalError Nat × Tree :=
  match t.rewritePostOrder (foldNode ctx) n 0 with
  | (.ok (), t, count) => (.ok count, t)
  | (.error e, t, _) => (.error e, t)

end Lindenmayer.Tree
