import Lindenmayer.Tree.Subtree

/-!
# Walks that change the tree

A rewriting walk visits children before parents and hands the tree to a visitor, which may
change it. The children of a node are read before any of them is visited, so a visitor that
replaces the node it was given does not disturb the walk: the replacement is not visited,
and the siblings still are.

A visitor can stop the walk or fail. Either way what it did so far stands.
-/

namespace Lindenmayer.Tree

/-- What a visitor is given and what it answers: the tree and a state of its own. -/
abbrev Visitor (ε σ : Type) := NodeId → Tree → σ → Except ε Flow × Tree × σ

variable {ε σ : Type}

/-- Walks several nodes in turn, as far as the walk of one says to go on. -/
def rewriteAll (walk : Visitor ε σ) : List NodeId → Tree → σ → Except ε Flow × Tree × σ
  | [], t, state => (.ok .onward, t, state)
  | n :: more, t, state =>
    match walk n t state with
    | (.ok .stop, t, state) => (.ok .stop, t, state)
    | (.ok _, t, state) => rewriteAll walk more t state
    | (.error e, t, state) => (.error e, t, state)

/-- The walk below a node, cut off below a depth. -/
def rewriteWithin (visit : Visitor ε σ) : Nat → Visitor ε σ
  | 0, n, t, state => visit n t state
  | depth + 1, n, t, state =>
    match rewriteAll (rewriteWithin visit depth) (t.children n) t state with
    | (.ok .stop, t, state) => (.ok .stop, t, state)
    | (.ok _, t, state) => visit n t state
    | (.error e, t, state) => (.error e, t, state)

/-- Visits a node and everything below it, children before parents. A stop is no failure. -/
def rewritePostOrder (visit : Visitor ε σ) (n : NodeId) (t : Tree) (state : σ) :
    Except ε Unit × Tree × σ :=
  match rewriteWithin visit t.size n t state with
  | (.ok _, t, state) => (.ok (), t, state)
  | (.error e, t, state) => (.error e, t, state)

end Lindenmayer.Tree
