import Lindenmayer.Tree.Subtree

/-!
# Copies

A copy is made of new nodes only, with the kinds and regions of the old ones. It is attached
to nothing, and changing it leaves alone what it was made from.
-/

namespace Lindenmayer.Tree

mutual

def graft (t : Tree) : Subtree → NodeId × Tree
  | .node _ kind region children =>
    let (copy, t) := t.newNode kind region
    (copy, graftAll t copy children)

/-- Copies several subtrees and makes them children of `parent`. -/
def graftAll (t : Tree) (parent : NodeId) : List Subtree → Tree
  | [] => t
  | s :: more =>
    let (child, t) := graft t s
    graftAll (t.addChild parent child) parent more

end

/-- Copies a node, with everything below it if `deep` says so. -/
def copy (t : Tree) (n : NodeId) (deep : Bool) : NodeId × Tree :=
  if deep then t.graft (t.subtree n) else t.newNode (t.kind n) (t.region n)

end Lindenmayer.Tree
