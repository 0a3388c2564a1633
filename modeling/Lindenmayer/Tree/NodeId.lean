/-!
# Names for nodes

A node of a tree is named by the order in which it was made, and keeps that name however
the tree around it changes.
-/

namespace Lindenmayer

@[ext]
structure NodeId where
  index : Nat
  deriving DecidableEq, Repr, Inhabited

end Lindenmayer
