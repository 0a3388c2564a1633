import Lindenmayer.Tree.Basic

/-!
# The subtree below a node

A tree is an array of nodes that name each other, which suits changing it and does not suit
recursion. What only reads a tree therefore reads a `Subtree`: the same nodes, each with
its children inside it. Below a node of a tree whose links are in order no path is longer
than the tree is large, so following links that many times shows the whole subtree, and
nothing that is cut off is ever missed.
-/

namespace Lindenmayer

inductive Subtree where
  | node (id : NodeId) (kind : NodeKind) (region : Region) (children : List Subtree)
  deriving Repr, Inhabited

/-- How a walk goes on after a node. -/
inductive Flow where
  | onward
  /-- Without what is below the node. After the children there is nothing to skip. -/
  | skipChildren
  /-- Not at all. -/
  | stop
  deriving DecidableEq, Repr

namespace Tree

/-- The subtree below a node, cut off below a depth. -/
def subtreeWithin (t : Tree) : Nat → NodeId → Subtree
  | 0, n => .node n (t.kind n) (t.region n) []
  | depth + 1, n => .node n (t.kind n) (t.region n) ((t.children n).map (t.subtreeWithin depth))

def subtree (t : Tree) (n : NodeId) : Subtree := t.subtreeWithin t.size n

end Tree

namespace Subtree

def id : Subtree → NodeId
  | node id _ _ _ => id

def kind : Subtree → NodeKind
  | node _ kind _ _ => kind

def children : Subtree → List Subtree
  | node _ _ _ children => children

/-! ## Orders -/

mutual

/-- The nodes, parents before children. -/
def preorder : Subtree → List NodeId
  | node id _ _ children => id :: preorderAll children

def preorderAll : List Subtree → List NodeId
  | [] => []
  | s :: more => preorder s ++ preorderAll more

end

mutual

/-- The nodes, children before parents. -/
def postorder : Subtree → List NodeId
  | node id _ _ children => postorderAll children ++ [id]

def postorderAll : List Subtree → List NodeId
  | [] => []
  | s :: more => postorder s ++ postorderAll more

end

/-! ## Walks that may be cut short

A visitor keeps a state of its own. The walk answers whether it was stopped. -/

mutual

/-- Visits parents before children. -/
def visitInOrder {σ : Type} (visit : NodeId → σ → Flow × σ) : Subtree → σ → Bool × σ
  | node id _ _ children, state =>
    match visit id state with
    | (.stop, state) => (true, state)
    | (.skipChildren, state) => (false, state)
    | (.onward, state) => visitAllInOrder visit children state

def visitAllInOrder {σ : Type} (visit : NodeId → σ → Flow × σ) :
    List Subtree → σ → Bool × σ
  | [], state => (false, state)
  | s :: more, state =>
    match visitInOrder visit s state with
    | (true, state) => (true, state)
    | (false, state) => visitAllInOrder visit more state

end

mutual

/-- Visits children before parents. -/
def visitPostOrder {σ : Type} (visit : NodeId → σ → Flow × σ) : Subtree → σ → Bool × σ
  | node id _ _ children, state =>
    match visitAllPostOrder visit children state with
    | (true, state) => (true, state)
    | (false, state) =>
      match visit id state with
      | (.stop, state) => (true, state)
      | (_, state) => (false, state)

def visitAllPostOrder {σ : Type} (visit : NodeId → σ → Flow × σ) :
    List Subtree → σ → Bool × σ
  | [], state => (false, state)
  | s :: more, state =>
    match visitPostOrder visit s state with
    | (true, state) => (true, state)
    | (false, state) => visitAllPostOrder visit more state

end

/-! ## Regions -/

mutual

/-- The region that covers a node and everything below it. -/
def fullRegion : Subtree → Region
  | node _ _ region children => coverAll region children

/-- A region extended over several subtrees. -/
def coverAll (region : Region) : List Subtree → Region
  | [] => region
  | s :: more => coverAll (region.merge (fullRegion s)) more

end

/-! ## Outlines -/

/-- A node in one line: what it is, its own region, and the region with all that is below. -/
def description : Subtree → String
  | s@(node _ kind region _) => s!"{kind.text} {region.text} {s.fullRegion.text}"

mutual

/-- A line for each node, indented by its depth. -/
def outlineAt (depth : Nat) : Subtree → List String
  | s@(node _ _ _ children) =>
    (String.ofList (List.replicate (2 * depth) ' ') ++ s.description ++ "\n") ::
      outlineAllAt (depth + 1) children

def outlineAllAt (depth : Nat) : List Subtree → List String
  | [] => []
  | s :: more => outlineAt depth s ++ outlineAllAt depth more

end

def outline (s : Subtree) : String := String.join (s.outlineAt 0)

end Subtree

namespace Tree

/-- The region that covers a node and everything below it. -/
def fullRegion (t : Tree) (n : NodeId) : Region := (t.subtree n).fullRegion

/-- The nodes below the root that satisfy a predicate, in document order. -/
def find (t : Tree) (p : NodeKind → Bool) : List NodeId :=
  let visit (n : NodeId) (found : List NodeId) : Flow × List NodeId :=
    (.onward, if p (t.kind n) then found ++ [n] else found)
  ((t.subtree root).visitInOrder visit []).2

end Tree

end Lindenmayer
