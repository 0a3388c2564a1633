import Lindenmayer.Region
import Lindenmayer.Scopes.Basic
import Lindenmayer.Term.Value
import Lindenmayer.Text.Quoted

/-!
# Syntax trees

A tree holds its nodes in the order they were made, and each node names its parent and its
children. Nodes are never removed: one that is replaced loses its parent and keeps
everything else, so whoever still holds its name can go on reading it. The scopes of a
program are kept with its tree, because the nodes that stand for blocks, identifiers and
assignments refer to them.

The operations keep parents and children in step. None of them looks further than the
nodes it is given and their parents; whatever walks a whole tree is in `Subtree` and
`Walk`.
-/

namespace Lindenmayer

inductive NodeKind where
  /-- A program; its children are statements. -/
  | root (scope : ScopeId)
  /-- Its child is an assignment, a rule, a block or an expression. -/
  | statement
  /-- Its child is the expression that is assigned. -/
  | assignment (name : String) (scope : ScopeId)
  | rule (name : Option String) (expected replacement : String)
  /-- Statements with a scope of their own. -/
  | block (scope : ScopeId)
  /-- Its child is an operation, an identifier or a literal. -/
  | expression
  /-- Its children are the operands. -/
  | operation (operator : Operator)
  | identifier (name : String) (scope : ScopeId)
  | number (n : Number)
  | string (s : String)
  deriving Repr, BEq, Inhabited

/-- A node and its place in the tree. -/
structure Node where
  kind : NodeKind
  region : Region
  parent : Option NodeId
  children : List NodeId
  deriving Repr, BEq, Inhabited

structure Tree where
  nodes : Array Node
  scopes : Scopes
  deriving Repr, BEq, Inhabited

namespace NodeKind

/-- The scope that a node opens. -/
def ownedScope : NodeKind → Option ScopeId
  | root scope | block scope => some scope
  | _ => none

def isLiteral : NodeKind → Bool
  | number _ | string _ => true
  | _ => false

/-- The literal that stands for a value. -/
def ofValue : Value → NodeKind
  | .integer n => number (.integer n)
  | .float x => number (.float x)
  | .string s => string s

def text : NodeKind → String
  | root scope => s!"Root({scope.text})"
  | statement => "Statement"
  | assignment name _ => s!"Assignment({name})"
  | rule name expected replacement =>
    let label := name.getD ""
    s!"RuleDefinition({label}: {expected} -> {replacement})"
  | block scope => s!"Block({scope.text})"
  | expression => "Expression"
  | operation operator => s!"Operator({operator.symbol})"
  | identifier name _ => s!"Identifier({name})"
  | number n => s!"Number({n.text})"
  | string s => s!"String({Text.quoted s})"

end NodeKind

namespace Tree

/-- The node that every tree starts with. -/
def root : NodeId := ⟨0⟩

def empty : Tree := ⟨#[⟨.root Scopes.global, Region.origin, none, []⟩], Scopes.initial⟩

/-- The number of nodes that were made, attached or not. -/
def size (t : Tree) : Nat := t.nodes.size

def isEmpty (t : Tree) : Bool := t.size ≤ 1

def node (t : Tree) (n : NodeId) : Node := t.nodes[n.index]?.getD default

def kind (t : Tree) (n : NodeId) : NodeKind := (t.node n).kind

/-- The region that a node itself was read from. -/
def region (t : Tree) (n : NodeId) : Region := (t.node n).region

def parent (t : Tree) (n : NodeId) : Option NodeId := (t.node n).parent

def children (t : Tree) (n : NodeId) : List NodeId := (t.node n).children

def statements (t : Tree) : List NodeId := t.children root

def modify (t : Tree) (n : NodeId) (f : Node → Node) : Tree :=
  { t with nodes := t.nodes.modify n.index f }

/-- Makes a node that is attached to nothing. -/
def newNode (t : Tree) (kind : NodeKind) (region : Region) : NodeId × Tree :=
  (⟨t.size⟩, { t with nodes := t.nodes.push ⟨kind, region, none, []⟩ })

def detach (t : Tree) (n : NodeId) : Tree :=
  match t.parent n with
  | none => t
  | some p =>
    (t.modify n fun node => { node with parent := none }).modify p
      fun node => { node with children := node.children.filter (· != n) }

/-- Makes `child` the last child of `parent`, wherever it was attached before. -/
def addChild (t : Tree) (parent child : NodeId) : Tree :=
  ((t.detach child).modify child fun node => { node with parent := some parent }).modify
    parent fun node => { node with children := node.children ++ [child] }

def addChildren (t : Tree) (parent : NodeId) (children : List NodeId) : Tree :=
  children.foldl (fun t child => t.addChild parent child) t

/-- Puts `new` in the place of `old` among the children of `parent`, and answers whether `old`
was there. -/
def replaceChild (t : Tree) (parent old new : NodeId) : Bool × Tree :=
  if !(t.children parent).contains old then (false, t)
  else if old = new then (true, t)
  else
    let t := t.detach new
    let t := t.modify parent fun node =>
      { node with children := node.children.map fun c => if c = old then new else c }
    let t := t.modify new fun node => { node with parent := some parent }
    (true, t.modify old fun node => { node with parent := none })

/-- Puts `new` in the place of `n`, and answers whether `n` had a place. -/
def replaceWith (t : Tree) (n new : NodeId) : Bool × Tree :=
  match t.parent n with
  | some p => t.replaceChild p n new
  | none => (false, t)

/-- A node and those above it, the nearest first. No way up is longer than the tree is
large. -/
def lineage (t : Tree) (n : NodeId) : List NodeId :=
  let rec climb : Nat → NodeId → List NodeId
    | 0, n => [n]
    | steps + 1, n => n :: match t.parent n with
      | some p => climb steps p
      | none => []
  climb t.size n

/-- The scope that a node is in: that of the nearest block around it, or the global one. -/
def definitionScope (t : Tree) (n : NodeId) : ScopeId :=
  ((t.lineage n).findSome? fun m => (t.kind m).ownedScope).getD Scopes.global

end Tree

end Lindenmayer
