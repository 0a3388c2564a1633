import Lindenmayer.Tree.Subtree

/-!
# Drawing trees

A tree can be looked at as a graph, in the text form that graph layouters read: a line for
each node below the root, in document order, and a line for each edge, in the order of the
nodes they leave. A node shows what it stands for, its region, the type of the variable it
names and the scope it opens; an edge shows what the child is to its parent.
-/

namespace Lindenmayer

namespace Graph

inductive Role where
  | statement (index : Nat)
  | content
  | assignedValue
  | lhs
  | rhs
  deriving DecidableEq, Repr

structure Edge where
  parent : NodeId
  child : NodeId
  role : Role
  deriving DecidableEq, Repr

namespace Role

/-- The part that the child of a given place plays. -/
def ofChild (kind : NodeKind) (index : Nat) : Role :=
  match kind with
  | .root _ | .block _ => statement index
  | .assignment _ _ => assignedValue
  | .operation _ => if index = 0 then lhs else rhs
  | _ => content

/-- The label of an edge and its style, if it has one. -/
def attributes : Role → String
  | statement index => s!"[label=<stmt <b>{index}</b>>][style=\"dashed\"]"
  | content => "[label=\"\"][style=\"dotted\"]"
  | assignedValue => "[label=\"value\"]"
  | lhs => "[label=\"lhs\"]"
  | rhs => "[label=\"rhs\"]"

end Role

/-- The edges that leave a node. -/
def edgesOf (parent : NodeId) (kind : NodeKind) (children : List Subtree) : List Edge :=
  children.mapIdx fun index child => ⟨parent, child.id, Role.ofChild kind index⟩

mutual

/-- The edges of a subtree, those of parents before those of children. -/
def edges : Subtree → List Edge
  | .node id kind _ children => edgesOf id kind children ++ edgesAll children

def edgesAll : List Subtree → List Edge
  | [] => []
  | s :: more => edges s ++ edgesAll more

end

/-- A character as it stands in a label. -/
def escapeChar (c : Char) : List Char :=
  match c with
  | '&' => "&amp;".toList
  | '<' => "&lt;".toList
  | '>' => "&gt;".toList
  | '"' => "&quot;".toList
  | c => [c]

def escape (s : String) : String := String.ofList (s.toList.flatMap escapeChar)

/-- A line of a label in a colour. -/
def coloured (colour text : String) : String :=
  "<br/> <font color=\"" ++ colour ++ "\">" ++ text ++ "</font>"

/-- The type of the variable that a node names, if it is declared. -/
def variableType (t : Tree) (kind : NodeKind) : Option ValueType :=
  match kind with
  | .assignment name scope | .identifier name scope =>
    (t.scopes.visible? scope name).map fun symbol => (t.scopes.symbol symbol).type
  | _ => none

def nodeLabel (t : Tree) (n : NodeId) : String :=
  let kind := t.kind n
  let variable_ := match variableType t kind with
    | some type => coloured "blue" type.text
    | none => ""
  let scope := match kind.ownedScope with
    | some scope => coloured "purple" (escape (t.scopes.absoluteName scope) ++
        s!" ({(t.scopes.scope scope).table.length} symbols)")
    | none => ""
  s!"({n.index}) " ++ escape kind.text ++ " " ++ coloured "gray" (t.region n).text ++
    variable_ ++ scope

def nodeLine (t : Tree) (n : NodeId) : String :=
  s!"    n{n.index}[label=<{nodeLabel t n}>][shape=\"record\"];\n"

def edgeLine (e : Edge) : String :=
  s!"    n{e.parent.index} -> n{e.child.index}{e.role.attributes};\n"

/-- The line of an edge has its two ends, and a label for what the child is to the parent. -/
theorem edgeLine_eq (p c : NodeId) (role : Role) :
    edgeLine ⟨p, c, role⟩ = s!"    n{p.index} -> n{c.index}" ++ (match role with
      | .statement index => s!"[label=<stmt <b>{index}</b>>][style=\"dashed\"]"
      | .content => "[label=\"\"][style=\"dotted\"]"
      | .assignedValue => "[label=\"value\"]"
      | .lhs => "[label=\"lhs\"]"
      | .rhs => "[label=\"rhs\"]") ++ ";\n" := by
  cases role <;> rfl

end Graph

namespace Tree

def graph (t : Tree) : String :=
  let s := t.subtree root
  "digraph ast \x7b\n" ++ String.join (s.preorder.map (Graph.nodeLine t)) ++
    String.join ((Graph.edges s).map Graph.edgeLine) ++ "\x7d\n"

end Tree

end Lindenmayer
