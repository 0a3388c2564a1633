import Lindenmayer.Proofs.Folded
import Lindenmayer.Proofs.Literals
import Lindenmayer.Tree.Graph

/-!
# A drawing shows the tree

A drawing lists nodes and edges, and it finds them on walks of their own. `DrawnBy` says what
they have to do with each other and with the links of the tree: the nodes are those below the
root, in document order, and there is one edge to each of them but the root, from its parent.
Nodes that were replaced are in no drawing, since no way up leads from them to the root.

Both lists follow the preorder. The edges are what leaves the nodes of the preorder, one node
after the other (`edges_eq_flatMap`), so what is known of the preorder, that no node comes
twice and that every child of a listed node is listed, settles the edges too.

The text of a drawing has a line for each edge, and the line tells the edge
(`Graph.edgeLine_injective`). So the links can be read off the text
(`DrawnBy.exists_line_iff`).
-/

namespace Lindenmayer

/-! ## Lines of edges -/

namespace Graph

open Text (isDigit)

theorem toList_edgeLine (p c : NodeId) (role : Role) : (edgeLine ⟨p, c, role⟩).toList =
    "    n".toList ++ (Nat.toDigits 10 p.index ++ (" -> n".toList ++
      (Nat.toDigits 10 c.index ++ (role.attributes.toList ++ ";\n".toList)))) := by
  have htext : edgeLine ⟨p, c, role⟩ = "    n" ++ (p.index.repr ++ (" -> n" ++
      (c.index.repr ++ (role.attributes ++ ";\n")))) := by
    simp only [← String.append_assoc]
    rfl
  simp only [htext, String.toList_append, Nat.toList_repr]

theorem toList_statement (index : Nat) : (Role.statement index).attributes.toList =
    "[label=<stmt <b>".toList ++ (Nat.toDigits 10 index ++
      "</b>>][style=\"dashed\"]".toList) := by
  have htext : (Role.statement index).attributes = "[label=<stmt <b>" ++ (index.repr ++
      "</b>>][style=\"dashed\"]") := by
    rw [← String.append_assoc]
    rfl
  simp only [htext, String.toList_append, Nat.toList_repr]

/-- The label of a statement is in pointed brackets, and no other one is. -/
theorem exists_statement {index : Nat} {role : Role}
    (h : (Role.statement index).attributes = role.attributes) : ∃ i, role = .statement i := by
  have hbracket : (Role.statement index).attributes.toList[7]? = some '<' := by
    rw [toList_statement]
    rfl
  cases role with
  | statement i => exact ⟨i, rfl⟩
  | content | assignedValue | lhs | rhs =>
      rw [h] at hbracket
      exact absurd hbracket (by decide)

/-- The label of an edge and its style tell what the child is to the parent. -/
theorem attributes_injective : Function.Injective Role.attributes := by
  intro a b h
  have hclose : ∀ x ∈ "</b>>][style=\"dashed\"]".toList.head?, isDigit x = false := by
    intro x hx
    cases hx
    rfl
  cases a with
  | statement i =>
      obtain ⟨j, rfl⟩ := exists_statement h
      have hlist := congrArg String.toList h
      rw [toList_statement, toList_statement] at hlist
      obtain ⟨rfl, _⟩ := toDigits_append_inj hclose hclose (List.append_cancel_left hlist)
      rfl
  | content | assignedValue | lhs | rhs =>
      cases b with
      | statement j =>
          obtain ⟨_, heq⟩ := exists_statement h.symm
          cases heq
      | content | assignedValue | lhs | rhs =>
          revert h
          decide

/-- The line of an edge tells its two ends, and what the one is to the other. -/
theorem edgeLine_injective : Function.Injective edgeLine := by
  rintro ⟨p, c, a⟩ ⟨q, d, b⟩ h
  have hlist := congrArg String.toList h
  rw [toList_edgeLine, toList_edgeLine] at hlist
  have hbracket : ∀ (role : Role), ∀ x ∈ (role.attributes.toList ++ ";\n".toList).head?,
      isDigit x = false := by
    intro role
    cases role with
    | statement i =>
        rw [toList_statement]
        intro x hx
        cases hx
        rfl
    | _ =>
        intro x hx
        cases hx
        rfl
  have harrow : ∀ (cs : List Char), ∀ x ∈ (" -> n".toList ++ cs).head?, isDigit x = false := by
    intro cs x hx
    cases hx
    rfl
  obtain ⟨hparent, hlist⟩ := toDigits_append_inj (harrow _) (harrow _)
    (List.append_cancel_left hlist)
  obtain ⟨hchild, hlist⟩ := toDigits_append_inj (hbracket a) (hbracket b)
    (List.append_cancel_left hlist)
  have hrole : a = b := attributes_injective (String.ext (List.append_cancel_right hlist))
  rw [NodeId.ext hparent, NodeId.ext hchild, hrole]

end Graph

namespace Tree

variable {t : Tree}

/-! ## Document order -/

/-- Whether a node is another one or below it. -/
def AtOrBelow (t : Tree) : NodeId → NodeId → Prop :=
  Relation.ReflTransGen fun c p => t.parent c = some p

/-- Whether a node comes before another one in a document: it is above it, or the two are at
or below different children of one node, of which its own comes first. -/
def Precedes (t : Tree) (m n : NodeId) : Prop :=
  t.IsBelow n m ∨
    ∃ p a b, [a, b].Sublist (t.children p) ∧ t.AtOrBelow m a ∧ t.AtOrBelow n b

theorem preorderAll_eq_flatMap (ss : List Subtree) :
    Subtree.preorderAll ss = ss.flatMap Subtree.preorder := by
  induction ss with
  | nil => rfl
  | cons s ss ih => rw [Subtree.preorderAll, List.flatMap_cons, ih]

/-- A node is listed before what is below its children, one child after the other. -/
theorem preorder_eq (hw : t.WellLinked) (n : NodeId) : (t.subtree n).preorder =
    n :: (t.children n).flatMap fun c => (t.subtree c).preorder := by
  rw [hw.subtree_eq, Subtree.preorder, preorderAll_eq_flatMap, List.flatMap_map]

theorem mem_preorder_iff_atOrBelow (hw : t.WellLinked) {n m : NodeId} :
    m ∈ (t.subtree n).preorder ↔ t.AtOrBelow m n := by
  rw [← (Subtree.postorder_perm_preorder _).mem_iff]
  exact mem_postorder_iff hw

theorem nodup_preorder (hw : t.WellLinked) (n : NodeId) : (t.subtree n).preorder.Nodup :=
  (Subtree.postorder_perm_preorder _).nodup_iff.1 (nodup_postorder hw n)

theorem pairwise_precedes (hw : t.WellLinked) (n : NodeId) :
    (t.subtree n).preorder.Pairwise t.Precedes := by
  induction n using hw.induction with
  | step n ih =>
      rw [preorder_eq hw, List.pairwise_cons, List.pairwise_flatMap]
      refine ⟨fun m hm => ?_, ih, ?_⟩
      · obtain ⟨c, hc, hm⟩ := List.mem_flatMap.1 hm
        exact .inl (Relation.TransGen.tail' ((mem_preorder_iff_atOrBelow hw).1 hm)
          (hw.parent_of_child hc))
      · refine List.pairwise_iff_forall_sublist.2 fun {a b} hab m hm m' hm' => ?_
        exact .inr ⟨n, a, b, hab, (mem_preorder_iff_atOrBelow hw).1 hm,
          (mem_preorder_iff_atOrBelow hw).1 hm'⟩

/-! ## Edges -/

/-- The edges that leave a node, one for each child. -/
def edgesFrom (t : Tree) (p : NodeId) : List Graph.Edge :=
  (t.children p).mapIdx fun index c => ⟨p, c, Graph.Role.ofChild (t.kind p) index⟩

theorem mem_edgesFrom {p : NodeId} {e : Graph.Edge} (h : e ∈ t.edgesFrom p) :
    e.parent = p ∧ e.child ∈ t.children p := by
  obtain ⟨index, hindex, rfl⟩ := List.mem_mapIdx.1 h
  exact ⟨rfl, List.getElem_mem hindex⟩

theorem map_child_edgesFrom (p : NodeId) : (t.edgesFrom p).map Graph.Edge.child = t.children p := by
  refine List.ext_getElem ?_ fun i _ _ => ?_
  · rw [List.length_map, edgesFrom, List.length_mapIdx]
  · simp only [edgesFrom, List.getElem_map, List.getElem_mapIdx]

theorem edgesAll_eq_flatMap (ss : List Subtree) :
    Graph.edgesAll ss = ss.flatMap Graph.edges := by
  induction ss with
  | nil => rfl
  | cons s ss ih => rw [Graph.edgesAll, List.flatMap_cons, ih]

theorem edges_eq (hw : t.WellLinked) (n : NodeId) : Graph.edges (t.subtree n) =
    t.edgesFrom n ++ (t.children n).flatMap fun c => Graph.edges (t.subtree c) := by
  have hid : ∀ c, (t.subtree c).id = c := fun c => by rw [hw.subtree_eq, Subtree.id]
  have hfrom : Graph.edgesOf n (t.kind n) ((t.children n).map t.subtree) = t.edgesFrom n := by
    refine List.ext_getElem ?_ fun i _ _ => ?_
    · rw [Graph.edgesOf, edgesFrom, List.length_mapIdx, List.length_mapIdx, List.length_map]
    · simp only [Graph.edgesOf, edgesFrom, List.getElem_mapIdx, List.getElem_map, hid]
  rw [hw.subtree_eq, Graph.edges, edgesAll_eq_flatMap, List.flatMap_map, hfrom]

/-- The edges below a node leave the nodes listed there, one node after the other. -/
theorem edges_eq_flatMap (hw : t.WellLinked) (n : NodeId) :
    Graph.edges (t.subtree n) = (t.subtree n).preorder.flatMap t.edgesFrom := by
  induction n using hw.induction with
  | step n ih =>
      rw [edges_eq hw, preorder_eq hw, List.flatMap_cons, List.flatMap_assoc]
      exact congrArg _ (List.flatMap_congr fun c hc => ih c hc)

/-- The children of the nodes listed below a node are these nodes, but for the first. -/
theorem flatMap_children_perm (hw : t.WellLinked) (n : NodeId) :
    ((t.subtree n).preorder.flatMap t.children).Perm (t.subtree n).preorder.tail := by
  induction n using hw.induction with
  | step n ih =>
      rw [preorder_eq hw, List.flatMap_cons, List.flatMap_assoc, List.tail_cons]
      have hbelow : ((t.children n).flatMap fun c =>
          (t.subtree c).preorder.flatMap t.children).Perm
            ((t.children n).flatMap fun c => (t.subtree c).preorder.tail) :=
        List.Perm.flatMap_left _ fun c hc => ih c hc
      have hsplit : (t.children n ++ (t.children n).flatMap fun c =>
          (t.subtree c).preorder.tail).Perm
            ((t.children n).flatMap fun c => [c] ++ (t.subtree c).preorder.tail) := by
        have h := List.flatMap_append_perm (t.children n) (fun c => [c])
          fun c => (t.subtree c).preorder.tail
        rwa [List.flatMap_singleton'] at h
      refine (hbelow.append_left _).trans (hsplit.trans ?_)
      refine .of_eq (List.flatMap_congr fun c _ => ?_)
      rw [preorder_eq hw]
      rfl

/-- Of nodes that are listed once, the edges that leave one of them. -/
theorem filter_flatMap_edgesFrom {ns : List NodeId} (hnodup : ns.Nodup) {p : NodeId} (hp : p ∈ ns) :
    (ns.flatMap t.edgesFrom).filter (·.parent = p) = t.edgesFrom p := by
  have hself : (t.edgesFrom p).filter (·.parent = p) = t.edgesFrom p :=
    List.filter_eq_self.2 fun e he => decide_eq_true (mem_edgesFrom he).1
  have hother : ∀ ms : List NodeId, p ∉ ms →
      (ms.flatMap t.edgesFrom).filter (·.parent = p) = [] := by
    intro ms hms
    refine List.filter_eq_nil_iff.2 fun e he hparent => ?_
    obtain ⟨m, hm, he⟩ := List.mem_flatMap.1 he
    obtain rfl := (mem_edgesFrom he).1.symm.trans (of_decide_eq_true hparent)
    exact hms hm
  obtain ⟨front, back, rfl⟩ := List.append_of_mem hp
  obtain ⟨_, hback, hdisjoint⟩ := List.nodup_append'.1 hnodup
  have hfront : p ∉ front := fun h => hdisjoint h List.mem_cons_self
  rw [List.flatMap_append, List.flatMap_cons, List.filter_append, List.filter_append,
    hother front hfront, hself, hother back (List.nodup_cons.1 hback).1, List.nil_append,
    List.append_nil]

/-! ## Drawings -/

/-- Whether nodes and edges are a drawing of a tree from its root down. -/
structure DrawnBy (t : Tree) (nodes : List NodeId) (edges : List Graph.Edge) : Prop where
  /-- A node is drawn if the way up from it leads to the root. -/
  mem_nodes : ∀ n, n ∈ nodes ↔ t.AtOrBelow n root
  nodup : nodes.Nodup
  inOrder : nodes.Pairwise t.Precedes
  /-- Edges come from parents, and these are drawn. -/
  parent : ∀ e ∈ edges, e.parent ∈ nodes ∧ t.parent e.child = some e.parent
  /-- There is one edge to each node but the root. -/
  children : (edges.map Graph.Edge.child).Perm (nodes.erase root)
  length : edges.length + 1 = nodes.length
  /-- The edges that leave the root or a block are numbered. -/
  statements : ∀ p ∈ nodes, (t.kind p).ownedScope.isSome →
    edges.filter (·.parent = p) = (t.children p).mapIdx fun i c => ⟨p, c, .statement i⟩
  operands : ∀ p ∈ nodes, ∀ operator lhs rhs, t.kind p = .operation operator →
    t.children p = [lhs, rhs] →
      edges.filter (·.parent = p) = [⟨p, lhs, .lhs⟩, ⟨p, rhs, .rhs⟩]

namespace DrawnBy

variable {nodes : List NodeId} {edges : List Graph.Edge}

/-- Two nodes are joined by a line if the one is drawn and is the parent of the other. -/
theorem exists_line_iff (h : t.DrawnBy nodes edges) (hw : t.WellLinked) {p c : NodeId} :
    (∃ role, Graph.edgeLine ⟨p, c, role⟩ ∈ edges.map Graph.edgeLine) ↔
      p ∈ nodes ∧ t.parent c = some p := by
  constructor
  · rintro ⟨role, hline⟩
    exact h.parent _ ((List.mem_map_of_injective Graph.edgeLine_injective).1 hline)
  · rintro ⟨hp, hparent⟩
    have hup := (h.mem_nodes p).1 hp
    have hroot : c ≠ root := by
      rintro rfl
      exact hw.acyclic root (Relation.TransGen.head' hparent hup)
    have hc : c ∈ nodes.erase root :=
      (List.mem_erase_of_ne hroot).2 ((h.mem_nodes c).2 (.head hparent hup))
    obtain ⟨⟨q, d, role⟩, he, rfl⟩ := List.mem_map.1 (h.children.mem_iff.2 hc)
    obtain rfl : q = p := Option.some.inj ((h.parent _ he).2.symm.trans hparent)
    exact ⟨role, List.mem_map_of_mem he⟩

theorem statement_lines (h : t.DrawnBy nodes edges) {p : NodeId} (hp : p ∈ nodes)
    (howned : (t.kind p).ownedScope.isSome) :
    (edges.filter (·.parent = p)).map Graph.edgeLine = (t.children p).mapIdx fun i c =>
      s!"    n{p.index} -> n{c.index}" ++ s!"[label=<stmt <b>{i}</b>>][style=\"dashed\"]" ++
        ";\n" := by
  rw [h.statements p hp howned]
  refine List.ext_getElem ?_ fun i _ _ => ?_
  · rw [List.length_map, List.length_mapIdx, List.length_mapIdx]
  · rw [List.getElem_map, List.getElem_mapIdx, List.getElem_mapIdx, Graph.edgeLine_eq]

theorem operand_lines (h : t.DrawnBy nodes edges) {p lhs rhs : NodeId} (hp : p ∈ nodes)
    {operator : Operator} (hkind : t.kind p = .operation operator)
    (hchildren : t.children p = [lhs, rhs]) :
    (edges.filter (·.parent = p)).map Graph.edgeLine =
      [s!"    n{p.index} -> n{lhs.index}" ++ "[label=\"lhs\"]" ++ ";\n",
        s!"    n{p.index} -> n{rhs.index}" ++ "[label=\"rhs\"]" ++ ";\n"] := by
  rw [h.operands p hp operator lhs rhs hkind hchildren, List.map_cons, List.map_singleton,
    Graph.edgeLine_eq, Graph.edgeLine_eq]

end DrawnBy

/-- What is drawn of a tree whose links are in order is the tree below its root. -/
theorem graph_drawnBy (hw : t.WellLinked) :
    t.graph = "digraph ast \x7b\n" ++
      String.join ((t.subtree root).preorder.map (Graph.nodeLine t)) ++
      String.join ((Graph.edges (t.subtree root)).map Graph.edgeLine) ++ "\x7d\n" ∧
    t.DrawnBy (t.subtree root).preorder (Graph.edges (t.subtree root)) := by
  have hnodup := nodup_preorder hw root
  have hedges := edges_eq_flatMap hw root
  have hfrom := fun p hp => filter_flatMap_edgesFrom (t := t) hnodup (p := p) hp
  rw [← hedges] at hfrom
  have hchildren : ((Graph.edges (t.subtree root)).map Graph.Edge.child).Perm
      (t.subtree root).preorder.tail := by
    rw [hedges, List.map_flatMap]
    simp only [map_child_edgesFrom]
    exact flatMap_children_perm hw root
  refine ⟨rfl, fun n => mem_preorder_iff_atOrBelow hw, hnodup, pairwise_precedes hw root, ?_, ?_,
    ?_, ?_, ?_⟩
  · intro e he
    rw [hedges] at he
    obtain ⟨p, hp, he⟩ := List.mem_flatMap.1 he
    obtain ⟨rfl, hchild⟩ := mem_edgesFrom he
    exact ⟨hp, hw.parent_of_child hchild⟩
  · rw [preorder_eq hw] at hchildren ⊢
    rwa [List.erase_cons_head]
  · rw [← List.length_map Graph.Edge.child, hchildren.length_eq, preorder_eq hw]
    rfl
  · intro p hp howned
    have hrole : ∀ i, Graph.Role.ofChild (t.kind p) i = .statement i := by
      intro i
      cases hkind : t.kind p with
      | root scope => rfl
      | block scope => rfl
      | _ =>
          rw [hkind] at howned
          cases howned
    rw [hfrom p hp, edgesFrom]
    simp only [hrole]
  · intro p hp operator lhs rhs hkind htwo
    rw [hfrom p hp, edgesFrom, hkind, htwo]
    rfl

/-- A sum that was replaced by its value is not drawn, nor is what is below it. -/
theorem graph_drawnBy_replaced :
    ∃ t nodes edges, ofSource "set a = x - (2 + 3)\n\x7b b \x7d" = .ok t ∧
      (t.replaceByValue ⟨4⟩ (.integer 5)).2.WellLinked ∧
      (t.replaceByValue ⟨4⟩ (.integer 5)).2.size = 15 ∧
      nodes = [root, ⟨8⟩, ⟨7⟩, ⟨6⟩, ⟨5⟩, ⟨1⟩, ⟨14⟩, ⟨13⟩, ⟨12⟩, ⟨11⟩, ⟨10⟩, ⟨9⟩] ∧
      edges = [⟨root, ⟨8⟩, .statement 0⟩, ⟨root, ⟨13⟩, .statement 1⟩, ⟨⟨8⟩, ⟨7⟩, .content⟩,
        ⟨⟨7⟩, ⟨6⟩, .assignedValue⟩, ⟨⟨6⟩, ⟨5⟩, .content⟩, ⟨⟨5⟩, ⟨1⟩, .lhs⟩, ⟨⟨5⟩, ⟨14⟩, .rhs⟩,
        ⟨⟨13⟩, ⟨12⟩, .content⟩, ⟨⟨12⟩, ⟨11⟩, .statement 0⟩, ⟨⟨11⟩, ⟨10⟩, .content⟩,
        ⟨⟨10⟩, ⟨9⟩, .content⟩] ∧
      (t.replaceByValue ⟨4⟩ (.integer 5)).2.DrawnBy nodes edges := by
  have hcheck : (ofSource "set a = x - (2 + 3)\n\x7b b \x7d").toOption.any (fun t =>
      let u := (t.replaceByValue ⟨4⟩ (.integer 5)).2
      u.size = 15 ∧
      (u.subtree root).preorder =
        [root, ⟨8⟩, ⟨7⟩, ⟨6⟩, ⟨5⟩, ⟨1⟩, ⟨14⟩, ⟨13⟩, ⟨12⟩, ⟨11⟩, ⟨10⟩, ⟨9⟩] ∧
      Graph.edges (u.subtree root) =
        [⟨root, ⟨8⟩, .statement 0⟩, ⟨root, ⟨13⟩, .statement 1⟩, ⟨⟨8⟩, ⟨7⟩, .content⟩,
          ⟨⟨7⟩, ⟨6⟩, .assignedValue⟩, ⟨⟨6⟩, ⟨5⟩, .content⟩, ⟨⟨5⟩, ⟨1⟩, .lhs⟩, ⟨⟨5⟩, ⟨14⟩, .rhs⟩,
          ⟨⟨13⟩, ⟨12⟩, .content⟩, ⟨⟨12⟩, ⟨11⟩, .statement 0⟩, ⟨⟨11⟩, ⟨10⟩, .content⟩,
          ⟨⟨10⟩, ⟨9⟩, .content⟩]) = true := by decide +kernel
  obtain ⟨t, ht, hfacts⟩ := exists_of_checked hcheck
  obtain ⟨hsize, hnodes, hedges⟩ := of_decide_eq_true hfacts
  have hw := wellLinked_replaceByValue (wellLinked_of_ofSource ht) ⟨4⟩ (.integer 5)
  exact ⟨t, _, _, ht, hw, hsize, hnodes, hedges, (graph_drawnBy hw).2⟩

end Tree

end Lindenmayer
