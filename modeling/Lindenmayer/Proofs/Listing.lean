import Lindenmayer.Proofs.Definitions

/-!
# Nodes in document order

What is first in a source is first in the preorder of its tree. A `listing` is
that order for several nodes at once, each with what it stands for, so that it
can be searched without looking at a tree again. While a tree grows, a listing
grows with it: what is planted second is listed second, and a node that is put
on top is listed before all that is below it.
-/

namespace Lindenmayer

namespace Subtree

theorem mem_preorderAll {n : NodeId} {ss : List Subtree} :
    n ∈ preorderAll ss ↔ ∃ s ∈ ss, n ∈ s.preorder := by
  induction ss with
  | nil => simp [preorderAll]
  | cons s more ih => simp [preorderAll, ih]

theorem preorderAll_append (ss more : List Subtree) :
    preorderAll (ss ++ more) = preorderAll ss ++ preorderAll more := by
  induction ss with
  | nil => rfl
  | cons s ss ih => rw [List.cons_append, preorderAll, preorderAll, ih, List.append_assoc]

/-- So many names in a row. -/
def namesFrom (next count : Nat) : List NodeId := (List.range' next count).map NodeId.mk

theorem namesFrom_succ (next count : Nat) :
    namesFrom next (count + 1) = ⟨next⟩ :: namesFrom (next + 1) count := rfl

theorem namesFrom_add (next count more : Nat) :
    namesFrom next (count + more) = namesFrom next count ++ namesFrom (next + count) more := by
  rw [namesFrom, namesFrom, namesFrom, ← List.map_append, List.range'_append_1]

theorem namesFrom_concat (next count : Nat) :
    namesFrom next (count + 1) = namesFrom next count ++ [⟨next + count⟩] :=
  namesFrom_add next count 1

end Subtree

namespace Tree

variable {t t' t'' : Tree} {ns ms : List NodeId}

/-- The nodes below a node are those that links lead to from it. -/
theorem mem_preorder_iff (hw : t.WellLinked) {n m : NodeId} : m ∈ (t.subtree n).preorder ↔
    Relation.ReflTransGen (fun p c => c ∈ t.children p) n m := by
  constructor
  · intro h
    induction n using hw.induction with
    | step n ih =>
        rw [hw.subtree_eq, Subtree.preorder] at h
        rcases List.mem_cons.1 h with rfl | h
        · exact .refl
        · obtain ⟨s, hs, hm⟩ := Subtree.mem_preorderAll.1 h
          obtain ⟨c, hc, rfl⟩ := List.mem_map.1 hs
          exact .head hc (ih c hc hm)
  · intro h
    induction h using Relation.ReflTransGen.head_induction_on with
    | refl =>
        rw [hw.subtree_eq, Subtree.preorder]
        exact List.mem_cons_self
    | head hc _ ih =>
        rw [hw.subtree_eq, Subtree.preorder]
        exact List.mem_cons_of_mem _ (Subtree.mem_preorderAll.2 ⟨_, List.mem_map_of_mem hc, ih⟩)

theorem mem_preorder_self (hw : t.WellLinked) (n : NodeId) : n ∈ (t.subtree n).preorder :=
  (mem_preorder_iff hw).2 .refl

theorem mem_preorder_of_child (hw : t.WellLinked) {n m c : NodeId}
    (hm : m ∈ (t.subtree n).preorder) (hc : c ∈ t.children m) : c ∈ (t.subtree n).preorder :=
  (mem_preorder_iff hw).2 (((mem_preorder_iff hw).1 hm).tail hc)

/-- What is so of a node and of the children of each node of which it is so is so of all that is
below the node. -/
theorem forall_mem_preorder {P : NodeId → Prop} (hw : t.WellLinked) {n : NodeId} (hn : P n)
    (hchild : ∀ q, P q → ∀ c ∈ t.children q, P c) : ∀ m ∈ (t.subtree n).preorder, P m := by
  intro m hm
  induction (mem_preorder_iff hw).1 hm with
  | refl => exact hn
  | tail hq hc ih => exact hchild _ (ih ((mem_preorder_iff hw).2 hq)) _ hc

theorem lt_of_mem_preorder (hw : t.WellLinked) {n m : NodeId} (hn : n.index < t.size)
    (hm : m ∈ (t.subtree n).preorder) : m.index < t.size :=
  forall_mem_preorder hw hn (fun _ _ _ hc => hw.child_lt hc) m hm

/-- Nodes with all that is below them, in document order, and what each stands
for. -/
def listing (t : Tree) (ns : List NodeId) : List (NodeId × NodeKind) :=
  (Subtree.preorderAll (ns.map t.subtree)).map fun n => (n, t.kind n)

theorem listing_withScopes (scopes : Scopes) (ns : List NodeId) :
    { t with scopes }.listing ns = t.listing ns := by
  rw [listing, List.map_congr_left fun n _ => subtree_withScopes scopes n]
  rfl

theorem listing_root :
    t.listing [root] = (t.subtree root).preorder.map fun n => (n, t.kind n) := by
  rw [listing, List.map_singleton, Subtree.preorderAll, Subtree.preorderAll, List.append_nil]

/-- What is found first is what is listed first. -/
theorem head?_find (p : NodeKind → Bool) :
    (t.find p).head? = ((t.listing [root]).find? fun e => p e.2).map Prod.fst := by
  rw [find_eq, List.head?_filter, listing_root, List.find?_map, Option.map_map]
  exact Option.map_id'.symm

namespace Planted

theorem lt_of_mem_preorderAll (h : Planted t t' ns) {m : NodeId}
    (hm : m ∈ Subtree.preorderAll (ns.map t'.subtree)) : m.index < t'.size := by
  obtain ⟨s, hs, hm⟩ := Subtree.mem_preorderAll.1 hm
  obtain ⟨n, hn, rfl⟩ := List.mem_map.1 hs
  exact lt_of_mem_preorder h.wellLinked (h.lt n hn) hm

theorem listing_append (h : Planted t t' ns) (h' : Planted t' t'' ms) :
    t''.listing (ns ++ ms) = t'.listing ns ++ t''.listing ms := by
  have hkeep : ns.map t''.subtree = ns.map t'.subtree :=
    List.map_congr_left fun n hn => h'.subtree_eq h.wellLinked (h.lt n hn)
  have hkind : ∀ n ∈ Subtree.preorderAll (ns.map t'.subtree), (n, t''.kind n) = (n, t'.kind n) :=
    fun n hn => congrArg (n, ·) (congrArg Node.kind (h'.frame n (h.lt_of_mem_preorderAll hn)))
  rw [listing, List.map_append, Subtree.preorderAll_append, List.map_append, hkeep,
    List.map_congr_left hkind]
  rfl

theorem listing_wrap (h : Planted t t' ns) (kind : NodeKind) (region : Region) :
    ((t'.newNode kind region).2.addChildren ⟨t'.size⟩ ns).listing [⟨t'.size⟩] =
      (⟨t'.size⟩, kind) :: t'.listing ns := by
  rw [listing, List.map_singleton, (h.wrap kind region).2, Subtree.preorderAll, Subtree.preorder,
    Subtree.preorderAll, List.append_nil, List.map_cons, (h.wrap_self kind region).1]
  congr 1
  exact List.map_congr_left fun n hn =>
    congrArg (n, ·) (h.wrap_of_lt kind region (h.lt_of_mem_preorderAll hn)).1

theorem listing_newNode (hw : t.WellLinked) (kind : NodeKind) (region : Region) :
    (t.newNode kind region).2.listing [⟨t.size⟩] = [(⟨t.size⟩, kind)] :=
  (refl hw).listing_wrap kind region

theorem listing_addChildren_root (h : Planted empty t ns) :
    (t.addChildren root ns).listing [root] = (root, .root Scopes.global) :: t.listing ns := by
  have hkind := fun m => (h.addChildren_root.2 m).1
  rw [Tree.listing_root, h.subtree_root, Subtree.preorder, List.map_cons, hkind, kind, h.node_root]
  congr 1
  exact List.map_congr_left fun n _ => congrArg (n, ·) (hkind n)

end Planted

end Tree

end Lindenmayer
