import Lindenmayer.Proofs.Listing
import Lindenmayer.Tree.Rewriting

/-!
# Walks that change the tree visit what was there before

A rewriting walk reads the children of a node when it comes to the node, and by then it has
visited others, which may have changed anything. So nothing says outright which nodes it
visits. But what visitors do is to change the place of the node they are given, and that is
a matter of one list of children, that of the parent (`Local`). Whenever the walk comes to a
node, nothing below it was visited, and so all the lists below it are those of before.

From this the walk is the visit of a list of nodes: the postorder of the subtree as it was
(`rewritePostOrder_eq`). Depth and tree are gone, and what is proved of such a walk is
proved by induction over the list. No node is in it twice (`nodup_postorder`).
-/

namespace Lindenmayer

namespace Subtree

mutual

theorem postorder_perm_preorder (s : Subtree) : s.postorder.Perm s.preorder := by
  match s with
  | node id kind region children =>
      rw [postorder, preorder]
      exact List.perm_append_singleton id _ |>.trans
        (List.Perm.cons id (postorderAll_perm_preorderAll children))

theorem postorderAll_perm_preorderAll (ss : List Subtree) :
    (postorderAll ss).Perm (preorderAll ss) := by
  match ss with
  | [] => exact .refl _
  | s :: more =>
      rw [postorderAll, preorderAll]
      exact (postorder_perm_preorder s).append (postorderAll_perm_preorderAll more)

end

theorem mem_postorderAll {n : NodeId} {ss : List Subtree} :
    n ∈ postorderAll ss ↔ ∃ s ∈ ss, n ∈ s.postorder := by
  rw [(postorderAll_perm_preorderAll ss).mem_iff, mem_preorderAll]
  exact exists_congr fun s => and_congr_right fun _ => (postorder_perm_preorder s).mem_iff.symm

end Subtree

namespace Tree

variable {t : Tree}

/-! ## The nodes below a node -/

/-- The nodes below a node are those from which the way up leads to it. -/
theorem mem_postorder_iff (hw : t.WellLinked) {n m : NodeId} : m ∈ (t.subtree n).postorder ↔
    Relation.ReflTransGen (fun c p => t.parent c = some p) m n := by
  have hlinks : (fun p c => c ∈ t.children p) =
      Function.swap fun c p : NodeId => t.parent c = some p := by
    funext p c
    exact propext ⟨hw.parent_of_child, hw.child_of_parent⟩
  rw [(Subtree.postorder_perm_preorder _).mem_iff, mem_preorder_iff hw, hlinks,
    Relation.reflTransGen_swap]

theorem mem_postorder_of_child (hw : t.WellLinked) {n q c : NodeId}
    (hq : q ∈ (t.subtree n).postorder) (hc : c ∈ t.children q) : c ∈ (t.subtree n).postorder :=
  (mem_postorder_iff hw).2 (((mem_postorder_iff hw).1 hq).head (hw.parent_of_child hc))

theorem postorder_eq (hw : t.WellLinked) (n : NodeId) : (t.subtree n).postorder =
    Subtree.postorderAll ((t.children n).map t.subtree) ++ [n] := by
  rw [hw.subtree_eq, Subtree.postorder]

/-- Where two nodes are above one, and the first of them is a child, the second is at or below
this child, or at or above its parent. -/
theorem above_cases (hw : t.WellLinked) {n c m a : NodeId} (hc : c ∈ t.children n)
    (hm : Relation.ReflTransGen (fun c p => t.parent c = some p) m c)
    (ha : Relation.ReflTransGen (fun c p => t.parent c = some p) m a) :
    Relation.ReflTransGen (fun c p => t.parent c = some p) a c ∨
      Relation.ReflTransGen (fun c p => t.parent c = some p) n a := by
  have hunique : Relator.RightUnique fun b p : NodeId => t.parent b = some p :=
    fun _ _ _ hp hp' => Option.some.inj (hp.symm.trans hp')
  rcases Relation.ReflTransGen.total_of_right_unique hunique ha hm with h | h
  · exact .inl h
  · rcases h.cases_head with rfl | ⟨p, hp, hpa⟩
    · exact .inl .refl
    · obtain rfl : n = p := Option.some.inj ((hw.parent_of_child hc).symm.trans hp)
      exact .inr hpa

/-- No node is below two children of one node. -/
theorem eq_of_siblings (hw : t.WellLinked) {n c c' m : NodeId} (hc : c ∈ t.children n)
    (hc' : c' ∈ t.children n) (hm : m ∈ (t.subtree c).postorder)
    (hm' : m ∈ (t.subtree c').postorder) : c = c' := by
  rcases above_cases hw hc ((mem_postorder_iff hw).1 hm) ((mem_postorder_iff hw).1 hm') with h | h
  · rcases h.cases_head with heq | ⟨p, hp, hpc⟩
    · exact heq.symm
    · obtain rfl : n = p := Option.some.inj ((hw.parent_of_child hc').symm.trans hp)
      exact absurd (Relation.TransGen.tail' hpc (hw.parent_of_child hc)) (hw.acyclic n)
  · exact absurd (Relation.TransGen.tail' h (hw.parent_of_child hc')) (hw.acyclic n)

/-- If no node is twice below one child, none is twice below several. -/
theorem nodup_postorderAll (hw : t.WellLinked) {n : NodeId}
    (h : ∀ c ∈ t.children n, (t.subtree c).postorder.Nodup) {cs : List NodeId}
    (hsub : cs ⊆ t.children n) (hnodup : cs.Nodup) :
    (Subtree.postorderAll (cs.map t.subtree)).Nodup := by
  induction cs with
  | nil => exact List.nodup_nil
  | cons c cs ih =>
      obtain ⟨hc, hsub⟩ := List.cons_subset.1 hsub
      obtain ⟨hfirst, hnodup⟩ := List.nodup_cons.1 hnodup
      refine List.Nodup.append (h c hc) (ih hsub hnodup) fun m hm hm' => ?_
      obtain ⟨s, hs, hm'⟩ := Subtree.mem_postorderAll.1 hm'
      obtain ⟨c', hc', rfl⟩ := List.mem_map.1 hs
      obtain rfl := eq_of_siblings hw hc (hsub hc') hm hm'
      exact hfirst hc'

/-- A postorder has every node once. -/
theorem nodup_postorder (hw : t.WellLinked) (n : NodeId) : (t.subtree n).postorder.Nodup := by
  induction n using hw.induction with
  | step n ih =>
      rw [postorder_eq hw]
      refine List.Nodup.append (nodup_postorderAll hw ih (List.Subset.refl _) (hw.nodup n))
        (List.nodup_singleton n) fun m hm hself => ?_
      obtain rfl := List.mem_singleton.1 hself
      obtain ⟨s, hs, hm⟩ := Subtree.mem_postorderAll.1 hm
      obtain ⟨c, hc, rfl⟩ := List.mem_map.1 hs
      exact hw.acyclic m (Relation.TransGen.tail' ((mem_postorder_iff hw).1 hm)
        (hw.parent_of_child hc))

/-! ## Visits of a list of nodes -/

variable {ε σ : Type} {visit : Visitor ε σ}

theorem rewriteAll_append (walk : Visitor ε σ) (ms ns : List NodeId) (u : Tree) (state : σ) :
    rewriteAll walk (ms ++ ns) u state =
      match rewriteAll walk ms u state with
      | (.ok .stop, u, state) => (.ok .stop, u, state)
      | (.ok _, u, state) => rewriteAll walk ns u state
      | (.error e, u, state) => (.error e, u, state) := by
  induction ms generalizing u state with
  | nil => rfl
  | cons m ms ih =>
      rw [List.cons_append, rewriteAll, rewriteAll]
      rcases walk m u state with ⟨e | flow, u', state'⟩
      · rfl
      · cases flow with
        | onward => exact ih u' state'
        | skipChildren => exact ih u' state'
        | stop => rfl

/-- What every visit keeps the visit of a list keeps, also one that ends early. -/
theorem rewriteAll_keeps {P : Tree → Prop} {ms : List NodeId}
    (hvisit : ∀ m ∈ ms, ∀ u state, P u → P (visit m u state).2.1) {u : Tree} {state : σ}
    (hu : P u) : P (rewriteAll visit ms u state).2.1 := by
  induction ms generalizing u state with
  | nil => exact hu
  | cons m ms ih =>
      have hm := hvisit m List.mem_cons_self u state hu
      have hrest := @ih fun m' hm' => hvisit m' (List.mem_cons_of_mem m hm')
      rw [rewriteAll]
      generalize visit m u state = answer at hm
      rcases answer with ⟨e | flow, u', state'⟩
      · exact hm
      · cases flow with
        | onward => exact hrest hm
        | skipChildren => exact hrest hm
        | stop => exact hm

/-- Whether a visitor changes no list of children but that of the parent of the node it is
given, as the tree `t` has it. This is asked at the nodes `V` only, and may hang on a property
of the tree which the visitor keeps. -/
structure Local (t : Tree) (V : NodeId → Prop) (P : Tree → Prop) (visit : Visitor ε σ) :
    Prop where
  keeps : ∀ {m u} state, V m → P u → P (visit m u state).2.1
  children : ∀ {m u q} state, V m → P u → m ∉ t.children q →
    (visit m u state).2.1.children q = u.children q

namespace Local

variable {V : NodeId → Prop} {P : Tree → Prop} {u : Tree} {state : σ}

/-- Nodes that have none of the visited ones for a child keep their children. -/
theorem children_rewriteAll (h : Local t V P visit) {ms : List NodeId} (hV : ∀ m ∈ ms, V m)
    (hu : P u) {q : NodeId} (hq : ∀ m ∈ ms, m ∉ t.children q) :
    (rewriteAll visit ms u state).2.1.children q = u.children q := by
  refine (rewriteAll_keeps (P := fun u' => P u' ∧ u'.children q = u.children q)
    (fun m hm u' state' hu' => ⟨h.keeps state' (hV m hm) hu'.1, ?_⟩) ⟨hu, rfl⟩).2
  exact (h.children state' (hV m hm) hu'.1 (hq m hm)).trans hu'.2

/-- A walk that visits what is below each node, as it was, also does so for several. -/
theorem rewriteAll_of_each (h : Local t V P visit) (hw : t.WellLinked) {walk : Visitor ε σ}
    {ns : List NodeId} (state : σ)
    (hwalk : ∀ n ∈ ns, ∀ u state, P u →
      (∀ q ∈ (t.subtree n).postorder, u.children q = t.children q) →
      rewriteAll walk [n] u state = rewriteAll visit (t.subtree n).postorder u state)
    (hnodup : (Subtree.postorderAll (ns.map t.subtree)).Nodup)
    (hV : ∀ m ∈ Subtree.postorderAll (ns.map t.subtree), V m) (hu : P u)
    (hsame : ∀ q ∈ Subtree.postorderAll (ns.map t.subtree), u.children q = t.children q) :
    rewriteAll walk ns u state =
      rewriteAll visit (Subtree.postorderAll (ns.map t.subtree)) u state := by
  induction ns generalizing u state with
  | nil => rfl
  | cons n ns ih =>
      rw [List.map_cons, Subtree.postorderAll] at hnodup hV hsame ⊢
      have hVn := fun m hm => hV m (List.mem_append_left _ hm)
      have hsameN := fun q hq => hsame q (List.mem_append_left _ hq)
      obtain ⟨_, hnodup, hdisjoint⟩ := List.nodup_append'.1 hnodup
      have hPn : P (rewriteAll visit (t.subtree n).postorder u state).2.1 :=
        rewriteAll_keeps (fun m hm _ state' hu' => h.keeps state' (hVn m hm) hu') hu
      -- What is below the other nodes has no child below the first one.
      have hsameRest : ∀ q ∈ Subtree.postorderAll (ns.map t.subtree),
          (rewriteAll visit (t.subtree n).postorder u state).2.1.children q = t.children q := by
        intro q hq
        rw [h.children_rewriteAll hVn hu fun m hm hmq => hdisjoint hm ?_]
        · exact hsame q (List.mem_append_right _ hq)
        · obtain ⟨s, hs, hqs⟩ := Subtree.mem_postorderAll.1 hq
          obtain ⟨n', _, rfl⟩ := List.mem_map.1 hs
          exact Subtree.mem_postorderAll.2 ⟨_, hs, mem_postorder_of_child hw hqs hmq⟩
      have hrest := fun state' =>
        ih state' (fun n' hn' => hwalk n' (List.mem_cons_of_mem n hn')) hnodup
          (fun m hm => hV m (List.mem_append_right _ hm)) hPn hsameRest
      have hfirst := hwalk n List.mem_cons_self u state hu hsameN
      rw [← List.singleton_append, rewriteAll_append, rewriteAll_append, hfirst]
      generalize rewriteAll visit (t.subtree n).postorder u state = answer at hrest
      rcases answer with ⟨e | flow, u', state'⟩
      · rfl
      · cases flow with
        | onward => exact hrest state'
        | skipChildren => exact hrest state'
        | stop => rfl

/-- A walk below a node that is deep enough visits its postorder. -/
theorem rewriteAll_rewriteWithin (h : Local t V P visit) (hw : t.WellLinked) (depth : Nat)
    (n : NodeId) (hdepth : t.rank n ≤ depth) (hV : ∀ m ∈ (t.subtree n).postorder, V m)
    (hu : P u) (hsame : ∀ q ∈ (t.subtree n).postorder, u.children q = t.children q) (state : σ) :
    rewriteAll (rewriteWithin visit depth) [n] u state =
      rewriteAll visit (t.subtree n).postorder u state := by
  induction depth generalizing n u state with
  | zero =>
      rw [postorder_eq hw, hw.children_eq_nil hdepth]
      rfl
  | succ depth ih =>
      have hpost := postorder_eq hw n
      have hnodup := nodup_postorder hw n
      rw [hpost] at hV hsame hnodup ⊢
      have hbelow := h.rewriteAll_of_each hw state
        (fun c hc u' state' hu' hsame' => ih c (by have := hw.rank_child_lt hc; omega)
          (fun m hm => hV m (List.mem_append_left _
            (Subtree.mem_postorderAll.2 ⟨_, List.mem_map_of_mem hc, hm⟩))) hu' hsame' state')
        (List.nodup_append'.1 hnodup).1 (fun m hm => hV m (List.mem_append_left _ hm)) hu
        (fun q hq => hsame q (List.mem_append_left _ hq))
      rw [rewriteAll_append, rewriteAll, rewriteWithin,
        hsame n (List.mem_append_right _ List.mem_cons_self), hbelow]
      generalize rewriteAll visit (Subtree.postorderAll ((t.children n).map t.subtree)) u state =
        answer
      rcases answer with ⟨e | flow, u', state'⟩
      · rfl
      · cases flow with
        | onward => rfl
        | skipChildren => rfl
        | stop => rfl

end Local

/-- A walk visits the nodes that were below the first one before it began, one after the
other. -/
theorem rewritePostOrder_eq {V : NodeId → Prop} {P : Tree → Prop} (h : Local t V P visit)
    (hw : t.WellLinked) (n : NodeId) (hV : ∀ m ∈ (t.subtree n).postorder, V m) (ht : P t)
    (state : σ) : t.rewritePostOrder visit n state =
      match rewriteAll visit (t.subtree n).postorder t state with
      | (.ok _, u, state) => (.ok (), u, state)
      | (.error e, u, state) => (.error e, u, state) := by
  have hwalk := h.rewriteAll_rewriteWithin hw t.size n (t.rank_le_size n) hV ht
    (fun _ _ => rfl) state
  rw [rewritePostOrder, ← hwalk, rewriteAll]
  rcases rewriteWithin visit t.size n t state with ⟨e | flow, u', state'⟩
  · rfl
  · cases flow with
    | onward => rfl
    | skipChildren => rfl
    | stop => rfl

end Tree

end Lindenmayer
