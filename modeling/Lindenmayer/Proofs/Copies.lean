import Lindenmayer.Proofs.Content
import Lindenmayer.Proofs.Exchange
import Lindenmayer.Proofs.Folded

/-!
# Copies are faithful and stand apart

To make a copy the tree is read while it grows: the nodes below the copied one are looked at in
turn, and by then others were made and attached. `copyWithin` does just that, and comes to the
same as reading the whole subtree first and planting it anew (`copyWithin_eq`), since planting
leaves the older nodes alone.

What is planted is the subtree with other names, those that come next in document order
(`graft_spec`). That is all there is to say about it: printing, evaluating and typing do not
look at the names.

As to being independent, nodes that have among them all that is below them are not changed by
what happens to others (`Beside.spares`). The nodes of the copy are others, being new, and they
stay others: a fold only adds literals to what is below a copy, and a replacement only what is
below the node that takes the place (`Reworks.beside`). So the one thing to avoid is to put a
node into the copy that is above what was copied, and to fold the copy then.
-/

namespace Lindenmayer

namespace Subtree

/-! ## The same but for the names of nodes -/

mutual

/-- Whether two subtrees are the same but for the names of their nodes. -/
def Isomorphic : Subtree → Subtree → Prop
  | node _ kind region children, node _ kind' region' children' =>
    kind' = kind ∧ region' = region ∧ AllIsomorphic children children'

def AllIsomorphic : List Subtree → List Subtree → Prop
  | [], [] => True
  | s :: more, s' :: more' => s.Isomorphic s' ∧ AllIsomorphic more more'
  | [], _ :: _ => False
  | _ :: _, [] => False

end

mutual

theorem Isomorphic.content_eq {s s' : Subtree} (h : s.Isomorphic s') : s'.content = s.content := by
  match s, s' with
  | node _ kind region children, node _ kind' region' children' =>
      rw [Isomorphic] at h
      obtain ⟨rfl, _, hchildren⟩ := h
      rw [content, content, hchildren.content_eq]

theorem AllIsomorphic.content_eq {ss ss' : List Subtree} (h : AllIsomorphic ss ss') :
    contentAll ss' = contentAll ss := by
  match ss, ss' with
  | [], [] => rfl
  | s :: more, s' :: more' =>
      rw [AllIsomorphic] at h
      rw [contentAll, contentAll, h.1.content_eq, h.2.content_eq]

end

section TypeOf

variable (lookup : ScopeId → String → Except EvalError Value)
  (declared : ScopeId → String → ValueType)

mutual

theorem typeOf_content (s : Subtree) :
    s.content.typeOf lookup declared = s.typeOf lookup declared := by
  match s with
  | node id kind region children =>
      rw [content, typeOf_node, typeOf_node, map_typeOf_contentAll children]

theorem map_typeOf_contentAll (ss : List Subtree) :
    (contentAll ss).map (typeOf lookup declared) = ss.map (typeOf lookup declared) := by
  match ss with
  | [] => rfl
  | s :: more =>
      rw [contentAll, List.map_cons, List.map_cons, typeOf_content s, map_typeOf_contentAll more]

end

end TypeOf

theorem needsParens_content (around : Operator) (onRight : Bool) (s : Subtree) :
    needsParens around onRight s.content = needsParens around onRight s := by
  cases s with
  | node id kind region children => cases kind <;> rfl

mutual

theorem print_content (depth : Nat) (s : Subtree) : s.content.print depth = s.print depth := by
  match s with
  | node id kind region children =>
      have hall := printAll_content depth children
      cases kind with
      | root => exact printStatements_content depth children
      | statement => exact hall
      | expression => exact hall
      | assignment name _ => rw [content, print, print, hall]
      | rule => rfl
      | block => rw [content, print, print, printStatements_content (depth + 1) children]
      | operation operator => exact printOperation_content depth operator children
      | identifier => rfl
      | number => rfl
      | string => rfl

theorem printAll_content (depth : Nat) (ss : List Subtree) :
    printAll depth (contentAll ss) = printAll depth ss := by
  match ss with
  | [] => rfl
  | s :: more =>
      rw [contentAll, printAll, printAll, print_content depth s, printAll_content depth more]

theorem printStatements_content (depth : Nat) (ss : List Subtree) :
    printStatements depth (contentAll ss) = printStatements depth ss := by
  match ss with
  | [] => rfl
  | [s] => rw [contentAll, contentAll, printStatements, printStatements, print_content depth s]
  | s :: s' :: more =>
      have hmore := printStatements_content depth (s' :: more)
      rw [contentAll] at hmore
      rw [contentAll, contentAll, printStatements, printStatements, print_content depth s, hmore]

theorem printOperation_content (depth : Nat) (operator : Operator) (ss : List Subtree) :
    printOperation depth operator (contentAll ss) = printOperation depth operator ss := by
  match ss with
  | [] => rfl
  | [s] =>
      rw [contentAll, contentAll, printOperation, printOperation, operandText, operandText,
        needsParens_content, print_content depth s]
  | s :: s' :: more =>
      rw [contentAll, contentAll, printOperation, printOperation, operandText, operandText,
        operandText, operandText, needsParens_content, needsParens_content,
        print_content depth s, print_content depth s']

end

/-! ## Names in a row -/

mutual

/-- A subtree with its nodes named in document order, from a number on. -/
def numberFrom (next : Nat) : Subtree → Subtree
  | node _ kind region children => node ⟨next⟩ kind region (numberAllFrom (next + 1) children)

def numberAllFrom (next : Nat) : List Subtree → List Subtree
  | [] => []
  | s :: more => s.numberFrom next :: numberAllFrom (next + s.preorder.length) more

end

mutual

theorem isomorphic_numberFrom (next : Nat) (s : Subtree) : s.Isomorphic (s.numberFrom next) := by
  match s with
  | node _ kind region children =>
      rw [numberFrom, Isomorphic]
      exact ⟨rfl, rfl, allIsomorphic_numberAllFrom (next + 1) children⟩

theorem allIsomorphic_numberAllFrom (next : Nat) (ss : List Subtree) :
    AllIsomorphic ss (numberAllFrom next ss) := by
  match ss with
  | [] => trivial
  | s :: more =>
      rw [numberAllFrom, AllIsomorphic]
      exact ⟨isomorphic_numberFrom next s, allIsomorphic_numberAllFrom _ more⟩

end

mutual

theorem preorder_numberFrom (next : Nat) (s : Subtree) :
    (s.numberFrom next).preorder = namesFrom next s.preorder.length := by
  match s with
  | node _ kind region children =>
      rw [numberFrom, preorder, preorderAll_numberAllFrom (next + 1) children, preorder,
        List.length_cons, namesFrom_succ]

theorem preorderAll_numberAllFrom (next : Nat) (ss : List Subtree) :
    preorderAll (numberAllFrom next ss) = namesFrom next (preorderAll ss).length := by
  match ss with
  | [] => rfl
  | s :: more =>
      rw [numberAllFrom, preorderAll, preorderAll, List.length_append, namesFrom_add,
        preorder_numberFrom next s, preorderAll_numberAllFrom (next + s.preorder.length) more]

end

/-- A subtree with more children behind those it has. -/
def withMore (more : List Subtree) : Subtree → Subtree
  | node id kind region children => node id kind region (children ++ more)

theorem withMore_nil (s : Subtree) : s.withMore [] = s := by
  cases s with
  | node id kind region children => rw [withMore, List.append_nil]

theorem withMore_withMore (s : Subtree) (ss more : List Subtree) :
    (s.withMore ss).withMore more = s.withMore (ss ++ more) := by
  cases s with
  | node id kind region children => rw [withMore, withMore, withMore, List.append_assoc]

end Subtree

namespace Tree

variable {t t' u : Tree} {n c p : NodeId}

/-! ## What a copy is -/

mutual

@[simp] theorem scopes_graft (s : Subtree) (t : Tree) : (t.graft s).2.scopes = t.scopes := by
  match s with
  | .node _ kind region children =>
      rw [graft]
      exact (scopes_graftAll children _ _).trans (scopes_newNode kind region)

@[simp] theorem scopes_graftAll (ss : List Subtree) (t : Tree) (p : NodeId) :
    (t.graftAll p ss).scopes = t.scopes := by
  match ss with
  | [] => rfl
  | s :: more =>
      rw [graftAll]
      exact (scopes_graftAll more _ p).trans ((scopes_addChild p _).trans (scopes_graft s t))

end

/-- A top that was planted takes another as its last child, and what is below its other children
is what it was. -/
theorem Planted.subtree_addChild (h : Planted t t' [p, c]) :
    (t'.addChild p c).subtree p = (t'.subtree p).withMore [t'.subtree c] := by
  have hne : p ≠ c := fun heq => by
    have hnodup := h.nodup
    rw [heq] at hnodup
    simp at hnodup
  have hp : p ∈ [p, c] := List.mem_cons_self
  have hc : c ∈ [p, c] := List.mem_cons_of_mem _ (List.mem_singleton.2 rfl)
  have hlt := h.lt p hp
  have htop := h.top c hc
  have hkind := kind_addChild hlt (h.lt c hc) htop hne
  have hregion := region_addChild hlt (h.lt c hc) htop hne
  have hchildren := children_addChild hlt (h.lt c hc) htop hne
  have hnot := h.wellLinked.not_mem_children (h.top p hp)
  have hbelow : ∀ m, m ≠ p → (t'.addChild p c).subtree m = t'.subtree m := fun m hm =>
    h.wellLinked.subtree_congr h.addChild.wellLinked (· ≠ p)
      (fun q _ d hd heq => hnot q (heq ▸ hd))
      (fun q hq => ⟨hkind q, hregion q, (hchildren q).trans (if_neg hq)⟩) m hm
  have hold : (t'.children p).map (t'.addChild p c).subtree = (t'.children p).map t'.subtree :=
    List.map_congr_left fun m hm => hbelow m fun heq => hnot p (heq ▸ hm)
  rw [h.addChild.wellLinked.subtree_eq p, h.wellLinked.subtree_eq p, hkind, hregion, hchildren,
    if_pos rfl, List.map_append, hold, List.map_singleton, hbelow c hne.symm, Subtree.withMore]

mutual

/-- A copy is the same subtree, with the names that come next. -/
theorem graft_spec (s : Subtree) {t : Tree} (hw : t.WellLinked) :
    (t.graft s).1 = ⟨t.size⟩ ∧ (t.graft s).2.size = t.size + s.preorder.length ∧
      (t.graft s).2.subtree ⟨t.size⟩ = s.numberFrom t.size := by
  match s with
  | .node _ kind region children =>
      have hnew : Planted t (t.newNode kind region).2 [⟨t.size⟩] := .newNode hw kind region
      have hleaf : (t.newNode kind region).2.subtree ⟨t.size⟩ = .node ⟨t.size⟩ kind region [] :=
        ((Planted.refl hw).wrap kind region).2
      obtain ⟨hsize, hsubtree⟩ := graftAll_spec children hnew
      rw [size_newNode] at hsize hsubtree
      rw [graft]
      refine ⟨rfl, ?_, ?_⟩
      · rw [Subtree.preorder, List.length_cons]
        exact hsize.trans (by omega)
      · exact hsubtree.trans (by rw [hleaf]; rfl)

theorem graftAll_spec (ss : List Subtree) {t t' : Tree} {p : NodeId} (h : Planted t t' [p]) :
    (t'.graftAll p ss).size = t'.size + (Subtree.preorderAll ss).length ∧
      (t'.graftAll p ss).subtree p =
        (t'.subtree p).withMore (Subtree.numberAllFrom t'.size ss) := by
  match ss with
  | [] => exact ⟨rfl, (Subtree.withMore_nil _).symm⟩
  | s :: more =>
      have hgraft := graft_planted s h.wellLinked
      have hboth : Planted t (t'.graft s).2 [p, (t'.graft s).1] := h.trans hgraft
      obtain ⟨hname, hsize, hsubtree⟩ := graft_spec s h.wellLinked
      obtain ⟨hsizeMore, hsubtreeMore⟩ := graftAll_spec more hboth.addChild
      have hp : (t'.graft s).2.subtree p = t'.subtree p :=
        hgraft.subtree_eq h.wellLinked (h.lt p (List.mem_singleton.2 rfl))
      rw [graftAll, Subtree.numberAllFrom, Subtree.preorderAll, List.length_append]
      rw [size_addChild, hsize] at hsizeMore hsubtreeMore
      refine ⟨hsizeMore.trans (Nat.add_assoc _ _ _), hsubtreeMore.trans ?_⟩
      rw [hboth.subtree_addChild, hp, hname, hsubtree, Subtree.withMore_withMore,
        List.singleton_append]

end

theorem copy_eq_graft (t : Tree) (n : NodeId) : t.copy n true = t.graft (t.subtree n) := if_pos rfl

/-! ## Copying from the tree that grows -/

/-- Copies several nodes in turn and makes the copies children of `parent`. -/
def copyEach (copy : NodeId → Tree → NodeId × Tree) (parent : NodeId) : List NodeId → Tree → Tree
  | [], t => t
  | n :: more, t =>
    let (child, t) := copy n t
    copyEach copy parent more (t.addChild parent child)

/-- Copies a node and what is below it, cut off below a depth. What is copied is read from the
tree as it is by then, with all copies that were made before. -/
def copyWithin : Nat → NodeId → Tree → NodeId × Tree
  | 0, n, t => t.newNode (t.kind n) (t.region n)
  | depth + 1, n, t =>
    let (copy, t') := t.newNode (t.kind n) (t.region n)
    (copy, copyEach (copyWithin depth) copy (t.children n) t')

/-- What was planted is of no importance to what comes after it. -/
theorem Planted.forget {ns : List NodeId} (h : Planted t t' ns) : Planted t t' [] where
  wellLinked := h.wellLinked
  size_le := h.size_le
  frame := h.frame
  new _ hn := nomatch hn
  lt _ hn := nomatch hn
  top _ hn := nomatch hn
  nodup := List.nodup_nil

theorem copyEach_eq {copy : NodeId → Tree → NodeId × Tree} {cs : List NodeId}
    (hcopy : ∀ c ∈ cs, ∀ u, Planted t u [] → copy c u = u.graft (t.subtree c))
    (h : Planted t u [p]) : copyEach copy p cs u = u.graftAll p (cs.map t.subtree) := by
  induction cs generalizing u with
  | nil => rfl
  | cons c cs ih =>
      have hboth := h.trans (graft_planted (t.subtree c) h.wellLinked)
      rw [copyEach, hcopy c List.mem_cons_self u h.forget, List.map_cons, graftAll]
      exact ih (fun d hd => hcopy d (List.mem_cons_of_mem c hd)) hboth.addChild

/-- Whatever was copied before, the nodes to be copied read as they did. -/
theorem copyWithin_eq (hw : t.WellLinked) (depth : Nat) (hdepth : t.rank n ≤ depth)
    (hn : n.index < t.size) (h : Planted t u []) :
    copyWithin depth n u = u.graft (t.subtree n) := by
  have hnode := h.frame n hn
  have hnew : Planted t (u.newNode (u.kind n) (u.region n)).2 [⟨u.size⟩] :=
    h.trans (.newNode h.wellLinked _ _)
  induction depth generalizing n u with
  | zero =>
      rw [copyWithin, hw.subtree_eq, hw.children_eq_nil hdepth, kind, region, hnode]
      rfl
  | succ depth ih =>
      rw [copyWithin, hw.subtree_eq, graft, kind, region, children, hnode]
      rw [kind, region, hnode] at hnew
      refine Prod.ext rfl (copyEach_eq (fun c hc v hv => ?_) hnew)
      have := hw.rank_child_lt hc
      exact ih (by omega) (hw.child_lt hc) hv (hv.frame c (hw.child_lt hc))
        (hv.trans (.newNode hv.wellLinked _ _))

/-! ## What is done beside some nodes -/

/-- What may be done to a tree next to some nodes: others are made, attached and put in each
other's places, and where none of these is below it may be folded. -/
inductive Beside (S : List NodeId) : Tree → Tree → Prop
  | newNode {t : Tree} (kind : NodeKind) (region : Region) : Beside S t (t.newNode kind region).2
  | addChild {t : Tree} {p c : NodeId} (h : t.Attachable p c) (hp : p ∉ S) (hc : c ∉ S) :
      Beside S t (t.addChild p c)
  | replaceChild {t : Tree} {p old new : NodeId} (h : old ∈ t.children p → t.Attachable p new)
      (hold : old ∉ S) (hnew : new ∉ S) : Beside S t (t.replaceChild p old new).2
  | replaceWith {t : Tree} {n new : NodeId} (h : ∀ p, t.parent n = some p → t.Attachable p new)
      (hn : n ∉ S) (hnew : new ∉ S) : Beside S t (t.replaceWith n new).2
  | foldConstants {t : Tree} (ctx : Context) {n : NodeId}
      (h : ∀ m ∈ (t.subtree n).preorder, m ∉ S) : Beside S t (t.foldConstants ctx n).2

/-- Whether some nodes are there, and with them all that is below. -/
structure ClosedBelow (t : Tree) (S : List NodeId) : Prop where
  lt : ∀ m ∈ S, m.index < t.size
  child : ∀ m ∈ S, ∀ c ∈ t.children m, c ∈ S

/-- Whether some nodes are what they were. -/
structure Spares (S : List NodeId) (t u : Tree) : Prop where
  wellLinked : u.WellLinked
  size_le : t.size ≤ u.size
  node : ∀ m ∈ S, u.node m = t.node m

variable {S : List NodeId}

theorem Spares.refl (hw : t.WellLinked) : Spares S t t := ⟨hw, Nat.le_refl _, fun _ _ => rfl⟩

theorem Spares.trans (h : Spares S t t') (h' : Spares S t' u) : Spares S t u :=
  ⟨h'.wellLinked, h.size_le.trans h'.size_le, fun m hm => (h'.node m hm).trans (h.node m hm)⟩

theorem ClosedBelow.spares (hS : t.ClosedBelow S) (h : Spares S t u) : u.ClosedBelow S where
  lt m hm := Nat.lt_of_lt_of_le (hS.lt m hm) h.size_le
  child m hm c hc := by
    rw [children, h.node m hm] at hc
    exact hS.child m hm c hc

/-- Nodes that are spared have the subtrees that they had. -/
theorem Spares.subtree_eq (hw : t.WellLinked) (hS : t.ClosedBelow S) (h : Spares S t u)
    {m : NodeId} (hm : m ∈ S) : u.subtree m = t.subtree m := by
  refine hw.subtree_congr h.wellLinked (· ∈ S) (fun m hm d hd => hS.child m hm d hd)
    (fun m hm => ?_) m hm
  rw [kind, region, children, h.node m hm]
  exact ⟨rfl, rfl, rfl⟩

theorem closedBelow_preorder (hw : t.WellLinked) (hn : n.index < t.size) :
    t.ClosedBelow (t.subtree n).preorder where
  lt _ hm := lt_of_mem_preorder hw hn hm
  child _ hm _ hc := mem_preorder_of_child hw hm hc

/-- What folding a node keeps folding all that is below a node keeps. -/
theorem foldConstants_keeps {P : Tree → Prop} {ctx : Context} (hw : t.WellLinked)
    (hfold : ∀ m ∈ (t.subtree n).preorder, ∀ u count, P u → P (foldNode ctx m u count).2.1)
    (ht : P t) : P (t.foldConstants ctx n).2 := by
  have hwalk : P (rewriteAll (foldNode ctx) (t.subtree n).postorder t 0).2.1 :=
    rewriteAll_keeps (fun m hm =>
      hfold m ((Subtree.postorder_perm_preorder _).mem_iff.1 hm)) ht
  rw [foldConstants_eq hw]
  generalize rewriteAll (foldNode ctx) (t.subtree n).postorder t 0 = walk at hwalk
  rcases walk with ⟨e | flow, v, count⟩
  · exact hwalk
  · exact hwalk

section Spare

variable (hw : t.WellLinked) (hS : t.ClosedBelow S)

include hw hS

theorem spares_detach (hn : n ∉ S) : Spares S t (t.detach n) where
  wellLinked := hw.detach n
  size_le := by rw [size_detach]
  node m hm := by
    have hmn : m ≠ n := fun heq => hn (heq ▸ hm)
    rw [node_detach hw.toLinked, if_neg hmn, filter_ne_of_not_mem fun hc => hn (hS.child m hm n hc)]
    rfl

theorem spares_addChild (h : t.Attachable p c) (hp : p ∉ S) (hc : c ∉ S) :
    Spares S t (t.addChild p c) where
  wellLinked := h.wellLinked_addChild hw
  size_le := by rw [size_addChild]
  node m hm := by
    have hmp : m ≠ p := fun heq => hp (heq ▸ hm)
    have hmc : m ≠ c := fun heq => hc (heq ▸ hm)
    rw [← addChild_detach hw.toLinked, node_addChild (by rw [size_detach]; exact h.upper_lt)
      (by rw [size_detach]; exact h.lower_lt) (parent_detach_self hw.toLinked c) h.ne,
      if_neg hmp, if_neg hmc]
    exact (spares_detach hw hS hc).node m hm

theorem spares_replaceChild {old new : NodeId} (h : old ∈ t.children p → t.Attachable p new)
    (hold : old ∉ S) (hnew : new ∉ S) : Spares S t (t.replaceChild p old new).2 := by
  by_cases hmem : old ∈ t.children p
  · by_cases hne : old = new
    · rw [← hne, replaceChild_self hmem]
      exact .refl hw
    · obtain ⟨_, hlt, hpn, _⟩ := h hmem
      refine ⟨hw.replaceChild h, by rw [size_replaceChild], fun m hm => ?_⟩
      have hmnew : m ≠ new := fun heq => hnew (heq ▸ hm)
      have hmold : m ≠ old := fun heq => hold (heq ▸ hm)
      rw [node_replaceChild hw.toLinked hmem hne hlt hpn, if_neg hmnew, if_neg hmold,
        filter_ne_of_not_mem fun hc => hnew (hS.child m hm new hc),
        substitute_of_not_mem fun hc => hold (hS.child m hm old hc)]
      rfl
  · rw [replaceChild_of_not_mem hmem]
    exact .refl hw

theorem spares_foldNode {ctx : Context} (hn : n ∉ S) (count : Nat) :
    Spares S t (foldNode ctx n t count).2.1 := by
  cases hfoldable : isFoldable (t.kind n) with
  | false =>
      rw [foldNode_of_not_foldable hfoldable]
      exact .refl hw
  | true =>
      cases hv : t.evaluate ctx n with
      | error e =>
          rw [foldNode_of_error hfoldable hv]
          cases t.failure ctx n with
          | none => exact .refl hw
          | some e => exact .refl hw
      | ok v =>
          have hlt := index_lt_of_isFoldable hfoldable
          rw [foldNode_of_value hw hfoldable hv]
          refine ⟨wellLinked_replaceByValue hw n v, ?_, fun m hm => ?_⟩
          · rw [size_replaceByValue]
            exact Nat.le_succ _
          · have hfresh : m ≠ ⟨t.size⟩ := by
              rintro rfl
              exact Nat.lt_irrefl _ (hS.lt _ hm)
            have hmn : m ≠ n := fun heq => hn (heq ▸ hm)
            rw [node_replaceByValue hw hlt, if_neg hfresh, if_neg hmn,
              substitute_of_not_mem fun hc => hn (hS.child m hm n hc)]
            rfl

theorem spares_foldConstants (ctx : Context) (h : ∀ m ∈ (t.subtree n).preorder, m ∉ S) :
    Spares S t (t.foldConstants ctx n).2 :=
  foldConstants_keeps hw (fun m hm _ count hu => hu.trans
    (spares_foldNode hu.wellLinked (hS.spares hu) (h m hm) count)) (.refl hw)

theorem Beside.spares (h : Beside S t u) : Spares S t u := by
  cases h with
  | newNode kind region =>
      refine ⟨hw.newNode kind region, ?_, fun m hm => node_newNode_of_lt kind region (hS.lt m hm)⟩
      rw [size_newNode]
      exact Nat.le_succ _
  | addChild h hp hc => exact spares_addChild hw hS h hp hc
  | replaceChild h hold hnew => exact spares_replaceChild hw hS h hold hnew
  | replaceWith h hn hnew =>
      rw [Tree.replaceWith]
      split
      · next p hp => exact spares_replaceChild hw hS (fun _ => h p hp) hn hnew
      · exact .refl hw
  | foldConstants ctx h => exact spares_foldConstants hw hS ctx h

/-- Whatever is done beside some nodes, they stay what they are. -/
theorem spares_of_beside (h : Relation.ReflTransGen (Beside S) t u) : Spares S t u := by
  induction h with
  | refl => exact .refl hw
  | tail _ hstep ih => exact ih.trans (hstep.spares ih.wellLinked (hS.spares ih))

end Spare

/-! ## What is done to a copy -/

/-- What may be done to a copy next to what was copied: nodes are made, the copy is folded, and
nodes of it are replaced by others that have none of what was copied below them. -/
inductive Reworks (S : List NodeId) (c : NodeId) : Tree → Tree → Prop
  | newNode {t : Tree} (kind : NodeKind) (region : Region) :
      Reworks S c t (t.newNode kind region).2
  | foldConstants {t : Tree} (ctx : Context) : Reworks S c t (t.foldConstants ctx c).2
  | replaceWith {t : Tree} {m new : NodeId} (h : ∀ p, t.parent m = some p → t.Attachable p new)
      (hm : m ∈ (t.subtree c).preorder) (hnew : ∀ d ∈ (t.subtree new).preorder, d ∉ S) :
      Reworks S c t (t.replaceWith m new).2

theorem mem_children_replaceWith (hw : t.WellLinked) {m new : NodeId}
    (h : ∀ p, t.parent m = some p → t.Attachable p new) {q d : NodeId}
    (hd : d ∈ (t.replaceWith m new).2.children q) : d = new ∨ d ∈ t.children q := by
  rw [replaceWith] at hd
  cases hparent : t.parent m with
  | none =>
      rw [hparent] at hd
      exact .inr hd
  | some p =>
      rw [hparent] at hd
      have hmem := hw.child_of_parent hparent
      by_cases hne : m = new
      · rw [← hne] at hd
        dsimp only at hd
        rw [replaceChild_self hmem] at hd
        exact .inr hd
      · obtain ⟨_, hlt, hpn, _⟩ := h p hparent
        exact ((mem_children_replaceChild hw.toLinked hmem hne hlt hpn).1 hd).imp
          And.left And.left

/-- The nodes below the copy stay apart from what was copied, and what is done is done beside
that. -/
theorem Reworks.beside (hw : t.WellLinked) (hS : t.ClosedBelow S)
    (hapart : ∀ m ∈ (t.subtree c).preorder, m ∉ S) (h : Reworks S c t u) :
    Beside S t u ∧ ∀ m ∈ (u.subtree c).preorder, m ∉ S := by
  have hself := mem_preorder_self hw
  cases h with
  | newNode kind region =>
      refine ⟨.newNode kind region, fun m hm => hapart m (forall_mem_preorder
        (P := (· ∈ (t.subtree c).preorder)) (hw.newNode kind region) (hself c)
        (fun q hq d hd => ?_) m hm)⟩
      rw [children_newNode] at hd
      exact mem_preorder_of_child hw hq hd
  | foldConstants ctx =>
      have hdescends : Descends t (t.foldConstants ctx c).2 := foldConstants_keeps hw
        (fun m _ u count hu => local_foldNode.keeps count trivial hu) (.refl hw)
      have hbelow := forall_mem_preorder
        (P := fun d => d ∈ (t.subtree c).preorder ∨ t.size ≤ d.index) hdescends.wellLinked
        (.inl (hself c)) fun q hq d hd => (hdescends.children hd).imp_left fun hold =>
          mem_preorder_of_child hw (hq.resolve_right
            (Nat.not_le.2 (index_lt_of_mem_children hold))) hold
      exact ⟨.foldConstants ctx hapart, fun m hm => (hbelow m hm).elim (hapart m) fun hle hmS =>
        Nat.not_lt.2 hle (hS.lt m hmS)⟩
  | @replaceWith m new h hm hnew =>
      have hbelow := forall_mem_preorder
        (P := fun d => d ∈ (t.subtree c).preorder ∨ d ∈ (t.subtree new).preorder)
        (hw.replaceWith h) (.inl (hself c)) fun q hq d hd => by
          rcases mem_children_replaceWith hw h hd with rfl | hold
          · exact .inr (hself d)
          · exact hq.imp (mem_preorder_of_child hw · hold) (mem_preorder_of_child hw · hold)
      exact ⟨.replaceWith h (hapart m hm) (hnew new (hself new)), fun d hd =>
        (hbelow d hd).elim (hapart d) (hnew d)⟩

theorem beside_of_reworks (hw : t.WellLinked) (hS : t.ClosedBelow S)
    (hapart : ∀ m ∈ (t.subtree c).preorder, m ∉ S)
    (h : Relation.ReflTransGen (Reworks S c) t u) :
    Relation.ReflTransGen (Beside S) t u ∧ ∀ m ∈ (u.subtree c).preorder, m ∉ S := by
  induction h with
  | refl => exact ⟨.refl, hapart⟩
  | tail _ hstep ih =>
      have hspares := spares_of_beside hw hS ih.1
      obtain ⟨hbeside, hapart⟩ := hstep.beside hspares.wellLinked (hS.spares hspares) ih.2
      exact ⟨ih.1.tail hbeside, hapart⟩

/-! ## Copies -/

/-- What a copy of a node with all that is below it is. -/
structure CopyOf (t : Tree) (n c : NodeId) (t' : Tree) : Prop where
  wellLinked : t'.WellLinked
  /-- As many nodes are new as are copied. -/
  size : t'.size = t.size + (t.subtree n).preorder.length
  scopes : t'.scopes = t.scopes
  frame : ∀ m, m.index < t.size → t'.node m = t.node m
  top : t'.parent c = none
  isomorphic : (t.subtree n).Isomorphic (t'.subtree c)
  /-- The copy has all new nodes, each once, and no other ones. -/
  nodes : (t'.subtree c).preorder = Subtree.namesFrom t.size (t.subtree n).preorder.length

theorem copyOf_copy (hw : t.WellLinked) (hcopy : t.copy n true = (c, t')) :
    CopyOf t n c t' := by
  have hplanted := graft_planted (t.subtree n) hw
  have hscopes := scopes_graft (t.subtree n) t
  obtain ⟨hname, hsize, hsubtree⟩ := graft_spec (t.subtree n) hw
  rw [← hname] at hsubtree
  rw [← copy_eq_graft, hcopy] at hplanted hscopes hsize hsubtree
  dsimp only at hplanted hscopes hsize hsubtree
  refine ⟨hplanted.wellLinked, hsize, hscopes, hplanted.frame,
    hplanted.top c (List.mem_singleton.2 rfl), ?_, ?_⟩
  · rw [hsubtree]
    exact Subtree.isomorphic_numberFrom _ _
  · rw [hsubtree, Subtree.preorder_numberFrom]

namespace CopyOf

variable (h : CopyOf t n c t')

include h

theorem print_eq : t'.print c = t.print n := by
  rw [print, print, ← Subtree.print_content, h.isomorphic.content_eq, Subtree.print_content]

theorem evaluate_eq (ctx : Context) : t'.evaluate ctx c = t.evaluate ctx n := by
  rw [evaluate, evaluate, ← Subtree.evaluate_content, h.isomorphic.content_eq,
    Subtree.evaluate_content, h.scopes]

theorem typeOf_eq (ctx : Context) : t'.typeOf ctx c = t.typeOf ctx n := by
  rw [typeOf, typeOf, ← Subtree.typeOf_content, h.isomorphic.content_eq, Subtree.typeOf_content,
    h.scopes, declaredType_congr h.scopes]

/-- The copy has new nodes, and what was copied has old ones. -/
theorem apart (hw : t.WellLinked) (hn : n.index < t.size) :
    ∀ m ∈ (t'.subtree c).preorder, m ∉ (t.subtree n).preorder := fun m hm hold => by
  rw [h.nodes, Subtree.namesFrom, List.mem_map] at hm
  obtain ⟨i, hi, rfl⟩ := hm
  exact Nat.not_lt.2 (List.mem_range'_1.1 hi).1 (lt_of_mem_preorder hw hn hold)

theorem spares (hw : t.WellLinked) (hn : n.index < t.size) :
    Spares (t.subtree n).preorder t t' where
  wellLinked := h.wellLinked
  size_le := by
    rw [h.size]
    exact Nat.le_add_right _ _
  node m hm := h.frame m (lt_of_mem_preorder hw hn hm)

end CopyOf

/-- A copy is made of new nodes only, as many as are copied, and is the same as these but for
the names, also when the tree is read while it grows. It is printed the same, and has the same
value and the same type in every context. Whatever is done to it, its nodes are not those that
were copied, any other node may take the place of one of them, and all that is done leaves what
was copied as it was. -/
theorem isomorphic_copy (hw : t.WellLinked) (hn : n.index < t.size)
    (hcopy : t.copy n true = (c, t')) :
    copyWithin t.size n t = (c, t') ∧ CopyOf t n c t' ∧
    t'.print c = t.print n ∧
    (∀ ctx, t'.evaluate ctx c = t.evaluate ctx n ∧ t'.typeOf ctx c = t.typeOf ctx n) ∧
    (∀ u, Relation.ReflTransGen (Reworks (t.subtree n).preorder c) t' u →
      Relation.ReflTransGen (Beside (t.subtree n).preorder) t' u ∧
      ∀ m ∈ (u.subtree c).preorder, m ∉ (t.subtree n).preorder ∧
        ∀ new, new ∉ (t.subtree n).preorder → (∀ p, u.parent m = some p → u.Attachable p new) →
          Beside (t.subtree n).preorder u (u.replaceWith m new).2) ∧
    ∀ u, Relation.ReflTransGen (Beside (t.subtree n).preorder) t' u →
      u.subtree n = t.subtree n ∧ ∀ m ∈ (t.subtree n).preorder, u.node m = t.node m := by
  have h := copyOf_copy hw hcopy
  have hclosed := closedBelow_preorder hw hn
  have hspares := h.spares hw hn
  have hgrow := copyWithin_eq hw t.size (t.rank_le_size n) hn (.refl hw)
  rw [← copy_eq_graft, hcopy] at hgrow
  refine ⟨hgrow, h, h.print_eq, fun ctx => ⟨h.evaluate_eq ctx, h.typeOf_eq ctx⟩,
    fun u hu => ?_, fun u hu => ?_⟩
  · obtain ⟨hbeside, hapart⟩ :=
      beside_of_reworks h.wellLinked (hclosed.spares hspares) (h.apart hw hn) hu
    exact ⟨hbeside, fun m hm => ⟨hapart m hm, fun new hnew hattach =>
      .replaceWith hattach (hapart m hm) hnew⟩⟩
  · have hkept := hspares.trans (spares_of_beside h.wellLinked (hclosed.spares hspares) hu)
    exact ⟨hkept.subtree_eq hw hclosed (mem_preorder_self hw n), hkept.node⟩

/-- A product is copied and the copy folded. -/
theorem isomorphic_copy_folded :
    ∃ t t', ofSource "x * (2 + 3)" = .ok t ∧ t.WellLinked ∧ t.copy ⟨5⟩ true = (⟨8⟩, t') ∧
      t'.size = 13 ∧ t'.print ⟨8⟩ = "x * (2 + 3)" ∧
      (t'.foldConstants .empty ⟨8⟩).2.print ⟨8⟩ = "x * 5" ∧
      (t'.foldConstants .empty ⟨8⟩).2.subtree ⟨5⟩ = t.subtree ⟨5⟩ := by
  have hcheck : (ofSource "x * (2 + 3)").toOption.any (fun t =>
      t.size = 8 ∧ (t.subtree ⟨5⟩).preorder.length = 5 ∧ t.print ⟨5⟩ = "x * (2 + 3)" ∧
      (t.copy ⟨5⟩ true).1 = ⟨8⟩ ∧
      ((t.copy ⟨5⟩ true).2.foldConstants .empty ⟨8⟩).2.print ⟨8⟩ = "x * 5") = true := by
    decide +kernel
  obtain ⟨t, ht, hfacts⟩ := exists_of_checked hcheck
  obtain ⟨hsize, hcount, hprint, hname, hfolded⟩ := of_decide_eq_true hfacts
  have hw := wellLinked_of_ofSource ht
  have hcopy : t.copy ⟨5⟩ true = (⟨8⟩, (t.copy ⟨5⟩ true).2) := Prod.ext hname rfl
  obtain ⟨_, hcopyOf, hprint', _, hreworks, hkept⟩ :=
    isomorphic_copy hw (by rw [hsize]; decide) hcopy
  refine ⟨t, (t.copy ⟨5⟩ true).2, ht, hw, hcopy, ?_, hprint'.trans hprint, hfolded,
    (hkept _ (hreworks _ (.single (.foldConstants .empty))).1).1⟩
  rw [hcopyOf.size, hsize, hcount]

end Tree

end Lindenmayer
