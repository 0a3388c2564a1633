import Lindenmayer.Tree.Subtree
import Mathlib.Logic.Relation
import Mathlib.Data.Fintype.Card

/-!
# Trees whose links are in order

A tree is an array of nodes that name each other, and nothing in its type
keeps the names in step. `Linked` says what it means that they are: every child
knows its parent and every parent its child, each once. `WellLinked` says
besides that no way up leads back to where it began. The first sections say what
each primitive does to each node, so that nothing later has to look at the array.

What well-linkedness is for is `subtree_eq`. A `Subtree` is read with as much
fuel as the tree is large; below a node of a well-linked tree that is always
enough, because the number of nodes strictly below a node (`rank`) goes down
with every step. So the fuel disappears: the subtree below a node is the node
with the subtrees below its children, and `WellLinked.induction` is the
induction that goes with it.
-/

namespace Lindenmayer.Tree

variable {t : Tree}

/-! ## What the primitives do to a node -/

@[simp] theorem size_modify (n : NodeId) (f : Node → Node) : (t.modify n f).size = t.size := by
  rw [size, modify, Array.size_modify, size]

@[simp] theorem scopes_modify (n : NodeId) (f : Node → Node) :
    (t.modify n f).scopes = t.scopes := rfl

/-- Changing a node changes that node alone, if there is one. -/
theorem node_modify (n m : NodeId) (f : Node → Node) :
    (t.modify n f).node m = if m = n ∧ n.index < t.size then f (t.node m) else t.node m := by
  rw [node, modify, Array.getElem?_modify]
  by_cases hmn : n.index = m.index
  · obtain rfl : m = n := NodeId.ext hmn.symm
    rw [if_pos rfl]
    by_cases hm : m.index < t.size
    · rw [if_pos ⟨rfl, hm⟩, node, Array.getElem?_eq_getElem hm]
      rfl
    · rw [if_neg (fun h => hm h.2), node, Array.getElem?_eq_none (Nat.le_of_not_lt hm)]
      rfl
  · rw [if_neg hmn, if_neg (fun h => hmn (by rw [h.1])), node]

theorem node_modify_self {n : NodeId} (hn : n.index < t.size) (f : Node → Node) :
    (t.modify n f).node n = f (t.node n) := by
  rw [node_modify, if_pos ⟨rfl, hn⟩]

theorem node_modify_ne {n m : NodeId} (hne : m ≠ n) (f : Node → Node) :
    (t.modify n f).node m = t.node m := by
  rw [node_modify, if_neg (fun h => hne h.1)]

@[simp] theorem size_newNode (kind : NodeKind) (region : Region) :
    (t.newNode kind region).2.size = t.size + 1 := Array.size_push _

@[simp] theorem scopes_newNode (kind : NodeKind) (region : Region) :
    (t.newNode kind region).2.scopes = t.scopes := rfl

theorem node_newNode (kind : NodeKind) (region : Region) (m : NodeId) :
    (t.newNode kind region).2.node m =
      if m = ⟨t.size⟩ then ⟨kind, region, none, []⟩ else t.node m := by
  rw [node, newNode, Array.getElem?_push]
  by_cases hm : m.index = t.nodes.size
  · have hid : m = ⟨t.size⟩ := NodeId.ext hm
    rw [if_pos hm, if_pos hid]
    rfl
  · have hid : m ≠ ⟨t.size⟩ := fun h => hm (congrArg NodeId.index h)
    rw [if_neg hm, if_neg hid, node]

/-- What was never made has no children and no parent. -/
theorem node_of_size_le {n : NodeId} (h : t.size ≤ n.index) : t.node n = default := by
  rw [node, Array.getElem?_eq_none h]
  rfl

/-- What was never made stands for a root. -/
theorem index_lt_of_kind {n : NodeId} {kind : NodeKind} (hn : t.kind n = kind)
    (hne : ∀ scope, kind ≠ .root scope) : n.index < t.size := by
  refine Nat.lt_of_not_le fun hle => hne default ?_
  rw [← hn, Tree.kind, node_of_size_le hle]
  rfl

/-- A node is what it stands for, where, and between whom. -/
theorem node_eq_of_fields {t' : Tree} {n : NodeId} (hkind : t'.kind n = t.kind n)
    (hregion : t'.region n = t.region n) (hparent : t'.parent n = t.parent n)
    (hchildren : t'.children n = t.children n) : t'.node n = t.node n := by
  rw [kind, kind] at hkind
  rw [region, region] at hregion
  rw [parent, parent] at hparent
  rw [children, children] at hchildren
  rcases hn : t'.node n with ⟨k, r, p, cs⟩
  rcases hn' : t.node n with ⟨k', r', p', cs'⟩
  rw [hn, hn'] at hkind hregion hparent hchildren
  exact Node.mk.injEq .. ▸ ⟨hkind, hregion, hparent, hchildren⟩

theorem node_fresh : t.node ⟨t.size⟩ = default := node_of_size_le (Nat.le_refl _)

theorem index_lt_of_mem_children {n c : NodeId} (h : c ∈ t.children n) : n.index < t.size := by
  refine Nat.lt_of_not_le fun hn => ?_
  rw [children, node_of_size_le hn] at h
  cases h

@[simp] theorem children_newNode (kind : NodeKind) (region : Region) (m : NodeId) :
    (t.newNode kind region).2.children m = t.children m := by
  rw [children, children, node_newNode]
  split
  · next h => rw [h, node_fresh]; rfl
  · rfl

@[simp] theorem parent_newNode (kind : NodeKind) (region : Region) (m : NodeId) :
    (t.newNode kind region).2.parent m = t.parent m := by
  rw [parent, parent, node_newNode]
  split
  · next h => rw [h, node_fresh]; rfl
  · rfl

theorem node_newNode_of_lt (kind : NodeKind) (region : Region) {m : NodeId}
    (hm : m.index < t.size) : (t.newNode kind region).2.node m = t.node m := by
  rw [node_newNode, if_neg (fun h => absurd hm (by rw [h]; exact Nat.lt_irrefl _))]

theorem node_newNode_self (kind : NodeKind) (region : Region) :
    (t.newNode kind region).2.node ⟨t.size⟩ = ⟨kind, region, none, []⟩ := by
  rw [node_newNode, if_pos rfl]

theorem detach_of_parent_none {n : NodeId} (h : t.parent n = none) : t.detach n = t := by
  rw [detach, h]

@[simp] theorem size_detach (n : NodeId) : (t.detach n).size = t.size := by
  rw [detach]
  split
  · rfl
  · rw [size_modify, size_modify]

@[simp] theorem scopes_detach (n : NodeId) : (t.detach n).scopes = t.scopes := by
  rw [detach]
  split
  · rfl
  · rfl

@[simp] theorem size_addChild (p c : NodeId) : (t.addChild p c).size = t.size := by
  rw [addChild, size_modify, size_modify, size_detach]

@[simp] theorem scopes_addChild (p c : NodeId) : (t.addChild p c).scopes = t.scopes := by
  rw [addChild, scopes_modify, scopes_modify, scopes_detach]

/-- Attaching a node that was attached to nothing changes that node and its new
parent. -/
theorem node_addChild {p c : NodeId} (hp : p.index < t.size) (hc : c.index < t.size)
    (hfree : t.parent c = none) (hne : p ≠ c) (m : NodeId) :
    (t.addChild p c).node m =
      if m = p then { t.node p with children := t.children p ++ [c] }
      else if m = c then { t.node c with parent := some p } else t.node m := by
  rw [addChild, detach_of_parent_none hfree]
  by_cases hmp : m = p
  · rw [if_pos hmp, hmp, node_modify_self (by rw [size_modify]; exact hp), node_modify_ne hne]
    rfl
  · rw [if_neg hmp, node_modify_ne hmp]
    by_cases hmc : m = c
    · rw [if_pos hmc, hmc, node_modify_self hc]
    · rw [if_neg hmc, node_modify_ne hmc]

theorem children_addChild {p c : NodeId} (hp : p.index < t.size) (hc : c.index < t.size)
    (hfree : t.parent c = none) (hne : p ≠ c) (m : NodeId) :
    (t.addChild p c).children m = if m = p then t.children p ++ [c] else t.children m := by
  rw [children, node_addChild hp hc hfree hne]
  split
  · rfl
  · split
    · next h => rw [h]; rfl
    · rfl

theorem parent_addChild {p c : NodeId} (hp : p.index < t.size) (hc : c.index < t.size)
    (hfree : t.parent c = none) (hne : p ≠ c) (m : NodeId) :
    (t.addChild p c).parent m = if m = c then some p else t.parent m := by
  rw [parent, node_addChild hp hc hfree hne]
  split
  · next h => rw [h, if_neg hne]; rfl
  · split
    · rfl
    · rfl

theorem kind_addChild {p c : NodeId} (hp : p.index < t.size) (hc : c.index < t.size)
    (hfree : t.parent c = none) (hne : p ≠ c) (m : NodeId) :
    (t.addChild p c).kind m = t.kind m := by
  rw [kind, node_addChild hp hc hfree hne]
  split
  · next h => rw [h]; rfl
  · split
    · next h => rw [h]; rfl
    · rfl

theorem region_addChild {p c : NodeId} (hp : p.index < t.size) (hc : c.index < t.size)
    (hfree : t.parent c = none) (hne : p ≠ c) (m : NodeId) :
    (t.addChild p c).region m = t.region m := by
  rw [region, node_addChild hp hc hfree hne]
  split
  · next h => rw [h]; rfl
  · split
    · next h => rw [h]; rfl
    · rfl

/-- A node that was attached to nothing takes the place of a child. -/
theorem node_replaceChild_of_free {p old new : NodeId} (hmem : old ∈ t.children p)
    (hold : old.index < t.size) (hnew : new.index < t.size) (hfree : t.parent new = none)
    (hon : old ≠ new) (hpn : p ≠ new) (m : NodeId) :
    (t.replaceChild p old new).2.node m =
      { t.node m with
        parent := if m = new then some p else if m = old then none else t.parent m
        children := if m = p then (t.children p).map fun c => if c = old then new else c
          else t.children m } := by
  have hp : p.index < t.size := index_lt_of_mem_children hmem
  have hcontains : ¬ (!(t.children p).contains old) = true := by
    rw [List.contains_iff_mem.2 hmem]
    exact Bool.false_ne_true
  rw [replaceChild, if_neg hcontains, if_neg hon, detach_of_parent_none hfree]
  simp only [node_modify, size_modify, hp, hold, hnew, and_true]
  by_cases hmn : m = new
  · subst hmn
    rw [if_neg hon.symm, if_pos rfl, if_neg hpn.symm, if_pos rfl, if_neg hpn.symm]
    rfl
  · rw [if_neg hmn, if_neg hmn]
    -- A node that has itself for a child is `p` and `old` at once.
    by_cases hmp : m = p
    · subst hmp
      by_cases hmo : m = old
      · rw [if_pos hmo, if_pos rfl, if_pos hmo, if_pos rfl]
        rfl
      · rw [if_neg hmo, if_pos rfl, if_neg hmo, if_pos rfl]
        rfl
    · by_cases hmo : m = old
      · rw [if_pos hmo, if_neg hmp, if_pos hmo, if_neg hmp]
        rfl
      · rw [if_neg hmo, if_neg hmp, if_neg hmo, if_neg hmp]
        rfl

@[simp] theorem size_replaceChild (p old new : NodeId) :
    (t.replaceChild p old new).2.size = t.size := by
  rw [replaceChild]
  split
  · rfl
  · split
    · rfl
    · dsimp only
      rw [size_modify, size_modify, size_modify, size_detach]

@[simp] theorem scopes_replaceChild (p old new : NodeId) :
    (t.replaceChild p old new).2.scopes = t.scopes := by
  rw [replaceChild]
  split
  · rfl
  · split
    · rfl
    · dsimp only
      rw [scopes_modify, scopes_modify, scopes_modify, scopes_detach]

@[simp] theorem size_replaceWith (n new : NodeId) : (t.replaceWith n new).2.size = t.size := by
  rw [replaceWith]
  split
  · exact size_replaceChild _ _ _
  · rfl

@[simp] theorem scopes_replaceWith (n new : NodeId) :
    (t.replaceWith n new).2.scopes = t.scopes := by
  rw [replaceWith]
  split
  · exact scopes_replaceChild _ _ _
  · rfl

/-- What a subtree shows has nothing to do with the scopes. -/
theorem subtree_withScopes (scopes : Scopes) (n : NodeId) :
    { t with scopes }.subtree n = t.subtree n := by
  have hwithin : ∀ d m, { t with scopes }.subtreeWithin d m = t.subtreeWithin d m := by
    intro d
    induction d with
    | zero => intro m; rfl
    | succ d ih =>
        intro m
        rw [subtreeWithin, subtreeWithin, funext ih]
        rfl
  exact hwithin t.size n

/-! ## Links in order -/

/-- Whether a node is strictly below another. -/
def IsBelow (t : Tree) : NodeId → NodeId → Prop :=
  Relation.TransGen fun c p => t.parent c = some p

/-- Every child knows its parent and every parent its child, each once. -/
structure Linked (t : Tree) : Prop where
  child_lt : ∀ {n c}, c ∈ t.children n → c.index < t.size
  parent_of_child : ∀ {n c}, c ∈ t.children n → t.parent c = some n
  child_of_parent : ∀ {n c}, t.parent c = some n → c ∈ t.children n
  nodup : ∀ n, (t.children n).Nodup

/-- And no node is above itself. -/
structure WellLinked (t : Tree) : Prop extends t.Linked where
  acyclic : ∀ n, ¬ t.IsBelow n n

theorem Linked.not_mem_children (hl : t.Linked) {c : NodeId} (hfree : t.parent c = none)
    (n : NodeId) : c ∉ t.children n := by
  intro h
  have hparent := hl.parent_of_child h
  rw [hfree] at hparent
  cases hparent

open Classical in
/-- The number of nodes strictly below a node. -/
noncomputable def rank (t : Tree) (n : NodeId) : Nat :=
  (Finset.univ.filter fun m : Fin t.size => t.IsBelow ⟨m⟩ n).card

theorem rank_le_size (n : NodeId) : t.rank n ≤ t.size := by
  classical
  have h := Finset.card_le_univ (Finset.univ.filter fun m : Fin t.size => t.IsBelow ⟨m⟩ n)
  rwa [Fintype.card_fin] at h

namespace WellLinked

/-- Below a child there is less than below its parent: the child itself is
missing. -/
theorem rank_child_lt (hw : t.WellLinked) {n c : NodeId} (hc : c ∈ t.children n) :
    t.rank c < t.rank n := by
  classical
  have hstep : t.IsBelow c n := Relation.TransGen.single (hw.parent_of_child hc)
  refine Finset.card_lt_card (Finset.ssubset_iff_of_subset ?_ |>.mpr ?_)
  · intro m hm
    rw [Finset.mem_filter] at hm ⊢
    exact ⟨hm.1, Relation.TransGen.trans hm.2 hstep⟩
  · refine ⟨⟨c.index, hw.child_lt hc⟩, ?_, ?_⟩
    · rw [Finset.mem_filter]
      exact ⟨Finset.mem_univ _, hstep⟩
    · rw [Finset.mem_filter]
      intro h
      exact hw.acyclic c h.2

/-- What holds of a node whenever it holds of its children holds of all
nodes. -/
theorem induction (hw : t.WellLinked) {P : NodeId → Prop}
    (step : ∀ n, (∀ c ∈ t.children n, P c) → P n) (n : NodeId) : P n := by
  induction hr : t.rank n using Nat.strong_induction_on generalizing n with
  | _ r ih =>
      refine step n fun c hc => ih (t.rank c) ?_ c rfl
      rw [← hr]
      exact hw.rank_child_lt hc

/-! ## Fuel that always suffices -/

theorem children_eq_nil (hw : t.WellLinked) {n : NodeId} (hn : t.rank n ≤ 0) :
    t.children n = [] :=
  List.eq_nil_iff_forall_not_mem.2 fun c hc => by
    have := hw.rank_child_lt hc
    omega

/-- Any two fuels that cover the rank of a node show the same subtree. -/
theorem subtreeWithin_congr (hw : t.WellLinked) (d : Nat) : ∀ (d' : Nat) (n : NodeId),
    t.rank n ≤ d → t.rank n ≤ d' → t.subtreeWithin d n = t.subtreeWithin d' n := by
  induction d with
  | zero =>
      intro d' n hn _
      cases d' with
      | zero => rfl
      | succ d' => rw [subtreeWithin, subtreeWithin, hw.children_eq_nil hn, List.map_nil]
  | succ d ih =>
      intro d' n hn hn'
      cases d' with
      | zero => rw [subtreeWithin, subtreeWithin, hw.children_eq_nil hn', List.map_nil]
      | succ d' =>
          rw [subtreeWithin, subtreeWithin]
          congr 1
          refine List.map_congr_left fun c hc => ih d' c ?_ ?_
          · have := hw.rank_child_lt hc
            omega
          · have := hw.rank_child_lt hc
            omega

/-- The subtree below a node is the node with the subtrees below its
children. -/
theorem subtree_eq (hw : t.WellLinked) (n : NodeId) :
    t.subtree n = .node n (t.kind n) (t.region n) ((t.children n).map t.subtree) := by
  rw [subtree, hw.subtreeWithin_congr t.size (t.size + 1) n (t.rank_le_size n)
    (Nat.le_succ_of_le (t.rank_le_size n)), subtreeWithin]
  rfl

/-- Any two numbers of steps that lead to the top lead through the same nodes. -/
theorem climb_congr (hw : t.WellLinked) (d : Nat) : ∀ (d' : Nat) (n : NodeId),
    t.size ≤ t.rank n + d → t.size ≤ t.rank n + d' →
      lineage.climb t d n = lineage.climb t d' n := by
  have hrank : ∀ {n p}, t.parent n = some p → t.rank n < t.rank p := fun hp =>
    hw.rank_child_lt (hw.child_of_parent hp)
  have htop : ∀ n, t.size ≤ t.rank n → t.parent n = none := fun n hn => by
    cases hp : t.parent n with
    | none => rfl
    | some p =>
        have := hrank hp
        have := t.rank_le_size p
        omega
  induction d with
  | zero =>
      intro d' n hn _
      cases d' with
      | zero => rfl
      | succ d' => rw [lineage.climb, lineage.climb, htop n hn]
  | succ d ih =>
      intro d' n hn hn'
      cases d' with
      | zero => rw [lineage.climb, lineage.climb, htop n hn']
      | succ d' =>
          rw [lineage.climb, lineage.climb]
          cases hp : t.parent n with
          | none => rfl
          | some p =>
              have := hrank hp
              exact congrArg (n :: ·) (ih d' p (by omega) (by omega))

theorem lineage_eq (hw : t.WellLinked) (n : NodeId) :
    t.lineage n = n :: match t.parent n with
      | some p => t.lineage p
      | none => [] := by
  rw [lineage, hw.climb_congr t.size (t.size + 1) n (by omega) (by omega), lineage.climb]
  rfl

/-- Two trees show the same below a node if they agree on a set of nodes that
has all children of its members. -/
theorem subtree_congr (hw : t.WellLinked) {t' : Tree} (hw' : t'.WellLinked) (S : NodeId → Prop)
    (hchildren : ∀ n, S n → ∀ c ∈ t.children n, S c)
    (hsame : ∀ n, S n → t'.kind n = t.kind n ∧ t'.region n = t.region n ∧
      t'.children n = t.children n) (n : NodeId) : S n → t'.subtree n = t.subtree n := by
  induction n using hw.induction with
  | step n ih =>
      intro hn
      obtain ⟨hkind, hregion, hkids⟩ := hsame n hn
      rw [hw'.subtree_eq, hw.subtree_eq, hkind, hregion, hkids]
      congr 1
      exact List.map_congr_left fun c hc => ih c hc (hchildren n hn c hc)

/-! ## What keeps links in order -/

/-- Links stay in order when none of them changes. -/
theorem of_links_eq (hw : t.WellLinked) {t' : Tree} (hsize : t.size ≤ t'.size)
    (hchildren : ∀ n, t'.children n = t.children n) (hparent : ∀ n, t'.parent n = t.parent n) :
    t'.WellLinked where
  child_lt h := by
    rw [hchildren] at h
    exact Nat.lt_of_lt_of_le (hw.child_lt h) hsize
  parent_of_child h := by
    rw [hchildren] at h
    rw [hparent]
    exact hw.parent_of_child h
  child_of_parent h := by
    rw [hparent] at h
    rw [hchildren]
    exact hw.child_of_parent h
  nodup n := by
    rw [hchildren]
    exact hw.nodup n
  acyclic n := by
    rw [IsBelow, funext hparent]
    exact hw.acyclic n

theorem newNode (hw : t.WellLinked) (kind : NodeKind) (region : Region) :
    (t.newNode kind region).2.WellLinked :=
  hw.of_links_eq (by rw [size_newNode]; exact Nat.le_succ _) (children_newNode kind region)
    (parent_newNode kind region)

theorem withScopes (hw : t.WellLinked) (scopes : Scopes) : { t with scopes }.WellLinked :=
  hw.of_links_eq (Nat.le_refl _) (fun _ => rfl) (fun _ => rfl)

end WellLinked

theorem WellLinked.not_isBelow_of_leaf (hw : t.WellLinked) {n m : NodeId}
    (h : t.children n = []) : ¬ t.IsBelow m n := by
  intro hbelow
  obtain ⟨b, _, hb⟩ := Relation.TransGen.tail'_iff.1 hbelow
  have hmem := hw.child_of_parent hb
  rw [h] at hmem
  cases hmem

/-- A top is below nothing. -/
theorem not_isBelow_of_top {n m : NodeId} (h : t.parent n = none) : ¬ t.IsBelow n m := by
  intro hbelow
  obtain ⟨b, hb, _⟩ := Relation.TransGen.head'_iff.1 hbelow
  rw [h] at hb
  cases hb

section Link

variable {t' : Tree} {p c : NodeId}
  (hlink : ∀ {m q}, t'.parent m = some q → t.parent m = some q ∨ (m = c ∧ q = p))

include hlink

/-- Where one link is new at most, a way up that was not there before goes
through it. -/
theorem isBelow_of_link {a b : NodeId} (h : t'.IsBelow a b) :
    t.IsBelow a b ∨ ((a = c ∨ t.IsBelow a c) ∧ (b = p ∨ t.IsBelow p b)) := by
  induction h with
  | single hab =>
      rcases hlink hab with hold | ⟨rfl, rfl⟩
      · exact Or.inl (.single hold)
      · exact Or.inr ⟨Or.inl rfl, Or.inl rfl⟩
  | tail _ hbd ih =>
      rcases hlink hbd with hold | ⟨rfl, rfl⟩
      · rcases ih with hab | ⟨ha, rfl | hb⟩
        · exact Or.inl (hab.tail hold)
        · exact Or.inr ⟨ha, Or.inr (.single hold)⟩
        · exact Or.inr ⟨ha, Or.inr (hb.tail hold)⟩
      · rcases ih with hab | ⟨ha, _⟩
        · exact Or.inr ⟨Or.inr hab, Or.inl rfl⟩
        · exact Or.inr ⟨ha, Or.inl rfl⟩

/-- A new link closes no circle, unless its upper end is below its lower one. -/
theorem acyclic_of_link (hw : ∀ n, ¬ t.IsBelow n n) (hne : p ≠ c) (hnot : ¬ t.IsBelow p c)
    (n : NodeId) : ¬ t'.IsBelow n n := by
  intro hn
  rcases isBelow_of_link hlink hn with hold | ⟨rfl | hlow, rfl | hhigh⟩
  · exact hw n hold
  · exact hne rfl
  · exact hnot hhigh
  · exact hnot hlow
  · exact hnot (hhigh.trans hlow)

end Link

section AddChild

variable {p c : NodeId} (hp : p.index < t.size) (hc : c.index < t.size)
  (hfree : t.parent c = none) (hne : p ≠ c) (hnot : ¬ t.IsBelow p c)

include hp hc hfree hne hnot

/-- A top may be attached to any node that is not below it. -/
theorem WellLinked.addChild (hw : t.WellLinked) : (t.addChild p c).WellLinked where
  child_lt {n m} hm := by
    rw [size_addChild]
    rw [children_addChild hp hc hfree hne] at hm
    split at hm
    · rcases List.mem_append.1 hm with hm | hm
      · exact hw.child_lt hm
      · rw [List.mem_singleton.1 hm]
        exact hc
    · exact hw.child_lt hm
  parent_of_child {n m} hm := by
    rw [children_addChild hp hc hfree hne] at hm
    rw [parent_addChild hp hc hfree hne]
    split at hm
    · next h =>
        rcases List.mem_append.1 hm with hm | hm
        · rw [if_neg (fun hmc => hw.not_mem_children hfree p (by rw [← hmc]; exact hm)), h]
          exact hw.parent_of_child hm
        · rw [if_pos (List.mem_singleton.1 hm), h]
    · rw [if_neg (fun hmc => hw.not_mem_children hfree n (by rw [← hmc]; exact hm))]
      exact hw.parent_of_child hm
  child_of_parent {n m} hm := by
    rw [parent_addChild hp hc hfree hne] at hm
    rw [children_addChild hp hc hfree hne]
    split at hm
    · next h =>
        cases hm
        rw [if_pos rfl, h]
        exact List.mem_append_right _ (List.mem_singleton.2 rfl)
    · have hmem := hw.child_of_parent hm
      split
      · next h =>
          rw [h] at hmem
          exact List.mem_append_left _ hmem
      · exact hmem
  nodup n := by
    rw [children_addChild hp hc hfree hne]
    split
    · rw [List.nodup_append]
      refine ⟨hw.nodup p, List.nodup_singleton c, ?_⟩
      intro a ha b hb hab
      rw [List.mem_singleton.1 hb] at hab
      exact hw.not_mem_children hfree p (by rw [← hab]; exact ha)
    · exact hw.nodup n
  acyclic := by
    refine acyclic_of_link (fun {m q} hm => ?_) hw.acyclic hne hnot
    rw [parent_addChild hp hc hfree hne] at hm
    split at hm
    · next heq => exact Or.inr ⟨heq, (Option.some.inj hm).symm⟩
    · exact Or.inl hm

end AddChild

end Lindenmayer.Tree
