import Lindenmayer.Evaluation.Folding
import Lindenmayer.Proofs.Editing
import Lindenmayer.Proofs.Evaluation

/-!
# Folding keeps the meaning of every node

Folding changes a tree while it walks it, and may end midway with an error. So
the statement cannot be about the tree that comes out of a fold that went
well; it is an invariant of the walk. `SameMeaning` says what every tree on the
way has in common with the tree before: the old nodes are there, and each has
the value and the type it had, in every context that extends the one that is
folded with. That holds of nodes that were spliced out as well, since those
keep their children.

One step puts a literal in the place of one node. `node_replaceByValue` says in
one equation what becomes of each node; the value of every other node then
stays by induction over the tree, because below it the literal has the value
of the node that it replaces (`evaluate_replaceByValue`). The walk adds
nothing but transitivity, whatever the order it visits nodes in.
-/

namespace Lindenmayer.Tree

variable {t t' : Tree} {ctx ctx' : Context}

/-! ## One replacement -/

/-- What is said of the children is the same after the replacement, if it is
the same of the new child as of the one it replaces. -/
theorem map_substitute {α : Type} {n new : NodeId} {cs : List NodeId} {f g : NodeId → α}
    (hnew : f new = g n) (hsame : ∀ c ∈ cs, f c = g c) :
    (substitute n new cs).map f = cs.map g := by
  rw [substitute, List.map_map]
  refine List.map_congr_left fun c hc => ?_
  show f (if c = n then new else c) = g c
  split
  · next h => rw [h, hnew]
  · exact hsame c hc

theorem replaceByValue_eq (n : NodeId) (v : Value) :
    t.replaceByValue n v =
      (t.newNode (.ofValue v) (t.fullRegion n)).2.replaceWith n ⟨t.size⟩ := rfl

/-- The tree after a node was replaced: wherever the node was a child the
literal is, and the literal has the parent that the node had. -/
theorem node_replaceByValue (hw : t.WellLinked) {n : NodeId} (hn : n.index < t.size)
    (v : Value) (m : NodeId) :
    (t.replaceByValue n v).2.node m =
      if m = ⟨t.size⟩ then ⟨.ofValue v, t.fullRegion n, t.parent n, []⟩
      else { t.node m with
        parent := if m = n then none else t.parent m
        children := substitute n ⟨t.size⟩ (t.children m) } := by
  have hnode := node_newNode (t := t) (.ofValue v) (t.fullRegion n)
  have hfresh : n ≠ ⟨t.size⟩ := fun h => absurd hn (by rw [h]; exact Nat.lt_irrefl _)
  rw [replaceByValue_eq, replaceWith, parent_newNode]
  cases hp : t.parent n with
  | none =>
      dsimp only
      rw [hnode, substitute_of_not_mem (hw.not_mem_children hp m)]
      split
      · rfl
      · split
        · next h => rw [h, ← hp]; rfl
        · rfl
  | some p =>
      dsimp only
      have hmem := hw.child_of_parent hp
      have hpfresh : p ≠ ⟨t.size⟩ := fun h =>
        absurd (index_lt_of_mem_children hmem) (by rw [h]; exact Nat.lt_irrefl _)
      -- Nobody has the literal for a child before it takes its place.
      have hkeep : (t.children m).filter (· != ⟨t.size⟩) = t.children m :=
        filter_ne_of_not_mem fun hc => Nat.lt_irrefl _ (hw.child_lt hc)
      rw [node_replaceChild (hw.newNode _ _).toLinked (by rw [children_newNode]; exact hmem) hfresh
        (by rw [size_newNode]; exact Nat.lt_succ_self _) hpfresh, children_newNode, parent_newNode,
        hkeep, hnode]
      by_cases hm : m = ⟨t.size⟩
      · have hnone : t.children m = [] := by rw [hm, children, node_fresh]; rfl
        rw [if_pos hm, if_pos hm, if_pos hm, hnone]
        rfl
      · rw [if_neg hm, if_neg hm, if_neg hm]

@[simp] theorem size_replaceByValue (n : NodeId) (v : Value) :
    (t.replaceByValue n v).2.size = t.size + 1 := by
  rw [replaceByValue_eq, size_replaceWith, size_newNode]

@[simp] theorem scopes_replaceByValue (n : NodeId) (v : Value) :
    (t.replaceByValue n v).2.scopes = t.scopes := by
  rw [replaceByValue_eq, scopes_replaceWith, scopes_newNode]

theorem wellLinked_replaceByValue (hw : t.WellLinked) (n : NodeId) (v : Value) :
    (t.replaceByValue n v).2.WellLinked := by
  rw [replaceByValue_eq]
  refine (hw.newNode _ _).replaceWith fun p hp => ?_
  rw [parent_newNode] at hp
  have hplt := index_lt_of_mem_children (hw.child_of_parent hp)
  refine ⟨?_, ?_, fun h => absurd hplt (by rw [h]; exact Nat.lt_irrefl _), ?_⟩
  · rw [size_newNode]
    exact Nat.lt_succ_of_lt hplt
  · rw [size_newNode]
    exact Nat.lt_succ_self _
  · exact (hw.newNode _ _).not_isBelow_of_leaf (by rw [children, node_newNode_self])

section Replaced

variable (hw : t.WellLinked) {n : NodeId} (hn : n.index < t.size) (v : Value)

include hw hn

theorem children_replaceByValue (m : NodeId) :
    (t.replaceByValue n v).2.children m = substitute n ⟨t.size⟩ (t.children m) := by
  rw [children, node_replaceByValue hw hn]
  split
  · next h =>
      have hnone : t.children m = [] := by rw [h, children, node_fresh]; rfl
      rw [hnone]
      rfl
  · rfl

theorem kind_replaceByValue {m : NodeId} (hm : m.index < t.size) :
    (t.replaceByValue n v).2.kind m = t.kind m := by
  have hne : m ≠ ⟨t.size⟩ := fun h => absurd hm (by rw [h]; exact Nat.lt_irrefl _)
  rw [kind, node_replaceByValue hw hn, if_neg hne]
  rfl

theorem kind_replaceByValue_fresh : (t.replaceByValue n v).2.kind ⟨t.size⟩ = .ofValue v := by
  rw [kind, node_replaceByValue hw hn, if_pos rfl]

variable {v}

/-- A node may be replaced by its value as far as values go. -/
theorem evaluate_replaceByValue (hv : t.evaluate ctx n = .ok v) (m : NodeId) :
    m.index < t.size → (t.replaceByValue n v).2.evaluate ctx m = t.evaluate ctx m := by
  have hw' := wellLinked_replaceByValue hw n v
  have hliteral : (t.replaceByValue n v).2.evaluate ctx ⟨t.size⟩ = t.evaluate ctx n := by
    rw [hv, evaluate_eq hw', kind_replaceByValue_fresh hw hn]
    cases v <;> rfl
  induction m using hw.induction with
  | step m ih =>
      intro hm
      rw [evaluate_eq hw', evaluate_eq hw, scopes_replaceByValue, kind_replaceByValue hw hn v hm,
        children_replaceByValue hw hn,
        map_substitute hliteral fun c hc => ih c hc (hw.child_lt hc)]

/-- A node may be replaced by its value as far as types go. -/
theorem typeOf_replaceByValue (hv : t.evaluate ctx n = .ok v) (m : NodeId) :
    m.index < t.size → (t.replaceByValue n v).2.typeOf ctx m = t.typeOf ctx m := by
  have hw' := wellLinked_replaceByValue hw n v
  have hdeclared := declaredType_congr (scopes_replaceByValue (t := t) n v)
  have hliteral : (t.replaceByValue n v).2.typeOf ctx ⟨t.size⟩ = t.typeOf ctx n := by
    rw [typeOf_eq hw', kind_replaceByValue_fresh hw hn, typeOf, Subtree.typeOf_of_evaluate hv]
    cases v <;> rfl
  induction m using hw.induction with
  | step m ih =>
      intro hm
      rw [typeOf_eq hw', typeOf_eq hw, scopes_replaceByValue, kind_replaceByValue hw hn v hm,
        children_replaceByValue hw hn, hdeclared,
        map_substitute hliteral fun c hc => ih c hc (hw.child_lt hc)]

end Replaced

/-! ## The walk -/

/-- What every visit keeps a whole walk keeps, also one that ends early. -/
theorem rewriteWithin_keeps {ε σ : Type} {P : Tree → Prop} {visit : Visitor ε σ}
    (hvisit : ∀ n t state, P t → P (visit n t state).2.1) (depth : Nat) :
    ∀ n t state, P t → P (rewriteWithin visit depth n t state).2.1 := by
  induction depth with
  | zero => exact hvisit
  | succ depth ih =>
      have hall : ∀ ns t state, P t →
          P (rewriteAll (rewriteWithin visit depth) ns t state).2.1 := by
        intro ns
        induction ns with
        | nil => intro t state h; exact h
        | cons n ns ihns =>
            intro t state h
            have hn := ih n t state h
            rw [rewriteAll]
            split
            · next heq => rw [heq] at hn; exact hn
            · next heq => rw [heq] at hn; exact ihns _ _ hn
            · next heq => rw [heq] at hn; exact hn
      intro n t state h
      have hchildren := hall (t.children n) t state h
      rw [rewriteWithin]
      split
      · next heq => rw [heq] at hchildren; exact hchildren
      · next heq => rw [heq] at hchildren; exact hvisit _ _ _ hchildren
      · next heq => rw [heq] at hchildren; exact hchildren

theorem foldConstants_tree (n : NodeId) :
    (t.foldConstants ctx n).2 = (rewriteWithin (foldNode ctx) t.size n t 0).2.1 := by
  rw [foldConstants, rewritePostOrder]
  rcases rewriteWithin (foldNode ctx) t.size n t 0 with ⟨flow | e, u, count⟩
  · rfl
  · rfl

/-- What a tree on the way of a fold has in common with the tree before it. -/
structure SameMeaning (ctx : Context) (t t' : Tree) : Prop where
  wellLinked : t'.WellLinked
  size_le : t.size ≤ t'.size
  value : ∀ m, m.index < t.size → t'.evaluate ctx m = t.evaluate ctx m
  type : ∀ m, m.index < t.size → t'.typeOf ctx m = t.typeOf ctx m

namespace SameMeaning

theorem refl (hw : t.WellLinked) : SameMeaning ctx t t :=
  ⟨hw, Nat.le_refl _, fun _ _ => rfl, fun _ _ => rfl⟩

theorem trans {t'' : Tree} (h : SameMeaning ctx t t') (h' : SameMeaning ctx t' t'') :
    SameMeaning ctx t t'' where
  wellLinked := h'.wellLinked
  size_le := Nat.le_trans h.size_le h'.size_le
  value m hm := (h'.value m (Nat.lt_of_lt_of_le hm h.size_le)).trans (h.value m hm)
  type m hm := (h'.type m (Nat.lt_of_lt_of_le hm h.size_le)).trans (h.type m hm)

theorem replaceByValue (hw : t.WellLinked) {n : NodeId} (hn : n.index < t.size) {v : Value}
    (hv : t.evaluate ctx n = .ok v) : SameMeaning ctx t (t.replaceByValue n v).2 where
  wellLinked := wellLinked_replaceByValue hw n v
  size_le := by rw [size_replaceByValue]; exact Nat.le_succ _
  value := evaluate_replaceByValue hw hn hv
  type := typeOf_replaceByValue hw hn hv

end SameMeaning

/-- Only what was made is folded. -/
theorem index_lt_of_isFoldable {n : NodeId} (h : isFoldable (t.kind n) = true) :
    n.index < t.size :=
  index_lt_of_kind rfl fun scope hroot => by
    rw [hroot] at h
    cases h

/-- A visit replaces a node only by the value that the node has, in the context
of the fold and so in every context that extends it. -/
theorem foldNode_sameMeaning (hext : ctx'.Extends ctx) (hw : t.WellLinked) (n : NodeId)
    (count : Nat) : SameMeaning ctx' t (foldNode ctx n t count).2.1 := by
  rw [foldNode]
  split
  · exact .refl hw
  · next hfoldable =>
      have hn : n.index < t.size := index_lt_of_isFoldable (by simpa using hfoldable)
      split
      · exact .refl hw
      · exact .refl hw
      · next value hreduce =>
          have hv : t.evaluate ctx n = .ok value := by
            rw [reduce] at hreduce
            split at hreduce
            · next h => cases hreduce; exact h
            · cases hreduce
            · cases hreduce
          have hstep := SameMeaning.replaceByValue hw hn (evaluate_of_extends hext hv)
          split
          · next heq => rw [heq] at hstep; exact hstep
          · next heq => rw [heq] at hstep; exact hstep

/-- Folding constants changes neither the value nor the type of any node that
was there before, whether it is still attached or not, in any context that
extends the one that is folded with; and it does not matter whether the fold
ended with an error. -/
theorem foldConstants_keeps_meaning (hw : t.WellLinked) (hext : ctx'.Extends ctx) (n m : NodeId)
    (hm : m.index < t.size) :
    (t.foldConstants ctx n).2.evaluate ctx' m = t.evaluate ctx' m ∧
    (t.foldConstants ctx n).2.typeOf ctx' m = t.typeOf ctx' m := by
  have hkeeps : SameMeaning ctx' t (t.foldConstants ctx n).2 := by
    rw [foldConstants_tree]
    refine rewriteWithin_keeps (P := SameMeaning ctx' t) (fun k u state hu => ?_) t.size n t 0
      (.refl hw)
    exact hu.trans (foldNode_sameMeaning hext hu.wellLinked k state)
  exact ⟨hkeeps.value m hm, hkeeps.type m hm⟩

/-- The sum is folded and spliced out before the fold fails at the second
statement. -/
theorem foldConstants_keeps_spliced_sum :
    ∃ t, ofSource "x * (2 + 3)\n'a' - 1" = .ok t ∧ t.WellLinked ∧
      Context.Extends (fun _ _ _ => .ok (.integer 7)) .empty ∧ 4 < t.size ∧
      (t.foldConstants .empty root).1 = .error (.typeMismatch .subtract .string .integer) ∧
      (t.foldConstants .empty root).2.parent ⟨4⟩ = none ∧
      (t.foldConstants .empty root).2.evaluate (fun _ _ _ => .ok (.integer 7)) ⟨4⟩ =
        t.evaluate (fun _ _ _ => .ok (.integer 7)) ⟨4⟩ ∧
      (t.foldConstants .empty root).2.typeOf (fun _ _ _ => .ok (.integer 7)) ⟨4⟩ =
        t.typeOf (fun _ _ _ => .ok (.integer 7)) ⟨4⟩ := by
  have hrun : (ofSource "x * (2 + 3)\n'a' - 1").toOption.any (fun t => 4 < t.size ∧
      (t.foldConstants .empty root).1 = .error (.typeMismatch .subtract .string .integer) ∧
      (t.foldConstants .empty root).2.parent ⟨4⟩ = none) = true := by decide +kernel
  cases ht : ofSource "x * (2 + 3)\n'a' - 1" with
  | error e =>
      rw [ht] at hrun
      cases hrun
  | ok t =>
      rw [ht] at hrun
      obtain ⟨hsize, herror, hparent⟩ := of_decide_eq_true hrun
      have hext : Context.Extends (fun _ _ _ => .ok (.integer 7)) .empty :=
        fun _ _ name h => absurd rfl (h name)
      have hw := wellLinked_of_ofSource ht
      exact ⟨t, rfl, hw, hext, hsize, herror, hparent,
        foldConstants_keeps_meaning hw hext root ⟨4⟩ hsize⟩

end Lindenmayer.Tree
