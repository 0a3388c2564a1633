import Lindenmayer.Proofs.Planting
import Lindenmayer.Proofs.Symbols

/-!
# Attaching before or after planting

Planting takes no notice of what it does not plant. Whether a top is attached
to another before something else is planted or afterwards is therefore the same,
and a program that puts each statement below the root as soon as it has read it
ends up with the tree of one that does so in the end. The tree that is planted
in shows in one place, the region of a statement, which is read off the nodes
below it; neither of the two tops is among those.
-/

namespace Lindenmayer.Tree

variable {t t' : Tree} {p n q c : NodeId}

/-- Trees are the same if they have the same nodes and the same scopes. -/
theorem ext_of_node (hsize : t'.size = t.size) (hscopes : t'.scopes = t.scopes)
    (hnode : ∀ m, t'.node m = t.node m) : t' = t := by
  obtain ⟨nodes, scopes⟩ := t
  obtain ⟨nodes', scopes'⟩ := t'
  obtain rfl : scopes' = scopes := hscopes
  congr 1
  refine Array.ext hsize fun i hi' hi => ?_
  have hi := hnode ⟨i⟩
  simp only [node] at hi
  rw [Array.getElem?_eq_getElem ‹_›, Array.getElem?_eq_getElem ‹_›] at hi
  exact hi

theorem Tops.addChild_wellLinked (h : t.Tops p [n]) (hw : t.WellLinked) :
    (t.addChild p n).WellLinked :=
  (addChildren_links [n] hw h).1

/-! ## What is done first -/

section Aside

variable (h : t.Tops p [n])

include h

theorem node_addChild_of_tops (m : NodeId) :
    (t.addChild p n).node m =
      if m = p then { t.node p with children := t.children p ++ [n] }
      else if m = n then { t.node n with parent := some p } else t.node m :=
  node_addChild h.upper_lt (h.lower_lt n List.mem_cons_self) (h.lower_top n List.mem_cons_self)
    (h.lower_ne n List.mem_cons_self) m

theorem parent_addChild_of_tops (m : NodeId) :
    (t.addChild p n).parent m = if m = n then some p else t.parent m :=
  parent_addChild h.upper_lt (h.lower_lt n List.mem_cons_self) (h.lower_top n List.mem_cons_self)
    (h.lower_ne n List.mem_cons_self) m

theorem withScopes_addChild (scopes : Scopes) :
    ({ t.addChild p n with scopes } : Tree) = ({ t with scopes } : Tree).addChild p n := by
  have htop : t.parent n = none := h.lower_top n List.mem_cons_self
  have htop' : ({ t with scopes } : Tree).parent n = none := htop
  rw [addChild, addChild, detach_of_parent_none htop, detach_of_parent_none htop']
  rfl

theorem Tops.newNode (kind : NodeKind) (region : Region) :
    (t.newNode kind region).2.Tops p [n] where
  upper_lt := by
    rw [size_newNode]
    exact Nat.lt_succ_of_lt h.upper_lt
  upper_top := by
    rw [parent_newNode]
    exact h.upper_top
  lower_lt c hc := by
    rw [size_newNode]
    exact Nat.lt_succ_of_lt (h.lower_lt c hc)
  lower_top c hc := by
    rw [parent_newNode]
    exact h.lower_top c hc
  lower_ne := h.lower_ne
  nodup := h.nodup

theorem newNode_addChild (kind : NodeKind) (region : Region) :
    (t.addChild p n).newNode kind region = (⟨t.size⟩, (t.newNode kind region).2.addChild p n) := by
  have hlt : n.index < t.size := h.lower_lt n List.mem_cons_self
  refine Prod.ext (congrArg NodeId.mk (size_addChild p n)) (ext_of_node ?_ ?_ fun m => ?_)
  · rw [size_newNode, size_addChild, size_addChild, size_newNode]
  · rw [scopes_newNode, scopes_addChild, scopes_addChild, scopes_newNode]
  · rw [node_newNode, size_addChild, node_addChild_of_tops h,
      node_addChild_of_tops (h.newNode kind region), node_newNode_of_lt kind region h.upper_lt,
      node_newNode_of_lt kind region hlt, children_newNode, node_newNode]
    by_cases hm : m = ⟨t.size⟩
    · have hmp : m ≠ p := fun hmp => absurd h.upper_lt (by rw [← hmp, hm]; exact Nat.lt_irrefl _)
      have hmn : m ≠ n := fun hmn => absurd hlt (by rw [← hmn, hm]; exact Nat.lt_irrefl _)
      rw [if_pos hm, if_neg hmp, if_neg hmn, if_pos hm]
    · rw [if_neg hm, if_neg hm]

theorem Tops.addChild (h' : t.Tops q [c]) (hqn : q ≠ n) (hcn : c ≠ n) :
    (t.addChild p n).Tops q [c] where
  upper_lt := by
    rw [size_addChild]
    exact h'.upper_lt
  upper_top := by
    rw [parent_addChild_of_tops h, if_neg hqn]
    exact h'.upper_top
  lower_lt d hd := by
    rw [size_addChild]
    exact h'.lower_lt d hd
  lower_top d hd := by
    rw [parent_addChild_of_tops h, if_neg (by rw [List.mem_singleton.1 hd]; exact hcn)]
    exact h'.lower_top d hd
  lower_ne := h'.lower_ne
  nodup := h'.nodup

/-- Tops are attached to tops in any order. -/
theorem addChild_addChild (h' : t.Tops q [c]) (hqp : q ≠ p) (hqn : q ≠ n) (hcp : c ≠ p)
    (hcn : c ≠ n) : (t.addChild p n).addChild q c = (t.addChild q c).addChild p n := by
  have hpn := h.lower_ne n List.mem_cons_self
  have hqc := h'.lower_ne c List.mem_cons_self
  refine ext_of_node ?_ ?_ fun m => ?_
  · simp only [size_addChild]
  · simp only [scopes_addChild]
  · have hkids : ∀ {q c p : NodeId} (_ : t.Tops q [c]), p ≠ q →
        (t.addChild q c).children p = t.children p := fun h hne => by
      rw [children_addChild h.upper_lt (h.lower_lt _ List.mem_cons_self)
        (h.lower_top _ List.mem_cons_self) (h.lower_ne _ List.mem_cons_self), if_neg hne]
    rw [node_addChild_of_tops (h.addChild h' hqn hcn),
      node_addChild_of_tops (h'.addChild h hcp.symm hcn.symm), hkids h hqp, hkids h' hqp.symm]
    simp only [node_addChild_of_tops h, node_addChild_of_tops h', if_neg hqp, if_neg hqn,
      if_neg hcp, if_neg hcn, if_neg hqp.symm, if_neg hqn.symm, if_neg hcp.symm, if_neg hcn.symm]
    by_cases hmp : m = p
    · rw [if_pos hmp, hmp, if_neg hqp.symm, if_neg hcp.symm, if_pos rfl]
    · rw [if_neg hmp]
      by_cases hmn : m = n
      · rw [if_pos hmn, hmn, if_neg hqn.symm, if_neg hcn.symm, if_neg hpn.symm, if_pos rfl]
      · simp only [if_neg hmp, if_neg hmn]

/-- Nothing that is below another top changes. -/
theorem fullRegion_addChild (hw : t.WellLinked) (hne : c ≠ p) :
    (t.addChild p n).fullRegion c = t.fullRegion c := by
  rw [fullRegion, fullRegion]
  congr 1
  refine hw.subtree_congr (h.addChild_wellLinked hw) (fun m => m ≠ p) ?_ (fun m hm => ?_) c hne
  · intro m _ d hd heq
    rw [heq] at hd
    exact hw.not_mem_children h.upper_top m hd
  · have hlt := h.lower_lt n List.mem_cons_self
    have htop := h.lower_top n List.mem_cons_self
    have hpn := h.lower_ne n List.mem_cons_self
    refine ⟨kind_addChild h.upper_lt hlt htop hpn m, region_addChild h.upper_lt hlt htop hpn m, ?_⟩
    rw [children_addChild h.upper_lt hlt htop hpn, if_neg hm]

end Aside

theorem addChildren_addChild (ms : List NodeId) : ∀ {t : Tree}, t.Tops p [n] → t.Tops q ms →
    q ≠ p → q ≠ n → p ∉ ms → n ∉ ms →
      (t.addChild p n).addChildren q ms = (t.addChildren q ms).addChild p n := by
  induction ms with
  | nil => intros; rfl
  | cons c ms ih =>
      intro t h hq hqp hqn hp hn
      rw [List.mem_cons, not_or] at hp hn
      have hc : t.Tops q [c] :=
        ⟨hq.upper_lt, hq.upper_top,
          fun d hd => hq.lower_lt d (by rw [List.mem_singleton.1 hd]; exact List.mem_cons_self),
          fun d hd => hq.lower_top d (by rw [List.mem_singleton.1 hd]; exact List.mem_cons_self),
          fun d hd => hq.lower_ne d (by rw [List.mem_singleton.1 hd]; exact List.mem_cons_self),
          List.nodup_singleton c⟩
      have hnext := ih (hc.addChild h hp.1 hn.1) hq.addChild_head hqp hqn hp.2 hn.2
      rw [addChildren, List.foldl_cons,
        addChild_addChild h hc hqp hqn (Ne.symm hp.1) (Ne.symm hn.1)]
      exact hnext

/-! ## A new node on top -/

namespace Planted

variable {ns : List NodeId} (h : Planted t t' ns) (hx : t.Tops p [n])

include h hx

theorem tops_frame : t'.Tops p [n] where
  upper_lt := Nat.lt_of_lt_of_le hx.upper_lt h.size_le
  upper_top := by
    rw [parent, h.frame p hx.upper_lt]
    exact hx.upper_top
  lower_lt c hc := Nat.lt_of_lt_of_le (hx.lower_lt c hc) h.size_le
  lower_top c hc := by
    rw [parent, h.frame c (hx.lower_lt c hc)]
    exact hx.lower_top c hc
  lower_ne := hx.lower_ne
  nodup := hx.nodup

omit hx in
/-- What was planted is not what was there before. -/
theorem not_mem_of_lt {m : NodeId} (hm : m.index < t.size) : m ∉ ns :=
  fun hmem => absurd hm (Nat.not_lt.2 (h.new m hmem))

theorem newAbove_addChild (kind : NodeKind) (region : Region) :
    (t'.addChild p n).newAbove kind region ns =
      ((t'.newAbove kind region ns).1, (t'.newAbove kind region ns).2.addChild p n) := by
  have hx' := h.tops_frame hx
  have hfresh : ∀ m : NodeId, m.index < t'.size → (⟨t'.size⟩ : NodeId) ≠ m := by
    rintro m hm rfl
    exact Nat.lt_irrefl _ hm
  have hgraft := addChildren_addChild ns (hx'.newNode kind region) (h.tops_newNode kind region)
    (hfresh p hx'.upper_lt) (hfresh n (hx'.lower_lt n List.mem_cons_self))
    (h.not_mem_of_lt hx.upper_lt) (h.not_mem_of_lt (hx.lower_lt n List.mem_cons_self))
  rw [newAbove, newNode_addChild hx', size_addChild, hgraft]
  rfl

end Planted

/-! ## Planting -/

theorem plantExpr_addChild (scope : ScopeId) (e : Expr) : ∀ {t : Tree}, t.WellLinked →
    t.Tops p [n] → plantExpr scope (t.addChild p n) e =
      ((plantExpr scope t e).1, (plantExpr scope t e).2.addChild p n) := by
  induction e with
  | number m region => exact fun _ hx => newNode_addChild hx _ _
  | string s region => exact fun _ hx => newNode_addChild hx _ _
  | identifier name region =>
      intro t _ hx
      rw [plantExpr, newNode_addChild hx]
      refine Prod.ext rfl ?_
      dsimp only
      rw [scopes_addChild]
      exact withScopes_addChild (hx.newNode _ _) _
  | operation operator region lhs rhs ihl ihr =>
      intro t hw hx
      obtain ⟨hl, _⟩ := plantExpr_shows scope lhs hw
      obtain ⟨hr, _⟩ := plantExpr_shows scope rhs hl.wellLinked
      rw [plantExpr_operation, ihl hw hx, ihr hl.wellLinked (hl.tops_frame hx)]
      exact (hl.trans hr).newAbove_addChild hx (.operation operator) region

theorem plantExpression_addChild (scope : ScopeId) (e : Expression) (hw : t.WellLinked)
    (hx : t.Tops p [n]) : plantExpression scope (t.addChild p n) e =
      ((plantExpression scope t e).1, (plantExpression scope t e).2.addChild p n) := by
  obtain ⟨hvalue, _⟩ := plantExpr_shows scope e.value hw
  rw [plantExpression_eq, plantExpr_addChild scope e.value hw hx]
  exact hvalue.newAbove_addChild hx .expression e.region

theorem wrapStatement_addChild {m : NodeId} (h : Planted t t' [m]) (hx : t.Tops p [n]) :
    (t'.addChild p n).wrapStatement m =
      ((t'.wrapStatement m).1, (t'.wrapStatement m).2.addChild p n) := by
  have hmp : m ≠ p := by
    rintro rfl
    exact h.not_mem_of_lt hx.upper_lt List.mem_cons_self
  rw [wrapStatement_eq, fullRegion_addChild (h.tops_frame hx) h.wellLinked hmp]
  exact h.newAbove_addChild hx .statement (t'.fullRegion m)

mutual

theorem plantStatement_addChild (scope : ScopeId) (st : Statement) {t : Tree} (hw : t.WellLinked)
    (hx : t.Tops p [n]) : plantStatement scope (t.addChild p n) st =
      ((plantStatement scope t st).1, (plantStatement scope t st).2.addChild p n) := by
  match st with
  | .assignment name region value =>
      obtain ⟨hvalue, _⟩ := plantExpression_shows scope value hw
      rw [plantStatement_assignment, plantExpression_addChild scope value hw hx]
      dsimp only
      rw [hvalue.newAbove_addChild hx (.assignment name scope) region]
      exact wrapStatement_addChild (hvalue.wrap (.assignment name scope) region).1 hx
  | .rule name expected replacement region =>
      have hinner := (Planted.refl hw).wrap (.rule name expected replacement) region
      rw [plantStatement_rule, (Planted.refl hw).newAbove_addChild hx]
      exact wrapStatement_addChild hinner.1 hx
  | .block region body =>
      have hx' : ({ t with scopes := (t.scopes.createAnonymous scope).2 } : Tree).Tops p [n] :=
        ⟨hx.upper_lt, hx.upper_top, hx.lower_lt, hx.lower_top, hx.lower_ne, hx.nodup⟩
      have hw' := hw.withScopes (t.scopes.createAnonymous scope).2
      obtain ⟨hbody, _⟩ := plantAll_shows (t.scopes.createAnonymous scope).1 body hw'
      have hall := plantAll_addChild (t.scopes.createAnonymous scope).1 body hw' hx'
      rw [← withScopes_addChild hx] at hall
      rw [plantStatement_block, scopes_addChild]
      dsimp only at hall ⊢
      rw [hall]
      dsimp only
      rw [hbody.newAbove_addChild hx' (.block (t.scopes.createAnonymous scope).1) region]
      exact wrapStatement_addChild
        (hbody.of_withScopes.wrap (.block (t.scopes.createAnonymous scope).1) region).1 hx
  | .expression value =>
      obtain ⟨hvalue, _⟩ := plantExpression_shows scope value hw
      rw [plantStatement_expression, plantExpression_addChild scope value hw hx]
      exact wrapStatement_addChild hvalue hx

/-- What is attached to one another before statements are planted might as well be
attached afterwards. -/
theorem plantAll_addChild (scope : ScopeId) (sts : List Statement) {t : Tree} (hw : t.WellLinked)
    (hx : t.Tops p [n]) : plantAll scope (t.addChild p n) sts =
      ((plantAll scope t sts).1, (plantAll scope t sts).2.addChild p n) := by
  match sts with
  | [] => rw [plantAll, plantAll]
  | st :: more =>
      obtain ⟨hfirst, _⟩ := plantStatement_shows scope st hw
      simp only [plantAll, plantStatement_addChild scope st hw hx,
        plantAll_addChild scope more hfirst.wellLinked (hfirst.tops_frame hx)]

end

end Lindenmayer.Tree
