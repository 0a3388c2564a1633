import Lindenmayer.Proofs.Links
import Lindenmayer.Tree.Planting

/-!
# What planting leaves behind

Planting makes nodes behind those that are there, links the new ones among
each other, and touches nothing old. `Planted` is that fact together with the
links being in order, and it composes: what is planted second leaves alone what
was planted first, so the subtree below an earlier node reads as it did.

What was planted can then be read off again. `Shows` compares a subtree with
the syntax it was planted from, kind by kind; names of nodes are not compared,
and neither is the region of a statement, which has no counterpart in the
syntax. The main statements, `plantExpr_shows` to `ofStatements_shows`, follow
the recursion of planting.
-/

namespace Lindenmayer

/-! ## Syntax and the subtrees that show it -/

/-- Whether a subtree is an expression as it was read in a scope. -/
def Expr.Shows (scope : ScopeId) : Expr → Subtree → Prop
  | .number n region, s => ∃ id, s = .node id (.number n) region []
  | .string str region, s => ∃ id, s = .node id (.string str) region []
  | .identifier name region, s => ∃ id, s = .node id (.identifier name scope) region []
  | .operation operator region lhs rhs, s =>
    ∃ id l r, s = .node id (.operation operator) region [l, r] ∧
      lhs.Shows scope l ∧ rhs.Shows scope r

/-- Whether a subtree is an expression with its own node on top. -/
def Expression.Shows (scope : ScopeId) (e : Expression) (s : Subtree) : Prop :=
  ∃ id value, s = .node id .expression e.region [value] ∧ e.value.Shows scope value

mutual

/-- Whether a subtree is a statement as it was read in a scope. -/
def Statement.Shows (scope : ScopeId) : Statement → Subtree → Prop
  | .assignment name region value, s =>
    ∃ id full id' v, s = .node id .statement full [.node id' (.assignment name scope) region [v]] ∧
      value.Shows scope v
  | .rule name expected replacement region, s =>
    ∃ id full id',
      s = .node id .statement full [.node id' (.rule name expected replacement) region []]
  | .block region body, s =>
    ∃ id full id' inner statements,
      s = .node id .statement full [.node id' (.block inner) region statements] ∧
      Statement.ShowsAll inner body statements
  | .expression value, s =>
    ∃ id full v, s = .node id .statement full [v] ∧ value.Shows scope v

/-- Whether subtrees are statements as they were read in a scope, in order. -/
def Statement.ShowsAll (scope : ScopeId) : List Statement → List Subtree → Prop
  | [], ss => ss = []
  | st :: more, ss =>
    ∃ s ss', ss = s :: ss' ∧ st.Shows scope s ∧ Statement.ShowsAll scope more ss'

end

namespace Tree

variable {t t' t'' : Tree}

/-! ## Planting, one node at a time -/

/-- Makes a node on top of others. All that planting makes, it makes like this. -/
def newAbove (t : Tree) (kind : NodeKind) (region : Region) (ns : List NodeId) : NodeId × Tree :=
  (⟨t.size⟩, (t.newNode kind region).2.addChildren ⟨t.size⟩ ns)

section Equations

variable (scope : ScopeId) (t : Tree) (region : Region)

theorem plantExpr_operation (operator : Operator) (lhs rhs : Expr) :
    plantExpr scope t (.operation operator region lhs rhs) =
      (plantExpr scope (plantExpr scope t lhs).2 rhs).2.newAbove (.operation operator) region
        [(plantExpr scope t lhs).1, (plantExpr scope (plantExpr scope t lhs).2 rhs).1] := rfl

theorem plantExpression_eq (e : Expression) :
    plantExpression scope t e =
      (plantExpr scope t e.value).2.newAbove .expression e.region [(plantExpr scope t e.value).1] :=
  rfl

theorem wrapStatement_eq (m : NodeId) :
    t.wrapStatement m = t.newAbove .statement (t.fullRegion m) [m] := rfl

theorem plantStatement_assignment (name : String) (value : Expression) :
    plantStatement scope t (.assignment name region value) =
      ((plantExpression scope t value).2.newAbove (.assignment name scope) region
        [(plantExpression scope t value).1]).2.wrapStatement
        ((plantExpression scope t value).2.newAbove (.assignment name scope) region
          [(plantExpression scope t value).1]).1 := by
  rw [plantStatement]
  rfl

theorem plantStatement_rule (name : Option String) (expected replacement : String) :
    plantStatement scope t (.rule name expected replacement region) =
      (t.newAbove (.rule name expected replacement) region []).2.wrapStatement
        (t.newAbove (.rule name expected replacement) region []).1 := by
  rw [plantStatement]
  rfl

theorem plantStatement_expression (value : Expression) :
    plantStatement scope t (.expression value) =
      (plantExpression scope t value).2.wrapStatement (plantExpression scope t value).1 := by
  rw [plantStatement]

/-- The body of a block is planted in a scope of its own, and the block on top of
it. -/
theorem plantStatement_block (body : List Statement) :
    plantStatement scope t (.block region body) =
      let inner := (t.scopes.createAnonymous scope).1
      let planted := plantAll inner { t with scopes := (t.scopes.createAnonymous scope).2 } body
      let block := planted.2.newAbove (.block inner) region planted.1
      block.2.wrapStatement block.1 := by
  rw [plantStatement]
  rfl

end Equations

/-! ## Joining several tops -/

/-- A top of a tree and others that are to be attached to it. -/
structure Tops (t : Tree) (p : NodeId) (cs : List NodeId) : Prop where
  upper_lt : p.index < t.size
  upper_top : t.parent p = none
  lower_lt : ∀ c ∈ cs, c.index < t.size
  lower_top : ∀ c ∈ cs, t.parent c = none
  lower_ne : ∀ c ∈ cs, p ≠ c
  nodup : cs.Nodup

namespace Tops

variable {p c : NodeId} {cs : List NodeId}

theorem addChild_head (h : t.Tops p (c :: cs)) : (t.addChild p c).Tops p cs := by
  have hmem : c ∈ c :: cs := List.mem_cons_self
  have hparent := parent_addChild h.upper_lt (h.lower_lt c hmem) (h.lower_top c hmem)
    (h.lower_ne c hmem)
  refine ⟨?_, ?_, ?_, ?_, ?_, (List.nodup_cons.1 h.nodup).2⟩
  · rw [size_addChild]
    exact h.upper_lt
  · rw [hparent, if_neg (h.lower_ne c hmem)]
    exact h.upper_top
  · intro d hd
    rw [size_addChild]
    exact h.lower_lt d (List.mem_cons_of_mem c hd)
  · intro d hd
    have hdc : d ≠ c := fun hdc => (List.nodup_cons.1 h.nodup).1 (by rw [← hdc]; exact hd)
    rw [hparent, if_neg hdc]
    exact h.lower_top d (List.mem_cons_of_mem c hd)
  · exact fun d hd => h.lower_ne d (List.mem_cons_of_mem c hd)

end Tops

@[simp] theorem size_addChildren (p : NodeId) (cs : List NodeId) :
    ∀ t : Tree, (t.addChildren p cs).size = t.size := by
  induction cs with
  | nil => intro t; rfl
  | cons c cs ih => intro t; exact (ih _).trans (size_addChild p c)

/-- Joining tops puts the links there and leaves all else alone. -/
theorem addChildren_links {p : NodeId} (cs : List NodeId) : ∀ {t : Tree}, t.WellLinked →
    t.Tops p cs →
      (t.addChildren p cs).WellLinked ∧ ∀ m,
        (t.addChildren p cs).kind m = t.kind m ∧
        (t.addChildren p cs).region m = t.region m ∧
        (t.addChildren p cs).children m =
          (if m = p then t.children p ++ cs else t.children m) ∧
        (t.addChildren p cs).parent m = if m ∈ cs then some p else t.parent m := by
  induction cs with
  | nil =>
      intro t hw _
      refine ⟨hw, fun m => ⟨rfl, rfl, ?_, ?_⟩⟩
      · split
        · next h => rw [h, List.append_nil]; rfl
        · rfl
      · rw [if_neg List.not_mem_nil]; rfl
  | cons c cs ih =>
      intro t hw h
      have hmem : c ∈ c :: cs := List.mem_cons_self
      have hne := h.lower_ne c hmem
      have hchildren := children_addChild h.upper_lt (h.lower_lt c hmem) (h.lower_top c hmem) hne
      have hparent := parent_addChild h.upper_lt (h.lower_lt c hmem) (h.lower_top c hmem) hne
      have hstep := hw.addChild h.upper_lt (h.lower_lt c hmem) (h.lower_top c hmem) hne
        (not_isBelow_of_top h.upper_top)
      obtain ⟨hw', hrest⟩ := ih hstep h.addChild_head
      refine ⟨hw', fun m => ?_⟩
      obtain ⟨hkind, hregion, hkids, hup⟩ := hrest m
      refine ⟨hkind.trans ?_, hregion.trans ?_, hkids.trans ?_, hup.trans ?_⟩
      · exact kind_addChild h.upper_lt (h.lower_lt c hmem) (h.lower_top c hmem) hne m
      · exact region_addChild h.upper_lt (h.lower_lt c hmem) (h.lower_top c hmem) hne m
      · rw [hchildren, hchildren, if_pos rfl, List.append_assoc, List.singleton_append]
        split
        · rfl
        · rfl
      · rw [hparent]
        by_cases hm : m ∈ cs
        · rw [if_pos hm, if_pos (List.mem_cons_of_mem c hm)]
        · rw [if_neg hm]
          by_cases hmc : m = c
          · rw [if_pos hmc, if_pos (by rw [hmc]; exact hmem)]
          · rw [if_neg hmc, if_neg (fun h => (List.mem_cons.1 h).elim hmc hm)]

/-! ## Old nodes and new ones -/

/-- `t'` is `t` with nodes behind it that are linked among each other only, and
of those `ns` are attached to nothing. -/
structure Planted (t t' : Tree) (ns : List NodeId) : Prop where
  wellLinked : t'.WellLinked
  size_le : t.size ≤ t'.size
  frame : ∀ m, m.index < t.size → t'.node m = t.node m
  new : ∀ n ∈ ns, t.size ≤ n.index
  lt : ∀ n ∈ ns, n.index < t'.size
  top : ∀ n ∈ ns, t'.parent n = none
  nodup : ns.Nodup

namespace Planted

variable {ns ms : List NodeId}

theorem refl (hw : t.WellLinked) : Planted t t [] where
  wellLinked := hw
  size_le := Nat.le_refl _
  frame _ _ := rfl
  new _ h := nomatch h
  lt _ h := nomatch h
  top _ h := nomatch h
  nodup := List.nodup_nil

/-- What is planted second comes after what was planted first. -/
theorem trans (h : Planted t t' ns) (h' : Planted t' t'' ms) : Planted t t'' (ns ++ ms) where
  wellLinked := h'.wellLinked
  size_le := Nat.le_trans h.size_le h'.size_le
  frame m hm := (h'.frame m (Nat.lt_of_lt_of_le hm h.size_le)).trans (h.frame m hm)
  new n hn := by
    rcases List.mem_append.1 hn with hn | hn
    · exact h.new n hn
    · exact Nat.le_trans h.size_le (h'.new n hn)
  lt n hn := by
    rcases List.mem_append.1 hn with hn | hn
    · exact Nat.lt_of_lt_of_le (h.lt n hn) h'.size_le
    · exact h'.lt n hn
  top n hn := by
    rcases List.mem_append.1 hn with hn | hn
    · rw [parent, h'.frame n (h.lt n hn)]
      exact h.top n hn
    · exact h'.top n hn
  nodup := by
    rw [List.nodup_append]
    refine ⟨h.nodup, h'.nodup, fun a ha b hb hab => ?_⟩
    have hlt := h.lt a ha
    have hle := h'.new b hb
    rw [hab] at hlt
    omega

/-- What was there before reads as it did. -/
theorem subtree_eq (h : Planted t t' ns) (hw : t.WellLinked) {n : NodeId}
    (hn : n.index < t.size) : t'.subtree n = t.subtree n := by
  refine hw.subtree_congr h.wellLinked (fun m => m.index < t.size)
    (fun m _ c hc => hw.child_lt hc) (fun m hm => ?_) n hn
  rw [kind, region, children, h.frame m hm]
  exact ⟨rfl, rfl, rfl⟩

theorem newNode (hw : t.WellLinked) (kind : NodeKind) (region : Region) :
    Planted t (t.newNode kind region).2 [⟨t.size⟩] where
  wellLinked := hw.newNode kind region
  size_le := by rw [size_newNode]; exact Nat.le_succ _
  frame m hm := node_newNode_of_lt kind region hm
  new n hn := by rw [List.mem_singleton.1 hn]
  lt n hn := by
    rw [List.mem_singleton.1 hn, size_newNode]
    exact Nat.lt_succ_self _
  top n hn := by
    rw [List.mem_singleton.1 hn, parent, node_newNode_self]
  nodup := List.nodup_singleton _

theorem of_withScopes {scopes : Scopes} (h : Planted { t with scopes } t' ns) :
    Planted t t' ns :=
  ⟨h.wellLinked, h.size_le, h.frame, h.new, h.lt, h.top, h.nodup⟩

theorem withScopes (h : Planted t t' ns) (scopes : Scopes) :
    Planted t { t' with scopes } ns where
  wellLinked := h.wellLinked.withScopes scopes
  size_le := h.size_le
  frame := h.frame
  new := h.new
  lt := h.lt
  top := h.top
  nodup := h.nodup

section Wrap

variable (h : Planted t t' ns) (kind : NodeKind) (region : Region)

include h

theorem tops_newNode : (t'.newNode kind region).2.Tops ⟨t'.size⟩ ns where
  upper_lt := (newNode h.wellLinked kind region).lt _ (List.mem_singleton.2 rfl)
  upper_top := (newNode h.wellLinked kind region).top _ (List.mem_singleton.2 rfl)
  lower_lt c hc := Nat.lt_of_lt_of_le (h.lt c hc) (newNode h.wellLinked kind region).size_le
  lower_top c hc := by
    rw [parent_newNode]
    exact h.top c hc
  lower_ne c hc heq := by
    have hlt := h.lt c hc
    rw [← heq] at hlt
    exact Nat.lt_irrefl _ hlt
  nodup := h.nodup

theorem wellLinked_wrap :
    ((t'.newNode kind region).2.addChildren ⟨t'.size⟩ ns).WellLinked :=
  (addChildren_links ns (h.wellLinked.newNode kind region) (h.tops_newNode kind region)).1

theorem wrap_of_lt {m : NodeId} (hm : m.index < t'.size) :
    ((t'.newNode kind region).2.addChildren ⟨t'.size⟩ ns).kind m = t'.kind m ∧
    ((t'.newNode kind region).2.addChildren ⟨t'.size⟩ ns).region m = t'.region m ∧
    ((t'.newNode kind region).2.addChildren ⟨t'.size⟩ ns).children m = t'.children m := by
  obtain ⟨_, hlinks⟩ := addChildren_links ns (h.wellLinked.newNode kind region)
    (h.tops_newNode kind region)
  obtain ⟨hkind, hregion, hkids, _⟩ := hlinks m
  have hne : m ≠ ⟨t'.size⟩ := fun heq => absurd hm (by rw [heq]; exact Nat.lt_irrefl _)
  have hnode := node_newNode_of_lt kind region hm
  rw [if_neg hne, children_newNode] at hkids
  exact ⟨hkind.trans (congrArg Node.kind hnode), hregion.trans (congrArg Node.region hnode),
    hkids⟩

theorem wrap_self :
    ((t'.newNode kind region).2.addChildren ⟨t'.size⟩ ns).kind ⟨t'.size⟩ = kind ∧
    ((t'.newNode kind region).2.addChildren ⟨t'.size⟩ ns).region ⟨t'.size⟩ = region ∧
    ((t'.newNode kind region).2.addChildren ⟨t'.size⟩ ns).children ⟨t'.size⟩ = ns := by
  obtain ⟨_, hlinks⟩ := addChildren_links ns (h.wellLinked.newNode kind region)
    (h.tops_newNode kind region)
  obtain ⟨hkind, hregion, hkids, _⟩ := hlinks ⟨t'.size⟩
  have hnode : (t'.newNode kind region).2.node ⟨t'.size⟩ = ⟨kind, region, none, []⟩ :=
    node_newNode_self kind region
  have hnone : (t'.newNode kind region).2.children ⟨t'.size⟩ = [] := congrArg Node.children hnode
  rw [if_pos rfl, hnone, List.nil_append] at hkids
  exact ⟨hkind.trans (congrArg Node.kind hnode), hregion.trans (congrArg Node.region hnode),
    hkids⟩

theorem planted_wrap :
    Planted t ((t'.newNode kind region).2.addChildren ⟨t'.size⟩ ns) [⟨t'.size⟩] where
  wellLinked := h.wellLinked_wrap kind region
  size_le := by
    rw [size_addChildren, size_newNode]
    exact Nat.le_succ_of_le h.size_le
  frame m hm := by
    have hnot : m ∉ ns := fun hmem => absurd hm (Nat.not_lt.2 (h.new m hmem))
    obtain ⟨_, hlinks⟩ := addChildren_links ns (h.wellLinked.newNode kind region)
      (h.tops_newNode kind region)
    obtain ⟨_, _, _, hup⟩ := hlinks m
    rw [if_neg hnot, parent_newNode] at hup
    obtain ⟨hkind, hregion, hkids⟩ := h.wrap_of_lt kind region (Nat.lt_of_lt_of_le hm h.size_le)
    rw [node_eq_of_fields hkind hregion hup hkids, h.frame m hm]
  new n hn := by
    rw [List.mem_singleton.1 hn]
    exact h.size_le
  lt n hn := by
    rw [List.mem_singleton.1 hn, size_addChildren, size_newNode]
    exact Nat.lt_succ_self _
  top n hn := by
    have hself : ⟨t'.size⟩ ∉ ns := fun hmem => absurd (h.lt _ hmem) (Nat.lt_irrefl _)
    obtain ⟨_, hlinks⟩ := addChildren_links ns (h.wellLinked.newNode kind region)
      (h.tops_newNode kind region)
    rw [List.mem_singleton.1 hn, (hlinks _).2.2.2, if_neg hself, parent, node_newNode_self]
  nodup := List.nodup_singleton _

/-- A new node on top of all that was planted. -/
theorem wrap :
    Planted t ((t'.newNode kind region).2.addChildren ⟨t'.size⟩ ns) [⟨t'.size⟩] ∧
    ((t'.newNode kind region).2.addChildren ⟨t'.size⟩ ns).subtree ⟨t'.size⟩ =
      .node ⟨t'.size⟩ kind region (ns.map t'.subtree) := by
  refine ⟨h.planted_wrap kind region, ?_⟩
  have hwl := h.wellLinked_wrap kind region
  obtain ⟨hkind, hregion, hkids⟩ := h.wrap_self kind region
  rw [hwl.subtree_eq, hkind, hregion, hkids]
  congr 1
  refine List.map_congr_left fun c hc => ?_
  exact h.wellLinked.subtree_congr hwl (fun m => m.index < t'.size)
    (fun m _ d hd => h.wellLinked.child_lt hd) (fun m hm => h.wrap_of_lt kind region hm) c
    (h.lt c hc)

end Wrap

end Planted

/-! ## Following the syntax -/

theorem plantExpr_shows (scope : ScopeId) (e : Expr) : ∀ {t : Tree}, t.WellLinked →
    Planted t (plantExpr scope t e).2 [(plantExpr scope t e).1] ∧
    e.Shows scope ((plantExpr scope t e).2.subtree (plantExpr scope t e).1) := by
  induction e with
  | number n region =>
      intro t hw
      obtain ⟨hplanted, hsub⟩ := (Planted.refl hw).wrap (.number n) region
      exact ⟨hplanted, ⟨_, hsub⟩⟩
  | string s region =>
      intro t hw
      obtain ⟨hplanted, hsub⟩ := (Planted.refl hw).wrap (.string s) region
      exact ⟨hplanted, ⟨_, hsub⟩⟩
  | identifier name region =>
      intro t hw
      obtain ⟨hplanted, hsub⟩ := (Planted.refl hw).wrap (.identifier name scope) region
      exact ⟨hplanted.withScopes _, ⟨_, (subtree_withScopes _ _).trans hsub⟩⟩
  | operation operator region lhs rhs ihl ihr =>
      intro t hw
      obtain ⟨hl, hlshows⟩ := ihl hw
      obtain ⟨hr, hrshows⟩ := ihr hl.wellLinked
      have hkeep := hr.subtree_eq hl.wellLinked (hl.lt _ (List.mem_singleton.2 rfl))
      obtain ⟨hplanted, hsub⟩ := (hl.trans hr).wrap (.operation operator) region
      rw [← hkeep] at hlshows
      exact ⟨hplanted, ⟨_, _, _, hsub, hlshows, hrshows⟩⟩

theorem plantExpression_shows (scope : ScopeId) (e : Expression) (hw : t.WellLinked) :
    Planted t (plantExpression scope t e).2 [(plantExpression scope t e).1] ∧
    e.Shows scope ((plantExpression scope t e).2.subtree (plantExpression scope t e).1) := by
  obtain ⟨hvalue, hshows⟩ := plantExpr_shows scope e.value hw
  obtain ⟨hplanted, hsub⟩ := hvalue.wrap .expression e.region
  exact ⟨hplanted, _, _, hsub, hshows⟩

/-- The node of a statement goes on top of what the statement says. -/
theorem wrapStatement_planted {n : NodeId} (h : Planted t t' [n]) :
    Planted t (t'.wrapStatement n).2 [(t'.wrapStatement n).1] ∧
    ∃ id full, (t'.wrapStatement n).2.subtree (t'.wrapStatement n).1 =
      .node id .statement full [t'.subtree n] := by
  obtain ⟨hplanted, hsub⟩ := h.wrap .statement (t'.fullRegion n)
  exact ⟨hplanted, _, _, hsub⟩

mutual

theorem plantStatement_shows (scope : ScopeId) (st : Statement) {t : Tree} (hw : t.WellLinked) :
    Planted t (plantStatement scope t st).2 [(plantStatement scope t st).1] ∧
    st.Shows scope ((plantStatement scope t st).2.subtree (plantStatement scope t st).1) := by
  match st with
  | .assignment name region value =>
      obtain ⟨hvalue, hshows⟩ := plantExpression_shows scope value hw
      obtain ⟨hinner, hsub⟩ := hvalue.wrap (.assignment name scope) region
      obtain ⟨hplanted, id, full, hsub'⟩ := wrapStatement_planted hinner
      rw [hsub] at hsub'
      rw [Statement.Shows]
      exact ⟨hplanted, _, _, _, _, hsub', hshows⟩
  | .rule name expected replacement region =>
      obtain ⟨hinner, hsub⟩ := (Planted.refl hw).wrap (.rule name expected replacement) region
      obtain ⟨hplanted, id, full, hsub'⟩ := wrapStatement_planted hinner
      rw [hsub] at hsub'
      rw [Statement.Shows]
      exact ⟨hplanted, _, _, _, hsub'⟩
  | .block region body =>
      obtain ⟨hbody, hshows⟩ := plantAll_shows (t.scopes.createAnonymous scope).1 body
        (hw.withScopes (t.scopes.createAnonymous scope).2)
      obtain ⟨hinner, hsub⟩ :=
        hbody.of_withScopes.wrap (.block (t.scopes.createAnonymous scope).1) region
      obtain ⟨hplanted, id, full, hsub'⟩ := wrapStatement_planted hinner
      rw [hsub] at hsub'
      rw [Statement.Shows]
      exact ⟨hplanted, _, _, _, _, _, hsub', hshows⟩
  | .expression value =>
      obtain ⟨hvalue, hshows⟩ := plantExpression_shows scope value hw
      obtain ⟨hplanted, id, full, hsub⟩ := wrapStatement_planted hvalue
      rw [Statement.Shows]
      exact ⟨hplanted, _, _, _, hsub, hshows⟩

theorem plantAll_shows (scope : ScopeId) (sts : List Statement) {t : Tree} (hw : t.WellLinked) :
    Planted t (plantAll scope t sts).2 (plantAll scope t sts).1 ∧
    Statement.ShowsAll scope sts
      ((plantAll scope t sts).1.map (plantAll scope t sts).2.subtree) := by
  match sts with
  | [] =>
      rw [Statement.ShowsAll]
      exact ⟨Planted.refl hw, rfl⟩
  | st :: more =>
      obtain ⟨hfirst, hshows⟩ := plantStatement_shows scope st hw
      obtain ⟨hrest, hshowsAll⟩ := plantAll_shows scope more hfirst.wellLinked
      have hkeep := hrest.subtree_eq hfirst.wellLinked (hfirst.lt _ (List.mem_singleton.2 rfl))
      rw [← hkeep] at hshows
      rw [Statement.ShowsAll]
      exact ⟨hfirst.trans hrest, _, _, rfl, hshows, hshowsAll⟩

end

/-! ## Whole programs -/

theorem empty_wellLinked : empty.WellLinked := by
  have hnode : ∀ n, empty.children n = [] ∧ empty.parent n = none := by
    rintro ⟨i⟩
    cases i with
    | zero => exact ⟨rfl, rfl⟩
    | succ i =>
        have hout : empty.node ⟨i + 1⟩ = default :=
          node_of_size_le (show 1 ≤ i + 1 by omega)
        rw [children, parent, hout]
        exact ⟨rfl, rfl⟩
  refine ⟨⟨?_, ?_, ?_, ?_⟩, ?_⟩
  · intro n c hc
    rw [(hnode n).1] at hc
    cases hc
  · intro n c hc
    rw [(hnode n).1] at hc
    cases hc
  · intro n c hc
    rw [(hnode c).2] at hc
    cases hc
  · intro n
    rw [(hnode n).1]
    exact List.nodup_nil
  · intro n hn
    obtain ⟨b, hb, _⟩ := Relation.TransGen.head'_iff.1 hn
    rw [(hnode n).2] at hb
    cases hb

namespace Planted

variable {ns : List NodeId} (h : Planted empty t ns)

include h

theorem node_root : t.node root = ⟨.root Scopes.global, Region.origin, none, []⟩ :=
  h.frame root (show 0 < 1 by omega)

theorem tops_root : t.Tops root ns := by
  refine ⟨?_, congrArg Node.parent h.node_root, h.lt, h.top, ?_, h.nodup⟩
  · exact Nat.lt_of_lt_of_le (show 0 < 1 by omega) h.size_le
  · intro c hc heq
    have hle : 1 ≤ c.index := h.new c hc
    rw [← heq] at hle
    exact absurd hle (show ¬ 1 ≤ 0 by omega)

/-- What was planted in the empty tree is put below its root. -/
theorem addChildren_root :
    (t.addChildren root ns).WellLinked ∧ ∀ m,
      (t.addChildren root ns).kind m = t.kind m ∧
      (t.addChildren root ns).region m = t.region m ∧
      (t.addChildren root ns).children m = (if m = root then ns else t.children m) ∧
      (t.addChildren root ns).parent m = if m ∈ ns then some root else t.parent m := by
  have hnone : t.children root = [] := congrArg Node.children h.node_root
  have hlinks := addChildren_links ns h.wellLinked h.tops_root
  rwa [hnone, List.nil_append] at hlinks

theorem subtree_root :
    (t.addChildren root ns).subtree root =
      .node root (.root Scopes.global) ((t.addChildren root ns).region root)
        (ns.map t.subtree) := by
  obtain ⟨hwl, hlinks⟩ := h.addChildren_root
  obtain ⟨hkind, _, hkids, _⟩ := hlinks root
  rw [hwl.subtree_eq, hkind.trans (congrArg Node.kind h.node_root), hkids, if_pos rfl]
  congr 1
  -- The root is a top, so no subtree below it holds it.
  refine List.map_congr_left fun c hc => ?_
  refine h.wellLinked.subtree_congr hwl (fun m => m ≠ root) ?_ ?_ c (h.tops_root.lower_ne c hc).symm
  · intro m _ d hd heq
    rw [heq] at hd
    exact h.wellLinked.not_mem_children h.tops_root.upper_top m hd
  · intro m hm
    obtain ⟨hkind, hregion, hkids, _⟩ := hlinks m
    rw [if_neg hm] at hkids
    exact ⟨hkind, hregion, hkids⟩

end Planted

/-- The tree of a program has its links in order, and below its root it shows
the statements. -/
theorem ofStatements_shows (program : List Statement) :
    (ofStatements program).WellLinked ∧ ∃ region ss,
      (ofStatements program).subtree root = .node root (.root Scopes.global) region ss ∧
      Statement.ShowsAll Scopes.global program ss := by
  obtain ⟨hplanted, hshows⟩ := plantAll_shows Scopes.global program empty_wellLinked
  rw [ofStatements]
  exact ⟨hplanted.addChildren_root.1, _, _, hplanted.subtree_root, hshows⟩

/-- What was checked of a result is true of what came out. -/
theorem ok_of_any {ε α : Type} {result : Except ε α} {check : α → Bool}
    (h : result.toOption.any check = true) : ∃ a, result = .ok a ∧ check a = true := by
  cases result with
  | error e => cases h
  | ok a => exact ⟨a, rfl, h⟩

/-- What was checked of the tree of a source text is true of a tree. -/
theorem exists_of_checked {source : String} {p : Tree → Bool}
    (h : (ofSource source).toOption.any p = true) : ∃ t, ofSource source = .ok t ∧ p t = true := by
  cases ht : ofSource source with
  | error e =>
      rw [ht] at h
      cases h
  | ok t =>
      rw [ht] at h
      exact ⟨t, rfl, h⟩

theorem ofSource_of_ok {source : String} {program : List Statement}
    (h : Statement.ofSource source = .ok program) :
    ofSource source = .ok (ofStatements program) := by
  rw [ofSource, h]

theorem exists_program {source : String} (h : ofSource source = .ok t) :
    ∃ program, Statement.ofSource source = .ok program := by
  rw [ofSource] at h
  split at h
  · next hp => exact ⟨_, hp⟩
  · cases h

/-- The tree of a source text is that of its statements. -/
theorem eq_ofStatements {source : String} {program : List Statement} (h : ofSource source = .ok t)
    (hp : Statement.ofSource source = .ok program) : t = ofStatements program := by
  rw [ofSource_of_ok hp] at h
  exact (Except.ok.inj h).symm

theorem wellLinked_of_ofSource {source : String} (h : ofSource source = .ok t) :
    t.WellLinked := by
  rw [ofSource] at h
  split at h
  · cases h
    exact (ofStatements_shows _).1
  · cases h

end Tree

end Lindenmayer
