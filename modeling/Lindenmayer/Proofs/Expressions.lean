import Lindenmayer.Proofs.Shape
import Lindenmayer.Proofs.WellWritten

/-!
# The expressions of a tree

What is known of an expression is known of its syntax: that it is well written, and how it
is printed. A node is no syntax, but if it is one of an expression in a tree that was read,
then what is below it shows an expression of the program, in the scope that the expression
was read in (`Tree.exists_expression`). Expressions hold no others, so there is nothing to
find below one but itself; all else is a recursion through statements.
-/

namespace Lindenmayer

namespace Subtree

mutual

/-- A subtree and all that are in it. -/
def subtrees : Subtree → List Subtree
  | node id kind region children => node id kind region children :: subtreesAll children

def subtreesAll : List Subtree → List Subtree
  | [] => []
  | s :: more => subtrees s ++ subtreesAll more

end

theorem mem_subtrees_self (s : Subtree) : s ∈ s.subtrees := by
  cases s with
  | node =>
      rw [subtrees]
      exact List.mem_cons_self

theorem mem_subtreesAll {s s' : Subtree} {ss : List Subtree} (hs : s ∈ ss)
    (h : s' ∈ s.subtrees) : s' ∈ subtreesAll ss := by
  induction ss with
  | nil => cases hs
  | cons s₀ ss ih =>
      rw [subtreesAll, List.mem_append]
      rcases List.mem_cons.1 hs with rfl | hs
      · exact .inl h
      · exact .inr (ih hs)

theorem forall_mem_subtrees_only {P : Subtree → Prop} {id : NodeId} {kind : NodeKind}
    {region : Region} {s : Subtree} (h : P (node id kind region [s]))
    (hs : ∀ s' ∈ s.subtrees, P s') :
    ∀ s' ∈ (node id kind region [s]).subtrees, P s' := by
  rw [subtrees, subtreesAll, subtreesAll, List.append_nil]
  exact List.forall_mem_cons.2 ⟨h, hs⟩

end Subtree

theorem Expr.Shows.kind_ne_expression {scope : ScopeId} {e : Expr} : ∀ {s : Subtree},
    e.Shows scope s → ∀ s' ∈ s.subtrees, s'.kind ≠ .expression := by
  induction e with
  | number | string | identifier =>
      rintro s ⟨id, rfl⟩
      rw [Subtree.subtrees, Subtree.subtreesAll]
      exact List.forall_mem_singleton.2 nofun
  | operation operator region lhs rhs ihl ihr =>
      rintro s ⟨id, l, r, rfl, hl, hr⟩
      rw [Subtree.subtrees, Subtree.subtreesAll, Subtree.subtreesAll, Subtree.subtreesAll,
        List.append_nil]
      exact List.forall_mem_cons.2 ⟨nofun, List.forall_mem_append.2 ⟨ihl hl, ihr hr⟩⟩

/-- Whether a subtree shows an expression that can be read, if it is one. -/
def Subtree.ShowsExpression (s : Subtree) : Prop :=
  s.kind = .expression → ∃ (scope : ScopeId) (e : Expression), e.value.WellWritten ∧ e.Shows scope s

theorem Expression.Shows.showsExpression {scope : ScopeId} {e : Expression} {s : Subtree}
    (he : e.value.WellWritten) (hs : e.Shows scope s) : ∀ s' ∈ s.subtrees, s'.ShowsExpression := by
  have hself := hs
  obtain ⟨id, value, rfl, hvalue⟩ := hs
  exact Subtree.forall_mem_subtrees_only (fun _ => ⟨scope, e, he, hself⟩)
    fun s' hs' hkind => absurd hkind (hvalue.kind_ne_expression s' hs')

namespace Statement

open Subtree (ShowsExpression forall_mem_subtrees_only)

mutual

theorem showsExpression (st : Statement) {scope : ScopeId} {s : Subtree} (hst : st.WellWritten)
    (hs : st.Shows scope s) : ∀ s' ∈ s.subtrees, s'.ShowsExpression := by
  match st with
  | .assignment name region value =>
      rw [Shows] at hs
      obtain ⟨id, full, id', v, rfl, hv⟩ := hs
      refine forall_mem_subtrees_only nofun (forall_mem_subtrees_only nofun ?_)
      exact hv.showsExpression hst.2
  | .rule name expected replacement region =>
      rw [Shows] at hs
      obtain ⟨id, full, id', rfl⟩ := hs
      refine forall_mem_subtrees_only nofun ?_
      rw [Subtree.subtrees, Subtree.subtreesAll]
      exact List.forall_mem_singleton.2 nofun
  | .block region body =>
      rw [Shows] at hs
      obtain ⟨id, full, id', inner, ss, rfl, hss⟩ := hs
      refine forall_mem_subtrees_only nofun ?_
      rw [Subtree.subtrees]
      exact List.forall_mem_cons.2 ⟨nofun, showsExpression_all body hst hss⟩
  | .expression value =>
      rw [Shows] at hs
      obtain ⟨id, full, v, rfl, hv⟩ := hs
      exact forall_mem_subtrees_only nofun (hv.showsExpression hst)

theorem showsExpression_all (sts : List Statement) {scope : ScopeId} {ss : List Subtree}
    (hsts : AllWellWritten sts) (hss : ShowsAll scope sts ss) :
    ∀ s' ∈ Subtree.subtreesAll ss, s'.ShowsExpression := by
  match sts with
  | [] =>
      rw [ShowsAll] at hss
      subst hss
      exact fun s' hs' => absurd hs' List.not_mem_nil
  | st :: more =>
      rw [ShowsAll] at hss
      obtain ⟨s, ss, rfl, hs, hss⟩ := hss
      obtain ⟨hst, hsts⟩ := hsts
      rw [Subtree.subtreesAll]
      exact List.forall_mem_append.2 ⟨showsExpression st hst hs, showsExpression_all more hsts hss⟩

end

end Statement

namespace Tree

variable {source : String} {t : Tree} {n : NodeId}

theorem mem_subtrees (hw : t.WellLinked) {m : NodeId}
    (h : Relation.ReflTransGen (fun p c => c ∈ t.children p) n m) :
    t.subtree m ∈ (t.subtree n).subtrees := by
  induction h using Relation.ReflTransGen.head_induction_on with
  | refl => exact Subtree.mem_subtrees_self _
  | @head p c hc _ ih =>
      rw [hw.subtree_eq p, Subtree.subtrees]
      exact List.mem_cons_of_mem _ (Subtree.mem_subtreesAll (List.mem_map_of_mem hc) ih)

/-- Every expression in a tree shows an expression that can be read. -/
theorem exists_expression (h : ofSource source = .ok t) (hn : t.kind n = .expression) :
    ∃ (scope : ScopeId) (e : Expression), e.value.WellWritten ∧ e.Shows scope (t.subtree n) := by
  have hw := wellLinked_of_ofSource h
  have hlt : n.index < t.size := index_lt_of_kind hn nofun
  have hmem := mem_subtrees hw (reachable_of_ofSource h n hlt)
  obtain ⟨program, hprogram⟩ := exists_program h
  obtain rfl := eq_ofStatements h hprogram
  obtain ⟨_, region, ss, hroot, hshows⟩ := ofStatements_shows program
  rw [hroot, Subtree.subtrees] at hmem
  have hall := List.forall_mem_cons.2
    ⟨(nofun : Subtree.ShowsExpression (.node root (.root Scopes.global) region ss)),
    Statement.showsExpression_all program (Statement.wellWritten_ofSource hprogram) hshows⟩
  refine hall _ hmem ?_
  rw [hw.subtree_eq]
  exact hn

end Tree

end Lindenmayer
