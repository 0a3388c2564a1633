import Lindenmayer.Proofs.Content
import Lindenmayer.Proofs.Environment
import Lindenmayer.Proofs.Folded
import Lindenmayer.Proofs.RoundTrip

/-!
# Folded programs as text

A fold puts literals into a tree that no reader puts there. A difference may be negative, and
there is no sign in a literal; a sum of strings may have quotes of both kinds in it, and there
is no escape. Printed, such a literal is a text that is not read, or not as what it was.

That is all that goes wrong. A literal fits wherever an operation or a name did, so what a
fold leaves is what some program shows (`FoldedBy.exists_program`), with blocks that are
numbered as they were. Hence it can be printed and read again if its literals can
(`ofSource_print_of_showsAll`). Conversely, the literals of whatever was read can be written
(`writable_of_ofSource`).
-/

namespace Lindenmayer

open Subtree (blockScopes blockScopesAll)

/-! ## Literals that can be written -/

/-- Whether a node is no integer with a sign and no string that cannot be quoted. -/
def NodeKind.Writable : NodeKind → Prop
  | .number (.integer i) => 0 ≤ i.toInt
  | .string s => Quotable s
  | _ => True

-- The list is gone through, not all characters there are.
instance (s : String) : Decidable (Quotable s) :=
  have := List.decidableBAll (fun c => c ≠ '\n' ∧ c ≠ '\r') s.toList
  inferInstanceAs (Decidable (_ ∧ _))

instance : DecidablePred NodeKind.Writable
  | .number (.integer i) => inferInstanceAs (Decidable (0 ≤ i.toInt))
  | .string s => inferInstanceAs (Decidable (Quotable s))
  | .number (.float _) | .root _ | .statement | .assignment _ _ | .rule _ _ _ | .block _
  | .expression | .operation _ | .identifier _ _ => isTrue trivial

/-- Whether an expression has names and operators as they are read. -/
def Expr.Spelled : Expr → Prop
  | .number _ _ => True
  | .string _ _ => True
  | .identifier name _ => IsName name
  | .operation operator _ lhs rhs => operator ≠ .parens ∧ lhs.Spelled ∧ rhs.Spelled

mutual

/-- Whether a statement has names, operators and operands of rules as they are read. -/
def Statement.Spelled : Statement → Prop
  | .assignment name _ value => IsName name ∧ value.value.Spelled
  | .rule name expected replacement _ =>
    (∀ n, name = some n → IsName n) ∧ IsRun expected ∧ IsRun replacement
  | .block _ body => Statement.AllSpelled body
  | .expression value => value.value.Spelled

def Statement.AllSpelled : List Statement → Prop
  | [] => True
  | st :: more => st.Spelled ∧ Statement.AllSpelled more

end

/-- What is well written is spelled so, and its literals can be written. -/
theorem Expr.wellWritten_iff {scope : ScopeId} {e : Expr} : ∀ {s : Subtree}, e.Shows scope s →
    (e.WellWritten ↔ e.Spelled ∧ s.Every NodeKind.Writable) := by
  induction e with
  | number n region =>
      rintro s ⟨id, rfl⟩
      rw [WellWritten, Spelled, Subtree.Every, Subtree.EveryAll, true_and, and_true]
      cases n with
      | integer i =>
          rw [NodeKind.Writable, ← readsBack_integer_iff]
          exact ⟨fun h => h i rfl, fun h _ _ => h⟩
      | float x => exact ⟨fun _ => trivial, fun _ => nofun⟩
  | string str region =>
      rintro s ⟨id, rfl⟩
      rw [WellWritten, Spelled, Subtree.Every, Subtree.EveryAll, true_and, and_true,
        NodeKind.Writable]
  | identifier name region =>
      rintro s ⟨id, rfl⟩
      rw [WellWritten, Spelled, Subtree.Every, Subtree.EveryAll, and_true]
      exact ⟨fun h => ⟨h, trivial⟩, And.left⟩
  | operation operator region lhs rhs ihl ihr =>
      rintro s ⟨id, l, r, rfl, hl, hr⟩
      rw [WellWritten, Spelled, ihl hl, ihr hr, Subtree.Every, Subtree.EveryAll, Subtree.EveryAll,
        Subtree.EveryAll]
      constructor
      · rintro ⟨ho, ⟨hl, hl'⟩, hr, hr'⟩
        exact ⟨⟨ho, hl, hr⟩, trivial, hl', hr', trivial⟩
      · rintro ⟨⟨ho, hl, hr⟩, _, hl', hr', _⟩
        exact ⟨ho, ⟨hl, hl'⟩, hr, hr'⟩

theorem Expression.wellWritten_iff {scope : ScopeId} {e : Expression} {s : Subtree}
    (h : e.Shows scope s) :
    e.value.WellWritten ↔ e.value.Spelled ∧ s.Every NodeKind.Writable := by
  obtain ⟨id, value, rfl, hvalue⟩ := h
  rw [Expr.wellWritten_iff hvalue, Subtree.Every, Subtree.EveryAll, Subtree.EveryAll]
  exact and_congr_right fun _ => ⟨fun h => ⟨trivial, h, trivial⟩, fun h => h.2.1⟩

namespace Statement

mutual

theorem wellWritten_iff {scope : ScopeId} (st : Statement) {s : Subtree} (h : st.Shows scope s) :
    st.WellWritten ↔ st.Spelled ∧ s.Every NodeKind.Writable := by
  match st with
  | .assignment name region value =>
      rw [Shows] at h
      obtain ⟨id, full, id', v, rfl, hv⟩ := h
      rw [WellWritten, Spelled, Expression.wellWritten_iff hv]
      constructor
      · rintro ⟨hname, hvalue, hevery⟩
        exact ⟨⟨hname, hvalue⟩, trivial, ⟨trivial, hevery, trivial⟩, trivial⟩
      · rintro ⟨⟨hname, hvalue⟩, _, ⟨_, hevery, _⟩, _⟩
        exact ⟨hname, hvalue, hevery⟩
  | .rule name expected replacement region =>
      rw [Shows] at h
      obtain ⟨id, full, id', rfl⟩ := h
      rw [WellWritten, Spelled]
      exact ⟨fun h => ⟨h, trivial, ⟨trivial, trivial⟩, trivial⟩, And.left⟩
  | .block region body =>
      rw [Shows] at h
      obtain ⟨id, full, id', inner, ss, rfl, hss⟩ := h
      rw [WellWritten, Spelled, allWellWritten_iff body hss]
      exact and_congr_right fun _ =>
        ⟨fun h => ⟨trivial, ⟨trivial, h⟩, trivial⟩, fun h => h.2.1.2⟩
  | .expression value =>
      rw [Shows] at h
      obtain ⟨id, full, v, rfl, hv⟩ := h
      rw [WellWritten, Spelled, Expression.wellWritten_iff hv]
      exact and_congr_right fun _ => ⟨fun h => ⟨trivial, h, trivial⟩, fun h => h.2.1⟩

theorem allWellWritten_iff {scope : ScopeId} (sts : List Statement) {ss : List Subtree}
    (h : ShowsAll scope sts ss) :
    AllWellWritten sts ↔ AllSpelled sts ∧ Subtree.EveryAll NodeKind.Writable ss := by
  match sts with
  | [] =>
      rw [ShowsAll] at h
      rw [h]
      exact ⟨fun _ => ⟨trivial, trivial⟩, fun _ => trivial⟩
  | st :: more =>
      rw [ShowsAll] at h
      obtain ⟨s, ss, rfl, hs, hss⟩ := h
      rw [AllWellWritten, AllSpelled, Subtree.EveryAll, wellWritten_iff st hs,
        allWellWritten_iff more hss]
      constructor
      · rintro ⟨⟨hst, hs⟩, hmore, hss⟩
        exact ⟨⟨hst, hmore⟩, hs, hss⟩
      · rintro ⟨⟨hst, hmore⟩, hs, hss⟩
        exact ⟨⟨hst, hs⟩, hmore, hss⟩

end

end Statement

namespace Tree

variable {t u : Tree} {ctx : Context} {rs : List NodeId} {source : String}

/-! ## What a fold leaves is a program -/

namespace Replaced

section Shows

variable (h : Replaced t ctx rs u) (hw : t.WellLinked) (hwu : u.WellLinked)
  (hrs : ∀ r ∈ rs, isFoldable (t.kind r) = true) {scope : ScopeId}

omit h in
include hw hrs in
theorem not_mem_of_not_foldable {n id : NodeId} {kind : NodeKind} {region : Region}
    {ss : List Subtree} (hsub : t.subtree n = .node id kind region ss)
    (hkind : isFoldable kind = false) : n ∉ rs := by
  intro hmem
  have hfoldable := hrs n hmem
  rw [kind_of_subtree hw hsub, hkind] at hfoldable
  cases hfoldable

include h hwu

theorem subtree_of_mem {r : NodeId} (hr : r ∈ rs) :
    ∃ id v region, u.subtree (t.standIn rs r) = .node id (.ofValue v) region [] := by
  obtain ⟨v, _, hnode⟩ := h.literal r hr
  refine ⟨t.standIn rs r, v, t.fullRegion r, ?_⟩
  rw [hwu.subtree_eq, kind, region, children, hnode]
  rfl

/-- Whatever was replaced is a literal now, whatever it was before. -/
theorem shows_of_mem {n : NodeId} (hn : n ∈ rs) :
    ∃ e' : Expr, e'.Shows scope (u.subtree (t.standIn rs n)) ∧ e'.Spelled := by
  obtain ⟨id, v, region, hsub⟩ := h.subtree_of_mem hwu hn
  rw [hsub]
  cases v with
  | integer i => exact ⟨.number (.integer i) region, ⟨id, rfl⟩, trivial⟩
  | float x => exact ⟨.number (.float x) region, ⟨id, rfl⟩, trivial⟩
  | string s => exact ⟨.string s region, ⟨id, rfl⟩, trivial⟩

include hw

/-- What was not replaced has what stands in for its children below it. -/
theorem subtree_of_not_mem {n id : NodeId} {kind : NodeKind} {region : Region}
    {ss : List Subtree} (hn : n.index < t.size) (hsub : t.subtree n = .node id kind region ss)
    (hnot : n ∉ rs) :
    ∃ cs : List NodeId, (∀ c ∈ cs, c.index < t.size) ∧ ss = cs.map t.subtree ∧
      u.subtree (t.standIn rs n) =
        .node n kind region (cs.map fun c => u.subtree (t.standIn rs c)) := by
  rw [hw.subtree_eq, Subtree.node.injEq] at hsub
  obtain ⟨rfl, rfl, rfl, rfl⟩ := hsub
  refine ⟨t.children n, fun c hc => hw.child_lt hc, rfl, ?_⟩
  rw [standIn_of_not_mem hnot, hwu.subtree_eq, h.children_eq hn, List.map_map, Tree.kind,
    Tree.region, h.old n hn]
  rfl

theorem subtree_of_leaf {n id : NodeId} {kind : NodeKind} {region : Region}
    (hn : n.index < t.size) (hsub : t.subtree n = .node id kind region []) (hnot : n ∉ rs) :
    u.subtree (t.standIn rs n) = .node n kind region [] := by
  obtain ⟨cs, _, hcs, hu⟩ := h.subtree_of_not_mem hw hwu hn hsub hnot
  rw [hu, List.map_eq_nil_iff.1 hcs.symm]
  rfl

/-- Where an expression was there is one. -/
theorem shows_expr (e : Expr) : ∀ {n : NodeId}, n.index < t.size → e.Shows scope (t.subtree n) →
    e.Spelled → ∃ e' : Expr, e'.Shows scope (u.subtree (t.standIn rs n)) ∧ e'.Spelled := by
  induction e with
  | number num region =>
      rintro n hn ⟨id, hsub⟩ hspelled
      by_cases hmem : n ∈ rs
      · exact h.shows_of_mem hwu hmem
      · exact ⟨.number num region, ⟨n, h.subtree_of_leaf hw hwu hn hsub hmem⟩, hspelled⟩
  | string s region =>
      rintro n hn ⟨id, hsub⟩ hspelled
      by_cases hmem : n ∈ rs
      · exact h.shows_of_mem hwu hmem
      · exact ⟨.string s region, ⟨n, h.subtree_of_leaf hw hwu hn hsub hmem⟩, hspelled⟩
  | identifier name region =>
      rintro n hn ⟨id, hsub⟩ hspelled
      by_cases hmem : n ∈ rs
      · exact h.shows_of_mem hwu hmem
      · exact ⟨.identifier name region, ⟨n, h.subtree_of_leaf hw hwu hn hsub hmem⟩, hspelled⟩
  | operation operator region lhs rhs ihl ihr =>
      rintro n hn ⟨id, l, r, hsub, hl, hr⟩ ⟨hoperator, hlhs, hrhs⟩
      by_cases hmem : n ∈ rs
      · exact h.shows_of_mem hwu hmem
      · obtain ⟨cs, hlt, hcs, hu⟩ := h.subtree_of_not_mem hw hwu hn hsub hmem
        obtain ⟨a, cs', rfl, rfl, hrest⟩ := List.map_eq_cons_iff.1 hcs.symm
        obtain ⟨b, cs, rfl, rfl, hnil⟩ := List.map_eq_cons_iff.1 hrest
        obtain rfl := List.map_eq_nil_iff.1 hnil
        obtain ⟨lhs', hl', hlhs'⟩ := ihl (hlt a List.mem_cons_self) hl hlhs
        obtain ⟨rhs', hr', hrhs'⟩ :=
          ihr (hlt b (List.mem_cons_of_mem a List.mem_cons_self)) hr hrhs
        exact ⟨.operation operator region lhs' rhs', ⟨n, _, _, hu, hl', hr'⟩,
          hoperator, hlhs', hrhs'⟩

include hrs

/-- A node that is not folded keeps what it is, and its only child is where it was. -/
theorem subtree_of_only {n id : NodeId} {kind : NodeKind} {region : Region} {s : Subtree}
    (hn : n.index < t.size) (hsub : t.subtree n = .node id kind region [s])
    (hkind : isFoldable kind = false) :
    ∃ c, c.index < t.size ∧ t.subtree c = s ∧
      u.subtree (t.standIn rs n) = .node n kind region [u.subtree (t.standIn rs c)] := by
  obtain ⟨cs, hlt, hcs, hu⟩ :=
    h.subtree_of_not_mem hw hwu hn hsub (not_mem_of_not_foldable hw hrs hsub hkind)
  obtain ⟨c, cs, rfl, rfl, hnil⟩ := List.map_eq_cons_iff.1 hcs.symm
  obtain rfl := List.map_eq_nil_iff.1 hnil
  exact ⟨c, hlt c List.mem_cons_self, rfl, hu⟩

theorem shows_expression {e : Expression} {n : NodeId} (hn : n.index < t.size)
    (hshows : e.Shows scope (t.subtree n)) (hspelled : e.value.Spelled) :
    ∃ e' : Expression, e'.Shows scope (u.subtree (t.standIn rs n)) ∧ e'.value.Spelled := by
  obtain ⟨id, value, hsub, hvalue⟩ := hshows
  obtain ⟨c, hc, rfl, hu⟩ := h.subtree_of_only hw hwu hrs hn hsub rfl
  obtain ⟨e', he', hspelled'⟩ := h.shows_expr hw hwu e.value hc hvalue hspelled
  exact ⟨⟨e', e.region⟩, ⟨n, _, hu, he'⟩, hspelled'⟩

end Shows

mutual

/-- Where a statement was there is one, and the blocks are those that were there. -/
theorem shows_statement (h : Replaced t ctx rs u) (hw : t.WellLinked) (hwu : u.WellLinked)
    (hrs : ∀ r ∈ rs, isFoldable (t.kind r) = true) {scope : ScopeId} (st : Statement)
    {n : NodeId} (hn : n.index < t.size)
    (hshows : st.Shows scope (t.subtree n)) (hspelled : st.Spelled) :
    ∃ st' : Statement, st'.Shows scope (u.subtree (t.standIn rs n)) ∧ st'.Spelled ∧
      (u.subtree (t.standIn rs n)).blockScopes = (t.subtree n).blockScopes := by
  match st with
  | .assignment name region value =>
      rw [Statement.Shows] at hshows
      obtain ⟨id, full, id', v, hsub, hv⟩ := hshows
      obtain ⟨a, ha, hsubA, hu⟩ := h.subtree_of_only hw hwu hrs hn hsub rfl
      obtain ⟨b, hb, rfl, huA⟩ := h.subtree_of_only hw hwu hrs ha hsubA rfl
      obtain ⟨value', hvalue', hspelled'⟩ := h.shows_expression hw hwu hrs hb hv hspelled.2
      refine ⟨.assignment name region value', ?_, ⟨hspelled.1, hspelled'⟩, ?_⟩
      · rw [Statement.Shows, hu, huA]
        exact ⟨n, full, a, _, rfl, hvalue'⟩
      · rw [hu, huA, hsub, Subtree.blockScopes_only rfl, Subtree.blockScopes_only rfl,
          hvalue'.content_eq.2, Subtree.blockScopes_only rfl, Subtree.blockScopes_only rfl,
          hv.content_eq.2]
  | .rule name expected replacement region =>
      rw [Statement.Shows] at hshows
      obtain ⟨id, full, id', hsub⟩ := hshows
      obtain ⟨a, ha, hsubA, hu⟩ := h.subtree_of_only hw hwu hrs hn hsub rfl
      have huA := h.subtree_of_leaf hw hwu ha hsubA (not_mem_of_not_foldable hw hrs hsubA rfl)
      refine ⟨.rule name expected replacement region, ?_, hspelled, ?_⟩
      · rw [Statement.Shows, hu, huA]
        exact ⟨n, full, a, rfl⟩
      · rw [hu, huA, hsub, Subtree.blockScopes_only rfl, Subtree.blockScopes_only rfl]
        rfl
  | .block region body =>
      rw [Statement.Shows] at hshows
      obtain ⟨id, full, id', inner, ss, hsub, hss⟩ := hshows
      obtain ⟨a, ha, hsubA, hu⟩ := h.subtree_of_only hw hwu hrs hn hsub rfl
      obtain ⟨cs, hlt, rfl, huA⟩ := h.subtree_of_not_mem hw hwu ha hsubA
        (not_mem_of_not_foldable hw hrs hsubA rfl)
      obtain ⟨body', hbody', hspelled', hblocks⟩ :=
        shows_all h hw hwu hrs body hlt hss hspelled
      refine ⟨.block region body', ?_, hspelled', ?_⟩
      · rw [Statement.Shows, hu, huA]
        exact ⟨n, full, a, inner, _, rfl, hbody'⟩
      · rw [hu, huA, hsub, Subtree.blockScopes_only rfl, Subtree.blockScopes_only rfl,
          Subtree.blockScopes_block, Subtree.blockScopes_block, hblocks]
  | .expression value =>
      rw [Statement.Shows] at hshows
      obtain ⟨id, full, v, hsub, hv⟩ := hshows
      obtain ⟨a, ha, rfl, hu⟩ := h.subtree_of_only hw hwu hrs hn hsub rfl
      obtain ⟨value', hvalue', hspelled'⟩ := h.shows_expression hw hwu hrs ha hv hspelled
      refine ⟨.expression value', ?_, hspelled', ?_⟩
      · rw [Statement.Shows, hu]
        exact ⟨n, full, _, rfl, hvalue'⟩
      · rw [hu, hsub, Subtree.blockScopes_only rfl, hvalue'.content_eq.2,
          Subtree.blockScopes_only rfl, hv.content_eq.2]

theorem shows_all (h : Replaced t ctx rs u) (hw : t.WellLinked) (hwu : u.WellLinked)
    (hrs : ∀ r ∈ rs, isFoldable (t.kind r) = true) {scope : ScopeId} (sts : List Statement)
    {cs : List NodeId} (hlt : ∀ c ∈ cs, c.index < t.size)
    (hshows : Statement.ShowsAll scope sts (cs.map t.subtree))
    (hspelled : Statement.AllSpelled sts) :
    ∃ sts', Statement.ShowsAll scope sts' (cs.map fun c => u.subtree (t.standIn rs c)) ∧
      Statement.AllSpelled sts' ∧
      blockScopesAll (cs.map fun c => u.subtree (t.standIn rs c)) =
        blockScopesAll (cs.map t.subtree) := by
  match sts with
  | [] =>
      rw [Statement.ShowsAll] at hshows
      obtain rfl := List.map_eq_nil_iff.1 hshows
      exact ⟨[], rfl, trivial, rfl⟩
  | st :: more =>
      rw [Statement.ShowsAll] at hshows
      obtain ⟨s, ss, hcs, hs, hss⟩ := hshows
      obtain ⟨c, cs, rfl, rfl, rfl⟩ := List.map_eq_cons_iff.1 hcs
      obtain ⟨st', hst', hspelled', hblocks⟩ :=
        shows_statement h hw hwu hrs st (hlt c List.mem_cons_self) hs hspelled.1
      obtain ⟨sts', hsts', hallSpelled, hallBlocks⟩ :=
        shows_all h hw hwu hrs more (fun c' hc' => hlt c' (List.mem_cons_of_mem c hc')) hss
          hspelled.2
      refine ⟨st' :: sts', ?_, ⟨hspelled', hallSpelled⟩, ?_⟩
      · rw [Statement.ShowsAll]
        exact ⟨_, _, rfl, hst', hsts'⟩
      · rw [List.map_cons, List.map_cons, Subtree.blockScopesAll_cons,
          Subtree.blockScopesAll_cons, hblocks, hallBlocks]

end

end Replaced

/-! ## Printed and read -/

/-- The literals of whatever was read can be written. -/
theorem writable_of_ofSource (h : ofSource source = .ok t) :
    (t.subtree root).Every NodeKind.Writable := by
  rw [ofSource] at h
  split at h
  · next program hprogram =>
      cases h
      obtain ⟨_, region, ss, hroot, hshows⟩ := ofStatements_shows program
      rw [hroot, Subtree.Every]
      exact ⟨trivial, ((Statement.allWellWritten_iff program hshows).1
        (Statement.wellWritten_ofSource hprogram)).2⟩
  · cases h

/-- A tree that shows what can be written is printed as a text for the same program. -/
theorem ofSource_print_of_showsAll (hw : t.WellLinked) {program : List Statement} {id : NodeId}
    {region : Region} {ss : List Subtree} {size : Nat}
    (hroot : t.subtree root = .node id (.root Scopes.global) region ss)
    (hshows : Statement.ShowsAll Scopes.global program ss)
    (hblocks : (blockScopesAll ss).map ScopeId.index = List.Ico 1 size)
    (hwritten : Statement.AllWellWritten program)
    (hplain : Subtree.EveryAll NodeKind.FloatPlain ss) :
    ∃ again, ofSource (t.print root) = .ok again ∧ SameProgram again t := by
  obtain ⟨sts, hread, hbare⟩ := Statement.readAll_print
    (String.ofList (Subtree.printStatements 0 ss)).utf8ByteSize 0 program hwritten hshows
    hplain Statement.blanks_nil 0
  have hagain : ofSource (t.print root) = .ok (ofStatements sts) := by
    rw [print, hroot, Subtree.print, ofSource, Statement.ofSource, ofSource_eq, hread]
  obtain ⟨hw', region', ss', hroot', hshows'⟩ := ofStatements_shows sts
  have hblocks' := blockScopes_of_ofSource hagain
  rw [hroot', Subtree.blockScopes_node rfl] at hblocks'
  refine ⟨ofStatements sts, hagain, sameProgram_of_content hw' hw ?_⟩
  rw [hroot, hroot', content_of_shows_root hshows hblocks, content_of_shows_root hshows' hblocks',
    ← Statement.contentAll_bareAll, hbare, Statement.contentAll_bareAll]

/-- A program in which nodes were replaced by their values shows a program again. -/
theorem FoldedBy.exists_program (h : ofSource source = .ok t) (hu : FoldedBy t ctx rs u)
    (hrs : ∀ r ∈ rs, isFoldable (t.kind r) = true) :
    ∃ program region ss, u.subtree root = .node root (.root Scopes.global) region ss ∧
      Statement.ShowsAll Scopes.global program ss ∧ Statement.AllSpelled program ∧
      (blockScopesAll ss).map ScopeId.index = List.Ico 1 t.scopes.scopes.size := by
  have hblocks := blockScopes_of_ofSource h
  rw [ofSource] at h
  split at h
  · next program hprogram =>
      cases h
      obtain ⟨hw, region, ss, hroot, hshows⟩ := ofStatements_shows program
      have hspelled := ((Statement.allWellWritten_iff program hshows).1
        (Statement.wellWritten_ofSource hprogram)).1
      have hwu := hu.meaning.wellLinked
      have hnot := Replaced.not_mem_of_not_foldable hw hrs hroot rfl
      have hlt : root.index < (ofStatements program).size := by
        rw [ofStatements, size_addChildren]
        exact (plantAll_shows Scopes.global program empty_wellLinked).1.size_le
      obtain ⟨cs, hcs, rfl, hsub⟩ := hu.replaced.subtree_of_not_mem hw hwu hlt hroot hnot
      obtain ⟨sts, hsts, hall, hsame⟩ :=
        hu.replaced.shows_all hw hwu hrs program hcs hshows hspelled
      rw [standIn_of_not_mem hnot] at hsub
      rw [hroot, Subtree.blockScopes_node rfl, ← hsame] at hblocks
      exact ⟨sts, region, _, hsub, hsts, hall, hblocks⟩
  · cases h

/-- After a fold that went well a program can be printed and read again, as the same program,
if all integers and strings in it can be written, and only then. -/
theorem foldConstants_print_iff {count : Nat} (h : ofSource source = .ok t)
    (hfold : (t.foldConstants ctx root).1 = .ok count)
    (hplain : ((t.foldConstants ctx root).2.subtree root).Every NodeKind.FloatPlain) :
    (∃ again, ofSource ((t.foldConstants ctx root).2.print root) = .ok again ∧
      SameProgram again (t.foldConstants ctx root).2) ↔
    ((t.foldConstants ctx root).2.subtree root).Every NodeKind.Writable := by
  refine ⟨fun ⟨again, hread, hsame⟩ => (writable_of_ofSource hread).congr hsame.content.symm,
    fun hwritable => ?_⟩
  have hspec := foldConstants_spec (wellLinked_of_ofSource h) ctx root
  split at hspec
  · rw [hspec] at hfold
    cases hfold
  · obtain ⟨u, hu, hrun⟩ := hspec
    rw [hrun] at hplain hwritable ⊢
    obtain ⟨program, region, ss, hroot, hshows, hspelled, hblocks⟩ :=
      hu.exists_program h fun r hr => (List.mem_filter.1 (List.mem_filter.1 hr).1).2
    dsimp only at hplain hwritable
    rw [hroot, Subtree.Every] at hplain hwritable
    exact ofSource_print_of_showsAll hu.meaning.wellLinked hroot hshows hblocks
      ((Statement.allWellWritten_iff program hshows).2 ⟨hspelled, hwritable.2⟩) hplain.2

/-- What holds of all nodes that were made holds of all in a subtree. -/
theorem every_subtree {P : NodeKind → Prop} (hroot : P default)
    (h : ∀ node ∈ t.nodes.toList, P node.kind) (n : NodeId) : (t.subtree n).Every P := by
  refine every_subtreeWithin (fun m => ?_) t.size n
  rw [kind, node]
  cases hget : t.nodes[m.index]? with
  | none => exact hroot
  | some node => exact h node (Array.mem_toList_iff.2 (Array.mem_of_getElem? hget))

/-- Sums and products of numbers, and a string that a number was put at the end of. -/
theorem foldConstants_print_iff_block :
    ∃ t, ofSource "set a = 2 * (3 - 1) + x\n\x7b 'F' + 2 \x7d" = .ok t ∧
      (t.foldConstants .empty root).1 = .ok 3 ∧
      ((t.foldConstants .empty root).2.subtree root).Every NodeKind.FloatPlain ∧
      ((t.foldConstants .empty root).2.subtree root).Every NodeKind.Writable ∧
      (t.foldConstants .empty root).2.print root = "set a = 4 + x\n\x7b\n  \"F2\"\n\x7d" ∧
      ∃ again, ofSource ((t.foldConstants .empty root).2.print root) = .ok again ∧
        SameProgram again (t.foldConstants .empty root).2 := by
  have hcheck : (ofSource "set a = 2 * (3 - 1) + x\n\x7b 'F' + 2 \x7d").toOption.any (fun t =>
      (t.foldConstants .empty root).1 = .ok 3 ∧
      (∀ node ∈ (t.foldConstants .empty root).2.nodes.toList,
        node.kind.float?.isNone ∧ node.kind.Writable) ∧
      (t.foldConstants .empty root).2.print root =
        "set a = 4 + x\n\x7b\n  \"F2\"\n\x7d") = true := by decide +kernel
  obtain ⟨t, ht, hfacts⟩ := exists_of_checked hcheck
  obtain ⟨hfold, hnodes, hprint⟩ := of_decide_eq_true hfacts
  have hplain : ((t.foldConstants .empty root).2.subtree root).Every NodeKind.FloatPlain := by
    refine every_subtree nofun (fun node hnode x hx => ?_) root
    have hnone := (hnodes node hnode).1
    rw [hx] at hnone
    cases hnone
  have hwritable : ((t.foldConstants .empty root).2.subtree root).Every NodeKind.Writable :=
    every_subtree trivial (fun node hnode => (hnodes node hnode).2) root
  exact ⟨t, ht, hfold, hplain, hwritable, hprint,
    (foldConstants_print_iff ht hfold hplain).2 hwritable⟩

/-- Whether a source is printed, after a fold that went well, as a text that is not read. -/
def FoldsToUnread (source text : String) : Prop :=
  ∃ t count, ofSource source = .ok t ∧ (t.foldConstants .empty root).1 = .ok count ∧
    (t.foldConstants .empty root).2.print root = text ∧ ∀ again, ofSource text ≠ .ok again

theorem foldsToUnread_of_checked {text : String}
    (hfolded : (ofSource source).toOption.any (fun t =>
      (t.foldConstants .empty root).1.isOk ∧
      (t.foldConstants .empty root).2.print root = text) = true)
    (hunread : (ofSource text).isOk = false) : FoldsToUnread source text := by
  obtain ⟨t, ht, hfacts⟩ := exists_of_checked hfolded
  obtain ⟨hok, hprint⟩ := of_decide_eq_true hfacts
  cases hfold : (t.foldConstants .empty root).1 with
  | error e =>
      rw [hfold] at hok
      cases hok
  | ok count =>
      refine ⟨t, count, ht, hfold, hprint, fun again hagain => ?_⟩
      rw [hagain] at hunread
      cases hunread

/-- A negative difference, a sum of strings with quotes of both kinds, and a double that is too
large to be written in place. -/
theorem foldConstants_print_unread :
    FoldsToUnread "1 - 2" "-1" ∧
    FoldsToUnread "'\"' + \"'\"" "'\"''" ∧
    FoldsToUnread "10000000000000000.0" "1e16" :=
  ⟨foldsToUnread_of_checked (by decide +kernel) (by decide +kernel),
    foldsToUnread_of_checked (by decide +kernel) (by decide +kernel),
    foldsToUnread_of_checked (by decide +kernel) (by decide +kernel)⟩

end Tree

end Lindenmayer
