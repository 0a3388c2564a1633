import Lindenmayer.Proofs.Evaluation
import Lindenmayer.Proofs.Rereading
import Lindenmayer.Proofs.Scoping

/-!
# What a tree says

Two trees may be the same program and yet have their nodes in other orders and from other
places of a source. `Subtree.content` is what is left when that is forgotten: what the nodes
stand for, and how they stand to each other. It is enough for evaluating, and to have the same
content is to be the same program (`SameProgram`).

The content of a program follows from its syntax without its regions. Only the scopes of
blocks are not in the syntax; but they are numbered in the order of the blocks, so it is
enough to count (`content_of_showsAll`).
-/

namespace Lindenmayer

/-! ## Content -/

namespace Subtree

mutual

/-- A subtree without the names of its nodes and their regions. -/
def content : Subtree → Subtree
  | node _ kind _ children => node Tree.root kind .origin (contentAll children)

def contentAll : List Subtree → List Subtree
  | [] => []
  | s :: more => content s :: contentAll more

end

theorem contentAll_eq_map (ss : List Subtree) : contentAll ss = ss.map content := by
  induction ss with
  | nil => rfl
  | cons s ss ih => rw [contentAll, List.map_cons, ih]

mutual

theorem kinds_content (s : Subtree) : s.content.kinds = s.kinds := by
  match s with
  | node id kind region children =>
      rw [content, kinds, kinds, kindsAll_contentAll children]

theorem kindsAll_contentAll (ss : List Subtree) : kindsAll (contentAll ss) = kindsAll ss := by
  match ss with
  | [] => rfl
  | s :: more =>
      rw [contentAll, kindsAll, kindsAll, kinds_content s, kindsAll_contentAll more]

end

section Evaluate

variable (lookup : ScopeId → String → Except EvalError Value)

mutual

theorem evaluate_content (s : Subtree) : s.content.evaluate lookup = s.evaluate lookup := by
  match s with
  | node id kind region children =>
      rw [content, evaluate_node, evaluate_node, map_evaluate_contentAll children]

theorem map_evaluate_contentAll (ss : List Subtree) :
    (contentAll ss).map (evaluate lookup) = ss.map (evaluate lookup) := by
  match ss with
  | [] => rfl
  | s :: more =>
      rw [contentAll, List.map_cons, List.map_cons, evaluate_content s,
        map_evaluate_contentAll more]

end

end Evaluate

mutual

theorem every_iff {P : NodeKind → Prop} (s : Subtree) : s.Every P ↔ ∀ kind ∈ s.kinds, P kind := by
  match s with
  | node id kind region children =>
      rw [Every, kinds, List.forall_mem_cons, everyAll_iff children]

theorem everyAll_iff {P : NodeKind → Prop} (ss : List Subtree) :
    EveryAll P ss ↔ ∀ kind ∈ kindsAll ss, P kind := by
  match ss with
  | [] => exact ⟨fun _ _ hmem => absurd hmem List.not_mem_nil, fun _ => trivial⟩
  | s :: more =>
      rw [EveryAll, kindsAll, List.forall_mem_append, every_iff s, everyAll_iff more]

end

/-- What is true of all nodes is a matter of the content. -/
theorem Every.congr {P : NodeKind → Prop} {s s' : Subtree} (hsame : s'.content = s.content)
    (h : s.Every P) : s'.Every P := by
  rw [every_iff, ← kinds_content] at h ⊢
  rw [hsame]
  exact h

/-! ## Blocks -/

/-- The scopes that the blocks of a subtree open. -/
def blockScopes (s : Subtree) : List ScopeId := s.kinds.filterMap NodeKind.blockScope?

def blockScopesAll (ss : List Subtree) : List ScopeId :=
  (kindsAll ss).filterMap NodeKind.blockScope?

theorem blockScopesAll_cons (s : Subtree) (ss : List Subtree) :
    blockScopesAll (s :: ss) = s.blockScopes ++ blockScopesAll ss := by
  rw [blockScopesAll, kindsAll, List.filterMap_append]
  rfl

theorem blockScopes_node {id : NodeId} {kind : NodeKind} {region : Region} {ss : List Subtree}
    (h : kind.blockScope? = none) :
    (node id kind region ss).blockScopes = blockScopesAll ss := by
  rw [blockScopes, kinds, List.filterMap_cons_none h]
  rfl

theorem blockScopes_block {id : NodeId} {scope : ScopeId} {region : Region} {ss : List Subtree} :
    (node id (.block scope) region ss).blockScopes = scope :: blockScopesAll ss := by
  rw [blockScopes, kinds, List.filterMap_cons_some (f := NodeKind.blockScope?) rfl]
  rfl

theorem blockScopes_only {id : NodeId} {kind : NodeKind} {region : Region} {s : Subtree}
    (h : kind.blockScope? = none) : (node id kind region [s]).blockScopes = s.blockScopes := by
  rw [blockScopes_node h, blockScopesAll_cons]
  exact List.append_nil _

end Subtree

/-! ## The content of syntax -/

/-- A node that is nowhere, and below it others. -/
def Subtree.saying (kind : NodeKind) (ss : List Subtree) : Subtree :=
  .node Tree.root kind .origin ss

def Expr.content (scope : ScopeId) : Expr → Subtree
  | .number n _ => .saying (.number n) []
  | .string s _ => .saying (.string s) []
  | .identifier name _ => .saying (.identifier name scope) []
  | .operation operator _ lhs rhs =>
    .saying (.operation operator) [lhs.content scope, rhs.content scope]

def Expression.content (scope : ScopeId) (e : Expression) : Subtree :=
  .saying .expression [e.value.content scope]

mutual

def Statement.blocks : Statement → Nat
  | .assignment _ _ _ => 0
  | .rule _ _ _ _ => 0
  | .block _ body => Statement.blocksAll body + 1
  | .expression _ => 0

/-- The number of blocks in some statements, at any depth. -/
def Statement.blocksAll : List Statement → Nat
  | [] => 0
  | st :: more => st.blocks + Statement.blocksAll more

end

mutual

/-- The content of a statement in a scope; `next` is the number that the next block gets. -/
def Statement.content (scope : ScopeId) (next : Nat) : Statement → Subtree
  | .assignment name _ value =>
    .saying .statement [.saying (.assignment name scope) [value.content scope]]
  | .rule name expected replacement _ =>
    .saying .statement [.saying (.rule name expected replacement) []]
  | .block _ body =>
    .saying .statement [.saying (.block ⟨next⟩) (Statement.contentAll ⟨next⟩ (next + 1) body)]
  | .expression value => .saying .statement [value.content scope]

def Statement.contentAll (scope : ScopeId) (next : Nat) : List Statement → List Subtree
  | [] => []
  | st :: more =>
    st.content scope next :: Statement.contentAll scope (next + st.blocks) more

end

theorem Expr.content_bare (scope : ScopeId) (e : Expr) :
    e.bare.content scope = e.content scope := by
  induction e with
  | number n region => rfl
  | string s region => rfl
  | identifier name region => rfl
  | operation operator region lhs rhs ihl ihr => rw [bare, content, content, ihl, ihr]

theorem Expression.content_bare (scope : ScopeId) (e : Expression) :
    e.bare.content scope = e.content scope := by
  rw [content, bare, Expr.content_bare, content]

namespace Statement

mutual

theorem blocks_bare (st : Statement) : st.bare.blocks = st.blocks := by
  match st with
  | .assignment .. => rw [bare, blocks, blocks]
  | .rule .. => rw [bare, blocks, blocks]
  | .block region body => rw [bare, blocks, blocks, blocksAll_bareAll body]
  | .expression .. => rw [bare, blocks, blocks]

theorem blocksAll_bareAll (sts : List Statement) : blocksAll (bareAll sts) = blocksAll sts := by
  match sts with
  | [] => rfl
  | st :: more => rw [bareAll, blocksAll, blocksAll, blocks_bare st, blocksAll_bareAll more]

end

mutual

theorem content_bare (scope : ScopeId) (next : Nat) (st : Statement) :
    st.bare.content scope next = st.content scope next := by
  match st with
  | .assignment name region value =>
      rw [bare, content, content, Expression.content_bare]
  | .rule .. => rw [bare, content, content]
  | .block region body => rw [bare, content, content, contentAll_bareAll _ _ body]
  | .expression value => rw [bare, content, content, Expression.content_bare]

theorem contentAll_bareAll (scope : ScopeId) (next : Nat) (sts : List Statement) :
    contentAll scope next (bareAll sts) = contentAll scope next sts := by
  match sts with
  | [] => rfl
  | st :: more =>
      rw [bareAll, contentAll, contentAll, content_bare _ _ st, blocks_bare,
        contentAll_bareAll _ _ more]

end

end Statement

/-! ## The content of what shows it -/

theorem Expr.Shows.content_eq {scope : ScopeId} {e : Expr} : ∀ {s : Subtree}, e.Shows scope s →
    s.content = e.content scope ∧ s.blockScopes = [] := by
  induction e with
  | number n region =>
      rintro s ⟨id, rfl⟩
      exact ⟨rfl, rfl⟩
  | string str region =>
      rintro s ⟨id, rfl⟩
      exact ⟨rfl, rfl⟩
  | identifier name region =>
      rintro s ⟨id, rfl⟩
      exact ⟨rfl, rfl⟩
  | operation operator region lhs rhs ihl ihr =>
      rintro s ⟨id, l, r, rfl, hl, hr⟩
      obtain ⟨hl, hlBlocks⟩ := ihl hl
      obtain ⟨hr, hrBlocks⟩ := ihr hr
      refine ⟨?_, ?_⟩
      · rw [Subtree.content, Subtree.contentAll, Subtree.contentAll, Subtree.contentAll, hl, hr]
        rfl
      · rw [Subtree.blockScopes_node rfl, Subtree.blockScopesAll_cons,
          Subtree.blockScopesAll_cons, hlBlocks, hrBlocks]
        rfl

theorem Expression.Shows.content_eq {scope : ScopeId} {e : Expression} {s : Subtree}
    (h : e.Shows scope s) : s.content = e.content scope ∧ s.blockScopes = [] := by
  obtain ⟨id, value, rfl, hvalue⟩ := h
  obtain ⟨hvalue, hblocks⟩ := hvalue.content_eq
  refine ⟨?_, ?_⟩
  · rw [Subtree.content, Subtree.contentAll, Subtree.contentAll, hvalue]
    rfl
  · rw [Subtree.blockScopes_only rfl, hblocks]

namespace Statement

open Subtree (blockScopes blockScopesAll)

mutual

theorem length_blockScopes {scope : ScopeId} (st : Statement) {s : Subtree}
    (h : st.Shows scope s) : s.blockScopes.length = st.blocks := by
  match st with
  | .assignment name region value =>
      rw [Shows] at h
      obtain ⟨id, full, id', v, rfl, hv⟩ := h
      rw [Subtree.blockScopes_only rfl, Subtree.blockScopes_only rfl, hv.content_eq.2, blocks]
      rfl
  | .rule .. =>
      rw [Shows] at h
      obtain ⟨id, full, id', rfl⟩ := h
      rw [blocks]
      rfl
  | .block region body =>
      rw [Shows] at h
      obtain ⟨id, full, id', inner, ss, rfl, hss⟩ := h
      rw [Subtree.blockScopes_only rfl, Subtree.blockScopes_block, List.length_cons,
        length_blockScopesAll body hss, blocks]
  | .expression value =>
      rw [Shows] at h
      obtain ⟨id, full, v, rfl, hv⟩ := h
      rw [Subtree.blockScopes_only rfl, hv.content_eq.2, blocks]
      rfl

theorem length_blockScopesAll {scope : ScopeId} (sts : List Statement) {ss : List Subtree}
    (h : ShowsAll scope sts ss) : (blockScopesAll ss).length = blocksAll sts := by
  match sts with
  | [] =>
      rw [ShowsAll] at h
      rw [h]
      rfl
  | st :: more =>
      rw [ShowsAll] at h
      obtain ⟨s, ss, rfl, hs, hss⟩ := h
      rw [Subtree.blockScopesAll_cons, List.length_append, length_blockScopes st hs,
        length_blockScopesAll more hss, blocksAll]

end

mutual

/-- The content of a statement is that of its syntax, if its blocks are numbered in order. -/
theorem content_of_shows {scope : ScopeId} (st : Statement) {s : Subtree} (h : st.Shows scope s)
    {next : Nat} (hnext : s.blockScopes.map ScopeId.index = List.Ico next (next + st.blocks)) :
    s.content = st.content scope next := by
  match st with
  | .assignment name region value =>
      rw [Shows] at h
      obtain ⟨id, full, id', v, rfl, hv⟩ := h
      rw [Subtree.content, Subtree.contentAll, Subtree.contentAll, Subtree.content,
        Subtree.contentAll, Subtree.contentAll, hv.content_eq.1, content]
      rfl
  | .rule .. =>
      rw [Shows] at h
      obtain ⟨id, full, id', rfl⟩ := h
      rw [content]
      rfl
  | .block region body =>
      rw [Shows] at h
      obtain ⟨id, full, id', inner, ss, rfl, hss⟩ := h
      rw [Subtree.blockScopes_only rfl, Subtree.blockScopes_block, List.map_cons, blocks,
        List.Ico.eq_cons (by omega), List.cons.injEq] at hnext
      obtain ⟨hinner, hrest⟩ := hnext
      obtain rfl : inner = ⟨next⟩ := congrArg ScopeId.mk hinner
      rw [show next + (blocksAll body + 1) = next + 1 + blocksAll body by omega] at hrest
      rw [Subtree.content, Subtree.contentAll, Subtree.contentAll, Subtree.content,
        content_of_showsAll body hss hrest, content]
      rfl
  | .expression value =>
      rw [Shows] at h
      obtain ⟨id, full, v, rfl, hv⟩ := h
      rw [Subtree.content, Subtree.contentAll, Subtree.contentAll, hv.content_eq.1, content]
      rfl

theorem content_of_showsAll {scope : ScopeId} (sts : List Statement) {ss : List Subtree}
    (h : ShowsAll scope sts ss) {next : Nat}
    (hnext : (blockScopesAll ss).map ScopeId.index = List.Ico next (next + blocksAll sts)) :
    Subtree.contentAll ss = contentAll scope next sts := by
  match sts with
  | [] =>
      rw [ShowsAll] at h
      rw [h]
      rfl
  | st :: more =>
      rw [ShowsAll] at h
      obtain ⟨s, ss, rfl, hs, hss⟩ := h
      rw [Subtree.blockScopesAll_cons, List.map_append, blocksAll, ← Nat.add_assoc,
        ← List.Ico.append_consecutive (Nat.le_add_right next st.blocks)
          (Nat.le_add_right _ _)] at hnext
      obtain ⟨hfirst, hrest⟩ := List.append_inj hnext (by
        rw [List.length_map, length_blockScopes st hs, List.Ico.length, Nat.add_sub_cancel_left])
      rw [Subtree.contentAll, contentAll, content_of_shows st hs hfirst,
        content_of_showsAll more hss hrest]

end

end Statement

/-! ## Trees -/

namespace Tree

variable {t t' : Tree}

/-- Whether two trees are the same program: below their roots the same nodes in the same
places, which have the same values in every context that knows no difference between the
trees. -/
structure SameProgram (t t' : Tree) : Prop where
  content : (t.subtree root).content = (t'.subtree root).content
  value : ∀ ctx : Context, (∀ scope name, ctx t.scopes scope name = ctx t'.scopes scope name) →
    List.Forall₂ (fun n n' => t.evaluate ctx n = t'.evaluate ctx n')
      (t.subtree root).preorder (t'.subtree root).preorder

theorem content_subtree (hw : t.WellLinked) (n : NodeId) : (t.subtree n).content =
    .saying (t.kind n) ((t.children n).map fun c => (t.subtree c).content) := by
  rw [hw.subtree_eq, Subtree.content, Subtree.contentAll_eq_map, List.map_map]
  rfl

/-- What goes node by node below each of some nodes and of others goes so below all. -/
theorem forall₂_preorderAll {R : NodeId → NodeId → Prop} {cs : List NodeId}
    (h : ∀ c ∈ cs, ∀ c', (t.subtree c).content = (t'.subtree c').content →
      List.Forall₂ R (t.subtree c).preorder (t'.subtree c').preorder) :
    ∀ cs' : List NodeId,
      (cs.map fun c => (t.subtree c).content) = (cs'.map fun c => (t'.subtree c).content) →
      List.Forall₂ R (Subtree.preorderAll (cs.map t.subtree))
        (Subtree.preorderAll (cs'.map t'.subtree)) := by
  induction cs with
  | nil =>
      intro cs' hsame
      rw [List.map_eq_nil_iff.1 hsame.symm]
      exact .nil
  | cons c cs ih =>
      intro cs' hsame
      obtain ⟨c', cs', rfl, hc, hcs⟩ := List.map_eq_cons_iff.1 hsame.symm
      rw [List.map_cons, List.map_cons, Subtree.preorderAll, Subtree.preorderAll]
      exact List.rel_append (h c List.mem_cons_self c' hc.symm)
        (ih (fun d hd => h d (List.mem_cons_of_mem c hd)) cs' hcs.symm)

/-- Where two trees have the same content, the nodes have it in document order. -/
theorem forall₂_preorder (hw : t.WellLinked) (hw' : t'.WellLinked) (n : NodeId) :
    ∀ n', (t.subtree n).content = (t'.subtree n').content →
      List.Forall₂ (fun m m' => (t.subtree m).content = (t'.subtree m').content)
        (t.subtree n).preorder (t'.subtree n').preorder := by
  induction n using hw.induction with
  | step n ih =>
      intro n' hsame
      have hchildren := hsame
      rw [content_subtree hw, content_subtree hw', Subtree.saying, Subtree.saying,
        Subtree.node.injEq] at hchildren
      rw [hw.subtree_eq, hw'.subtree_eq, Subtree.preorder, Subtree.preorder]
      exact .cons hsame (forall₂_preorderAll ih (t'.children n') hchildren.2.2.2)

/-- Trees with the same content are the same program. -/
theorem sameProgram_of_content (hw : t.WellLinked) (hw' : t'.WellLinked)
    (h : (t.subtree root).content = (t'.subtree root).content) : SameProgram t t' where
  content := h
  value ctx hctx := by
    refine (forall₂_preorder hw hw' root root h).imp fun m m' hsame => ?_
    rw [evaluate, evaluate, ← Subtree.evaluate_content, hsame, Subtree.evaluate_content]
    exact congrArg (Subtree.evaluate · _) (funext fun scope => funext (hctx scope))

theorem blockScopes_of_ofSource {source : String} (h : ofSource source = .ok t) :
    (t.subtree root).blockScopes.map ScopeId.index = List.Ico 1 t.scopes.scopes.size := by
  rw [← blocks_of_ofSource h, Subtree.blockScopes, subtree, ← kinds_subtreeWithin,
    List.filterMap_map]
  rfl

/-- The content of a program is that of its statements, if its blocks are numbered in
order. -/
theorem content_of_shows_root {program : List Statement} {id : NodeId} {region : Region}
    {ss : List Subtree} {size : Nat}
    (hshows : Statement.ShowsAll Scopes.global program ss)
    (hblocks : (Subtree.blockScopesAll ss).map ScopeId.index = List.Ico 1 size) :
    (Subtree.node id (.root Scopes.global) region ss).content =
      .saying (.root Scopes.global) (Statement.contentAll Scopes.global 1 program) := by
  have hlength := congrArg List.length hblocks
  rw [List.length_map, Statement.length_blockScopesAll program hshows, List.Ico.length] at hlength
  have hsize : List.Ico 1 size = List.Ico 1 (1 + Statement.blocksAll program) := by
    rw [List.Ico, List.Ico, hlength, Nat.add_sub_cancel_left]
  rw [Subtree.content, Statement.content_of_showsAll program hshows (hblocks.trans hsize)]
  rfl

end Tree

end Lindenmayer
