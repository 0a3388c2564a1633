import Lindenmayer.Proofs.Listing
import Lindenmayer.Proofs.Shape
import Lindenmayer.Proofs.Symbols
import Mathlib.Data.List.Intervals
import Mathlib.Data.List.Pairwise

/-!
# Every name is where it stands

Scopes are made while a program is planted, and a node is given its scope
before anything is above it. Afterwards the scope of a node is looked for by
climbing to the nearest block. That the two agree is not to be seen from either
side alone.

`Subtree.Nested` is what they agree on, said along the tree: names belong to the
scope that they stand in, and a block's scope is made in the scope that the
block stands in. Planting keeps it (`Sown.nested`), and climbing finds it
(`standsIn_of_ofSource`), since one step up is `definitionScope_eq`.

The rest is counted along the nodes in document order, a parent before its
children: blocks have the new scopes one after the other (`Sown.blocks`), and a
name is declared by the first of its identifiers (`Sown.declared`).
-/

namespace Lindenmayer

/-! ## The way up -/

namespace Tree

variable {t : Tree}

/-- The scope that a node stands in, whether or not it opens one itself. -/
def scopeAround (t : Tree) (n : NodeId) : ScopeId :=
  match t.parent n with
  | some p => t.definitionScope p
  | none => Scopes.global

theorem definitionScope_eq (hw : t.WellLinked) (n : NodeId) :
    t.definitionScope n = (t.kind n).ownedScope.getD (t.scopeAround n) := by
  rw [definitionScope, hw.lineage_eq, List.findSome?_cons, scopeAround]
  cases (t.kind n).ownedScope with
  | some scope => rfl
  | none =>
      cases t.parent n with
      | some p => rfl
      | none => rfl

end Tree

/-! ## Names in their scopes -/

namespace NodeKind

/-- Whether a node can be in a scope: a name belongs to it, and the scope of a
block is made in it. -/
def StandsIn (scopes : Scopes) (scope : ScopeId) : NodeKind → Prop
  | assignment _ id => id = scope
  | identifier _ id => id = scope
  | block id => scopes.parent id = some scope
  | _ => True

/-- The scope that a block opens. -/
def blockScope? : NodeKind → Option ScopeId
  | block scope => some scope
  | _ => none

/-- Whether a node is an identifier of a name in a scope. -/
def isIdentifier (name : String) (scope : ScopeId) : NodeKind → Bool
  | identifier n id => n = name && id = scope
  | _ => false

variable {kind : NodeKind} {scope : ScopeId} {scopes : Scopes}

theorem PlainIn.standsIn (h : kind.PlainIn scope) : kind.StandsIn scopes scope := by
  cases kind <;> first | exact h | exact trivial | exact h.elim

theorem PlainIn.ownedScope (h : kind.PlainIn scope) : kind.ownedScope = none := by
  cases kind <;> first | rfl | exact h.elim

theorem PlainIn.blockScope? (h : kind.PlainIn scope) : kind.blockScope? = none := by
  cases kind <;> first | rfl | exact h.elim

theorem PlainIn.isIdentifier (h : kind.PlainIn scope) (name : String) (id : ScopeId) :
    kind.isIdentifier name id = false := by
  cases kind <;> first | rfl | exact h.elim

theorem isIdentifier_iff {name : String} : kind.isIdentifier name scope = true ↔
    kind = .identifier name scope := by
  cases kind <;> simp [isIdentifier]

theorem blockScope?_eq_some : kind.blockScope? = some scope ↔ kind = .block scope := by
  cases kind <;> simp [blockScope?]

theorem StandsIn.mono {scopes' : Scopes} (h : kind.StandsIn scopes scope)
    (hext : scopes'.Extends scopes) : kind.StandsIn scopes' scope := by
  cases kind <;> first | exact hext.parent_eq h | exact h

end NodeKind

namespace Subtree

mutual

/-- Whether all nodes of a subtree that stands in a scope are where they can be. -/
def Nested (scopes : Scopes) (scope : ScopeId) : Subtree → Prop
  | node _ kind _ children =>
    kind.StandsIn scopes scope ∧ NestedAll scopes (kind.ownedScope.getD scope) children

def NestedAll (scopes : Scopes) (scope : ScopeId) : List Subtree → Prop
  | [] => True
  | s :: more => s.Nested scopes scope ∧ NestedAll scopes scope more

end

variable {scopes scopes' : Scopes} {scope : ScopeId}

theorem nestedAll_iff {ss : List Subtree} :
    NestedAll scopes scope ss ↔ ∀ s ∈ ss, s.Nested scopes scope := by
  induction ss with
  | nil => simp [NestedAll]
  | cons s more ih => simp [NestedAll, ih]

mutual

/-- Scopes that are made elsewhere do not matter. -/
theorem Nested.mono (hext : scopes'.Extends scopes) {scope : ScopeId} {s : Subtree}
    (h : s.Nested scopes scope) : s.Nested scopes' scope := by
  match s with
  | .node _ kind _ children =>
      rw [Nested] at h ⊢
      exact ⟨h.1.mono hext, NestedAll.mono hext h.2⟩

theorem NestedAll.mono (hext : scopes'.Extends scopes) {scope : ScopeId} {ss : List Subtree}
    (h : NestedAll scopes scope ss) : NestedAll scopes' scope ss := by
  match ss with
  | [] => trivial
  | s :: more =>
      rw [NestedAll] at h ⊢
      exact ⟨h.1.mono hext, NestedAll.mono hext h.2⟩

end

end Subtree

namespace Tree

variable {t t' t'' : Tree} {scope : ScopeId} {ns ms : List NodeId} {ks : List NodeKind}

/-- What is planted in a scope is where it can be there. -/
theorem Sown.nested (h : Sown scope t t' ns ks) (hw : t.WellLinked) :
    Subtree.NestedAll t'.scopes scope (ns.map t'.subtree) := by
  induction h with
  | nothing => trivial
  | @append scope t t' t'' ns ms _ _ first second ih ih' =>
      have hfirst := first.planted hw
      have hsecond := second.planted hfirst.wellLinked
      have hkeep : ns.map t''.subtree = ns.map t'.subtree :=
        List.map_congr_left fun n hn => hsecond.subtree_eq hfirst.wellLinked (hfirst.lt n hn)
      have hold := (ih hw).mono second.extends
      have hnew := ih' hfirst.wellLinked
      rw [Subtree.nestedAll_iff] at hold hnew ⊢
      rw [List.map_append, hkeep]
      exact List.forall_mem_append.2 ⟨hold, hnew⟩
  | wrap kind region hplain _ below ih =>
      rw [List.map_singleton, ((below.planted hw).wrap kind region).2, scopes_addChildren,
        scopes_newNode, Subtree.NestedAll, Subtree.Nested, hplain.ownedScope]
      exact ⟨⟨hplain.standsIn, ih hw⟩, trivial⟩
  | @identifier scope t name region =>
      have hsubtree : (t.newNode (.identifier name scope) region).2.subtree ⟨t.size⟩ =
          .node ⟨t.size⟩ (.identifier name scope) region [] :=
        ((Planted.refl hw).wrap (.identifier name scope) region).2
      rw [List.map_singleton, subtree_withScopes, hsubtree]
      exact ⟨⟨rfl, trivial⟩, trivial⟩
  | @block scope t t' ns _ region _ below ih =>
      have hw' := hw.withScopes (t.scopes.createAnonymous scope).2
      have hparent : t'.scopes.parent (t.scopes.createAnonymous scope).1 = some scope :=
        below.extends.parent_eq (by
          rw [Scopes.parent_createAnonymous, if_pos]
          rfl)
      rw [List.map_singleton, ((below.planted hw').of_withScopes.wrap _ region).2,
        scopes_addChildren, scopes_newNode, Subtree.NestedAll, Subtree.Nested]
      exact ⟨⟨hparent, ih hw'⟩, trivial⟩

/-! ## Counting along the nodes -/

/-- The blocks that are planted open the scopes that are made, in this order. -/
theorem Sown.blocks (h : Sown scope t t' ns ks) (hw : t.WellLinked) :
    (((t'.listing ns).map Prod.snd).filterMap NodeKind.blockScope?).map ScopeId.index =
      List.Ico t.scopes.scopes.size t'.scopes.scopes.size := by
  induction h with
  | nothing => exact (List.Ico.self_empty).symm
  | append first second ih ih' =>
      have hfirst := first.planted hw
      rw [hfirst.listing_append (second.planted hfirst.wellLinked), List.map_append,
        List.filterMap_append, List.map_append, ih hw, ih' hfirst.wellLinked,
        List.Ico.append_consecutive first.extends.size_le second.extends.size_le]
  | wrap kind region hplain _ below ih =>
      rw [(below.planted hw).listing_wrap, List.map_cons,
        List.filterMap_cons_none hplain.blockScope?, ih hw, scopes_addChildren, scopes_newNode]
  | @identifier scope t name region =>
      rw [listing_withScopes, Planted.listing_newNode hw, Scopes.size_scopes_declare,
        List.Ico.self_empty]
      rfl
  | @block scope t t' ns _ region _ below ih =>
      have hw' := hw.withScopes (t.scopes.createAnonymous scope).2
      have hlt := below.extends.size_le
      rw [Scopes.size_scopes_createAnonymous] at hlt
      rw [(below.planted hw').of_withScopes.listing_wrap, List.map_cons,
        List.filterMap_cons_some (f := NodeKind.blockScope?) rfl, List.map_cons, ih hw',
        scopes_addChildren, scopes_newNode, Scopes.size_scopes_createAnonymous,
        List.Ico.eq_cons hlt]
      rfl

/-- A name gets a symbol in a scope from the first of its identifiers that are
planted there, unless it has one already. -/
theorem Sown.declared (h : Sown scope t t' ns ks) (hw : t.WellLinked) (hs : t.scopes.WellNamed)
    (hscope : scope.index < t.scopes.scopes.size) (id : ScopeId) (name : String) :
    t'.scopes.declared? id name =
      (t.scopes.declared? id name).or
        (((t'.listing ns).find? fun e => e.2.isIdentifier name id).map fun e =>
          ⟨name, id, .unknown, some e.1⟩) := by
  induction h with
  | nothing => exact (Option.or_none).symm
  | append first second ih ih' =>
      have hfirst := first.planted hw
      rw [hfirst.listing_append (second.planted hfirst.wellLinked), List.find?_append,
        Option.map_or, ← Option.or_assoc, ← ih hw hs hscope]
      exact ih' hfirst.wellLinked (first.keeps .wellNamed hs)
        (Nat.lt_of_lt_of_le hscope first.extends.size_le)
  | wrap kind region hplain _ below ih =>
      rw [(below.planted hw).listing_wrap, List.find?_cons_of_neg, scopes_addChildren,
        scopes_newNode]
      · exact ih hw hs hscope
      · rw [hplain.isIdentifier]
        exact Bool.false_ne_true
  | @identifier scope t written region =>
      rw [listing_withScopes, Planted.listing_newNode hw, Scopes.declared?_declare hs hscope]
      congr 1
      by_cases hsame : id = scope ∧ name = written
      · obtain ⟨rfl, rfl⟩ := hsame
        simp [NodeKind.isIdentifier]
      · rw [if_neg hsame, List.find?_cons_of_neg]
        · rfl
        · rw [NodeKind.isIdentifier_iff]
          exact fun heq => hsame (by cases heq; exact ⟨rfl, rfl⟩)
  | @block scope t _ _ _ region _ below ih =>
      have hw' := hw.withScopes (t.scopes.createAnonymous scope).2
      rw [(below.planted hw').of_withScopes.listing_wrap, List.find?_cons_of_neg,
        scopes_addChildren, scopes_newNode,
        ← Scopes.declared?_createAnonymous (s := t.scopes) scope id name]
      · refine ih hw' (hs.createAnonymous scope) ?_
        rw [Scopes.size_scopes_createAnonymous]
        exact Nat.lt_succ_self _
      · exact Bool.false_ne_true

/-! ## Whole trees -/

/-- Wherever links lead to from the root, nodes are where they can be. -/
theorem nested_of_reachable (hw : t.WellLinked) (htop : t.parent root = none)
    (hroot : (t.subtree root).Nested t.scopes Scopes.global) {n : NodeId}
    (h : Relation.ReflTransGen (fun p c => c ∈ t.children p) root n) :
    (t.subtree n).Nested t.scopes (t.scopeAround n) := by
  induction h with
  | refl =>
      rw [scopeAround, htop]
      exact hroot
  | @tail p c _ hc ih =>
      rw [hw.subtree_eq, Subtree.Nested, ← definitionScope_eq hw, Subtree.nestedAll_iff] at ih
      rw [scopeAround, hw.parent_of_child hc]
      exact ih.2 _ (List.mem_map_of_mem hc)

section OfSource

variable {source : String} (h : ofSource source = .ok t)

include h

theorem nested_of_ofSource : (t.subtree root).Nested t.scopes Scopes.global := by
  obtain ⟨t', ns, ks, hsown, _, rfl⟩ := exists_sown h
  have hplanted := hsown.planted empty_wellLinked
  rw [hplanted.subtree_root, scopes_addChildren, Subtree.Nested]
  exact ⟨trivial, hsown.nested empty_wellLinked⟩

theorem blocks_of_ofSource :
    ((t.subtree root).preorder.filterMap fun n => (t.kind n).blockScope?).map ScopeId.index =
      List.Ico 1 t.scopes.scopes.size := by
  have hkinds : ((t.listing [root]).map Prod.snd).filterMap NodeKind.blockScope? =
      (t.subtree root).preorder.filterMap fun n => (t.kind n).blockScope? := by
    rw [listing_root, List.map_map, List.filterMap_map]
    rfl
  rw [← hkinds]
  obtain ⟨t', ns, ks, hsown, _, rfl⟩ := exists_sown h
  rw [(hsown.planted empty_wellLinked).listing_addChildren_root, scopes_addChildren]
  exact hsown.blocks empty_wellLinked

theorem declared_of_ofSource (id : ScopeId) (name : String) :
    t.scopes.declared? id name =
      ((t.find (NodeKind.isIdentifier name id)).head?).map fun n =>
        ⟨name, id, .unknown, some n⟩ := by
  obtain ⟨t', ns, ks, hsown, _, rfl⟩ := exists_sown h
  have hdeclared := hsown.declared empty_wellLinked .initial (show 0 < 1 by omega) id name
  have hnone : empty.scopes.declared? id name = none := by
    obtain ⟨i⟩ := id
    cases i with
    | zero => rfl
    | succ i => rfl
  rw [hnone, Option.none_or] at hdeclared
  rw [head?_find, (hsown.planted empty_wellLinked).listing_addChildren_root, scopes_addChildren,
    hdeclared, List.find?_cons_of_neg, Option.map_map]
  · rfl
  · exact Bool.false_ne_true

theorem mem_preorder_of_ofSource {n : NodeId} (hn : n.index < t.size) :
    n ∈ (t.subtree root).preorder :=
  (mem_preorder_iff (wellLinked_of_ofSource h)).2 (reachable_of_ofSource h n hn)

/-- A node is where it can be, for what climbing makes of it. -/
theorem standsIn_of_ofSource {n : NodeId} {kind : NodeKind} (hn : t.kind n = kind)
    (hne : ∀ scope, kind ≠ .root scope) : kind.StandsIn t.scopes (t.scopeAround n) := by
  have hw := wellLinked_of_ofSource h
  have hnested := nested_of_reachable hw (parent_root_of_ofSource h) (nested_of_ofSource h)
    (reachable_of_ofSource h n (index_lt_of_kind hn hne))
  rw [hw.subtree_eq, Subtree.Nested, hn] at hnested
  exact hnested.1

/-! ### Blocks -/

theorem parent_of_block {n : NodeId} {id : ScopeId} (hn : t.kind n = .block id) :
    ∃ p, t.parent n = some p ∧ t.scopes.parent id = some (t.definitionScope p) := by
  have hparent : t.scopes.parent id = some (t.scopeAround n) :=
    standsIn_of_ofSource h hn (by simp)
  cases reachable_of_ofSource h n (index_lt_of_kind hn (by simp)) with
  | refl =>
      rw [kind_root_of_ofSource h] at hn
      cases hn
  | @tail p _ _ hc =>
      have hup := (wellLinked_of_ofSource h).parent_of_child hc
      rw [scopeAround, hup] at hparent
      exact ⟨p, hup, hparent⟩

theorem exists_block_iff (id : ScopeId) :
    (∃ n, t.kind n = .block id) ↔ 1 ≤ id.index ∧ id.index < t.scopes.scopes.size := by
  rw [← List.Ico.mem, ← blocks_of_ofSource h, List.mem_map]
  constructor
  · rintro ⟨n, hn⟩
    have hmem := mem_preorder_of_ofSource h (index_lt_of_kind hn (by simp))
    exact ⟨id, List.mem_filterMap.2 ⟨n, hmem, NodeKind.blockScope?_eq_some.2 hn⟩, rfl⟩
  · rintro ⟨id', hid', hindex⟩
    obtain ⟨n, _, hn⟩ := List.mem_filterMap.1 hid'
    obtain rfl : id' = id := congrArg ScopeId.mk hindex
    exact ⟨n, NodeKind.blockScope?_eq_some.1 hn⟩

/-- The scopes are the global one and those of blocks. -/
theorem index_lt_scopes_iff (id : ScopeId) :
    id.index < t.scopes.scopes.size ↔ id = Scopes.global ∨ ∃ n, t.kind n = .block id := by
  have hglobal : 0 < t.scopes.scopes.size := (wellNamed_of_ofSource h).global_lt
  rw [exists_block_iff h]
  constructor
  · intro hlt
    by_cases hid : id.index = 0
    · exact Or.inl (congrArg ScopeId.mk hid)
    · exact Or.inr ⟨Nat.pos_of_ne_zero hid, hlt⟩
  · rintro (rfl | ⟨_, hlt⟩)
    · exact hglobal
    · exact hlt

theorem block_ne_global (n : NodeId) : t.kind n ≠ .block Scopes.global := fun hn =>
  absurd ((exists_block_iff h Scopes.global).1 ⟨n, hn⟩).1 (Nat.not_succ_le_zero 0)

/-- No two blocks have a scope in common. -/
theorem block_injective {n m : NodeId} {id : ScopeId} (hn : t.kind n = .block id)
    (hm : t.kind m = .block id) : n = m := by
  have hmem : ∀ {k : NodeId}, t.kind k = .block id → k ∈ (t.subtree root).preorder := fun hk =>
    mem_preorder_of_ofSource h (index_lt_of_kind hk (by simp))
  have hnodup : ((t.subtree root).preorder.filterMap fun n => (t.kind n).blockScope?).Nodup :=
    .of_map ScopeId.index (by rw [blocks_of_ofSource h]; exact List.Ico.nodup _ _)
  by_contra hne
  have hsymm : Std.Symm fun a b : NodeId => ∀ s, (t.kind a).blockScope? = some s →
      ∀ s', (t.kind b).blockScope? = some s' → s ≠ s' :=
    ⟨fun a b hab s hs s' hs' heq => hab s' hs' s hs heq.symm⟩
  exact (List.pairwise_filterMap.1 hnodup).forall (hmem hn) (hmem hm) hne id
    (NodeKind.blockScope?_eq_some.2 hn) id (NodeKind.blockScope?_eq_some.2 hm) rfl

/-! ### Names -/

/-- A node that opens no scope is in the one that climbing finds. -/
theorem scope_eq_definitionScope {n : NodeId} {kind : NodeKind} {id : ScopeId}
    (hn : t.kind n = kind) (hopens : kind.ownedScope = none) (hid : id = t.scopeAround n) :
    id = t.definitionScope n := by
  rw [definitionScope_eq (wellLinked_of_ofSource h), hn, hopens]
  exact hid

/-- All identifiers are found. -/
theorem mem_find_isIdentifier {n : NodeId} {id : ScopeId} {name : String} :
    n ∈ t.find (NodeKind.isIdentifier name id) ↔ t.kind n = .identifier name id := by
  rw [find_eq, List.mem_filter, NodeKind.isIdentifier_iff]
  exact ⟨And.right, fun hn => ⟨mem_preorder_of_ofSource h (index_lt_of_kind hn (by simp)), hn⟩⟩

theorem symbol_of_local? {id : ScopeId} {name : String} {symbol : SymbolId}
    (hsymbol : t.scopes.local? id name = some symbol) :
    ∃ n, (t.find (NodeKind.isIdentifier name id)).head? = some n ∧
      t.scopes.symbol symbol = ⟨name, id, .unknown, some n⟩ := by
  have hdeclared := declared_of_ofSource h id name
  rw [Scopes.declared?, hsymbol, Option.map_some] at hdeclared
  obtain ⟨n, hfirst, heq⟩ := Option.map_eq_some_iff.1 hdeclared.symm
  exact ⟨n, hfirst, heq.symm⟩

theorem isSome_local?_iff (id : ScopeId) (name : String) :
    (t.scopes.local? id name).isSome = true ↔ ∃ n, t.kind n = .identifier name id := by
  constructor
  · intro hsome
    obtain ⟨symbol, hsymbol⟩ := Option.isSome_iff_exists.1 hsome
    obtain ⟨n, hfirst, _⟩ := symbol_of_local? h hsymbol
    exact ⟨n, (mem_find_isIdentifier h).1 (List.mem_of_mem_head? hfirst)⟩
  · rintro ⟨n, hn⟩
    have hdeclared := declared_of_ofSource h id name
    rw [List.head?_eq_some_head (List.ne_nil_of_mem ((mem_find_isIdentifier h).2 hn)),
      Scopes.declared?] at hdeclared
    rw [← Option.isSome_map (f := t.scopes.symbol), hdeclared]
    rfl

end OfSource

/-- The scopes of a program that was read are the global one and one for each
block, made in the scope around the block. Identifiers and assignments belong to
the scope that is found by climbing. A scope has just the names that have an
identifier in it, and each was declared by its first identifier and has no type
yet. -/
theorem scoping_of_ofSource {source : String} (h : ofSource source = .ok t) :
    (∀ id : ScopeId, id.index < t.scopes.scopes.size ↔
      id = Scopes.global ∨ ∃ n, t.kind n = .block id) ∧
    (∀ n, t.kind n ≠ .block Scopes.global) ∧
    (∀ n m id, t.kind n = .block id → t.kind m = .block id → n = m) ∧
    (∀ n id, t.kind n = .block id →
      ∃ p, t.parent n = some p ∧ t.scopes.parent id = some (t.definitionScope p)) ∧
    (∀ n name id, t.kind n = .identifier name id → id = t.definitionScope n) ∧
    (∀ n name id, t.kind n = .assignment name id → id = t.definitionScope n) ∧
    (∀ id name, (t.scopes.local? id name).isSome = true ↔ ∃ n, t.kind n = .identifier name id) ∧
    ∀ id name symbol, t.scopes.local? id name = some symbol →
      ∃ n, (t.find (NodeKind.isIdentifier name id)).head? = some n ∧
        t.scopes.symbol symbol = ⟨name, id, .unknown, some n⟩ := by
  refine ⟨index_lt_scopes_iff h, block_ne_global h, fun n m id => block_injective h,
    fun n id => parent_of_block h, fun n name id hn => ?_, fun n name id hn => ?_,
    isSome_local?_iff h, fun id name symbol => symbol_of_local? h⟩
  · have hscope : id = t.scopeAround n := standsIn_of_ofSource h hn (by simp)
    exact scope_eq_definitionScope h hn rfl hscope
  · have hscope : id = t.scopeAround n := standsIn_of_ofSource h hn (by simp)
    exact scope_eq_definitionScope h hn rfl hscope

/-- The assignment in the outer block declares nothing there, and of the two
identifiers in the inner one the first has declared the name. -/
theorem scoping_of_ofSource_nested :
    ∃ t, ofSource "a\n\x7b\n set b = a\n \x7b\n  a * c + a\n \x7d\n\x7d" = .ok t ∧
      t.kind ⟨15⟩ = .block ⟨2⟩ ∧ t.kind ⟨11⟩ = .identifier "a" ⟨2⟩ ∧
      t.scopes.local? ⟨2⟩ "a" = some ⟨2⟩ ∧ t.scopes.local? ⟨1⟩ "b" = none ∧
      (∃ p, t.parent ⟨15⟩ = some p ∧ t.scopes.parent ⟨2⟩ = some (t.definitionScope p)) ∧
      ⟨2⟩ = t.definitionScope ⟨11⟩ ∧ (∀ n, t.kind n ≠ .identifier "b" ⟨1⟩) ∧
      ∃ n, (t.find (NodeKind.isIdentifier "a" ⟨2⟩)).head? = some n ∧
        t.scopes.symbol ⟨2⟩ = ⟨"a", ⟨2⟩, .unknown, some n⟩ := by
  have hcheck : (ofSource
      "a\n\x7b\n set b = a\n \x7b\n  a * c + a\n \x7d\n\x7d").toOption.any (fun t =>
        (t.kind ⟨15⟩).blockScope? = some ⟨2⟩ ∧ (t.kind ⟨11⟩).isIdentifier "a" ⟨2⟩ = true ∧
        t.scopes.local? ⟨2⟩ "a" = some ⟨2⟩ ∧ t.scopes.local? ⟨1⟩ "b" = none) = true := by
    decide +kernel
  obtain ⟨t, ht, hfacts⟩ := exists_of_checked hcheck
  obtain ⟨hblock, hname, ha, hb⟩ := of_decide_eq_true hfacts
  rw [NodeKind.blockScope?_eq_some] at hblock
  rw [NodeKind.isIdentifier_iff] at hname
  obtain ⟨_, _, _, hparent, hidentifier, _, htable, hsite⟩ := scoping_of_ofSource ht
  refine ⟨t, ht, hblock, hname, ha, hb, hparent _ _ hblock, hidentifier _ _ _ hname, fun n hn => ?_,
    hsite _ _ _ ha⟩
  have hsome := (htable ⟨1⟩ "b").2 ⟨n, hn⟩
  rw [hb] at hsome
  cases hsome

end Tree

end Lindenmayer
