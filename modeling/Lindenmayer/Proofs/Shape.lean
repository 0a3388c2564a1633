import Lindenmayer.Proofs.Sowing

/-!
# The shape of a tree that was read

A tree is as its kinds say: statements below the root and below blocks, one
thing below a statement, two operands below an operation. Later passes rely on
this without asking. It is not a property of the type, since any node may be
put below any other; it comes from how trees are planted.

`Shaped` says what the new nodes are like while a tree grows: each is below
another new one or on top, comes after what is below it, and has below it what
its kind admits. So whoever climbs from a node gets to ever later ones; the
climb ends on top, and what is on top is put below the root in the end
(`shape_of_ofSource`).
-/

namespace Lindenmayer.Tree

variable {t t' t'' : Tree} {scope : ScopeId} {ns ms : List NodeId} {ks : List NodeKind}

/-- Whether a node has below it what its kind admits. -/
def AdmitsChildren (t : Tree) (n : NodeId) : Prop :=
  (t.kind n).admits ((t.children n).map t.kind) = true

/-- What a node has below it is seen from the kinds and children of the nodes
that were there when it was made. -/
theorem AdmitsChildren.congr {n : NodeId} (h : t.AdmitsChildren n) (hw : t.WellLinked)
    (hsame : ∀ m, m.index < t.size → t'.kind m = t.kind m) (hn : n.index < t.size)
    (hchildren : t'.children n = t.children n) : t'.AdmitsChildren n := by
  rw [AdmitsChildren, hsame n hn, hchildren,
    List.map_congr_left fun c hc => hsame c (hw.child_lt hc)]
  exact h

/-- What the nodes are like that came to a tree, if `ns` are those on top. -/
structure Shaped (t t' : Tree) (ns : List NodeId) : Prop where
  attached : ∀ n, t.size ≤ n.index → n.index < t'.size →
    n ∈ ns ∨ ∃ p, t.size ≤ p.index ∧ n ∈ t'.children p
  child_lt : ∀ n, t.size ≤ n.index → ∀ c ∈ t'.children n, c.index < n.index
  admits : ∀ n, t.size ≤ n.index → n.index < t'.size → t'.AdmitsChildren n

namespace Shaped

theorem refl (t : Tree) : Shaped t t [] where
  attached _ hn hlt := absurd hlt (Nat.not_lt.2 hn)
  child_lt _ hn _ hc := absurd (index_lt_of_mem_children hc) (Nat.not_lt.2 hn)
  admits _ hn hlt := absurd hlt (Nat.not_lt.2 hn)

theorem of_withScopes {scopes : Scopes} (h : Shaped { t with scopes } t' ns) : Shaped t t' ns :=
  ⟨h.attached, h.child_lt, h.admits⟩

theorem withScopes (h : Shaped t t' ns) (scopes : Scopes) : Shaped t { t' with scopes } ns :=
  ⟨h.attached, h.child_lt, h.admits⟩

theorem trans (hs : Shaped t t' ns) (hw : t'.WellLinked) (h : Planted t' t'' ms)
    (hs' : Shaped t' t'' ms) (hle : t.size ≤ t'.size) : Shaped t t'' (ns ++ ms) := by
  have hchildren : ∀ m, m.index < t'.size → t''.children m = t'.children m := fun m hm =>
    congrArg Node.children (h.frame m hm)
  refine ⟨fun n hn hlt => ?_, fun n hn c hc => ?_, fun n hn hlt => ?_⟩
  · by_cases hold : n.index < t'.size
    · rcases hs.attached n hn hold with hmem | ⟨p, hp, hmem⟩
      · exact Or.inl (List.mem_append_left _ hmem)
      · exact Or.inr ⟨p, hp, by rw [hchildren p (index_lt_of_mem_children hmem)]; exact hmem⟩
    · rcases hs'.attached n (Nat.le_of_not_lt hold) hlt with hmem | ⟨p, hp, hmem⟩
      · exact Or.inl (List.mem_append_right _ hmem)
      · exact Or.inr ⟨p, Nat.le_trans hle hp, hmem⟩
  · by_cases hold : n.index < t'.size
    · rw [hchildren n hold] at hc
      exact hs.child_lt n hn c hc
    · exact hs'.child_lt n (Nat.le_of_not_lt hold) c hc
  · by_cases hold : n.index < t'.size
    · exact (hs.admits n hn hold).congr hw (fun m hm => congrArg Node.kind (h.frame m hm)) hold
        (hchildren n hold)
    · exact hs'.admits n (Nat.le_of_not_lt hold) hlt

theorem wrap (hs : Shaped t t' ns) (h : Planted t t' ns) (kind : NodeKind) (region : Region)
    (hadmits : kind.admits (ns.map t'.kind) = true) :
    Shaped t ((t'.newNode kind region).2.addChildren ⟨t'.size⟩ ns) [⟨t'.size⟩] := by
  obtain ⟨hkind, _, hkids⟩ := h.wrap_self kind region
  have hold := fun m hm => h.wrap_of_lt kind region (m := m) hm
  have hsize : ((t'.newNode kind region).2.addChildren ⟨t'.size⟩ ns).size = t'.size + 1 := by
    rw [size_addChildren, size_newNode]
  generalize (t'.newNode kind region).2.addChildren ⟨t'.size⟩ ns = u at *
  -- A node of the new tree is the one on top, or was there before.
  have hcases : ∀ n : NodeId, n.index < u.size → n.index < t'.size ∨ n = ⟨t'.size⟩ := by
    intro n hn
    rw [hsize] at hn
    exact (Nat.lt_succ_iff_lt_or_eq.1 hn).imp_right fun h => NodeId.ext h
  refine ⟨fun n hn hlt => ?_, fun n hn c hc => ?_, fun n hn hlt => ?_⟩
  · rcases hcases n hlt with hlt | rfl
    · rcases hs.attached n hn hlt with hmem | ⟨p, hp, hmem⟩
      · exact Or.inr ⟨⟨t'.size⟩, h.size_le, by rw [hkids]; exact hmem⟩
      · exact Or.inr ⟨p, hp, by rw [(hold p (index_lt_of_mem_children hmem)).2.2]; exact hmem⟩
    · exact Or.inl (List.mem_singleton.2 rfl)
  · rcases hcases n (index_lt_of_mem_children hc) with hlt | rfl
    · rw [(hold n hlt).2.2] at hc
      exact hs.child_lt n hn c hc
    · rw [hkids] at hc
      exact h.lt c hc
  · rcases hcases n hlt with hlt | rfl
    · exact (hs.admits n hn hlt).congr h.wellLinked (fun m hm => (hold m hm).1) hlt (hold n hlt).2.2
    · rw [AdmitsChildren, hkind, hkids, List.map_congr_left fun c hc => (hold c (h.lt c hc)).1]
      exact hadmits

end Shaped

/-- Whatever was planted has grown into shape. -/
theorem Sown.shaped (h : Sown scope t t' ns ks) (hw : t.WellLinked) : Shaped t t' ns := by
  induction h with
  | nothing => exact .refl _
  | append first second ih ih' =>
      have hfirst := first.planted hw
      exact (ih hw).trans hfirst.wellLinked (second.planted hfirst.wellLinked)
        (ih' hfirst.wellLinked) hfirst.size_le
  | wrap kind region _ hadmits below ih =>
      rw [← below.kinds hw] at hadmits
      exact (ih hw).wrap (below.planted hw) kind region hadmits
  | @identifier scope t name region =>
      exact ((Shaped.refl t).wrap (.refl hw) (.identifier name scope) region rfl).withScopes _
  | @block scope t _ _ _ region hadmits below ih =>
      have hw' := hw.withScopes (t.scopes.createAnonymous scope).2
      rw [← below.kinds hw'] at hadmits
      exact (ih hw').of_withScopes.wrap (below.planted hw').of_withScopes _ region hadmits

/-! ## Whole trees -/

theorem index_pos {n : NodeId} (h : n ≠ root) : 1 ≤ n.index :=
  Nat.pos_of_ne_zero fun hzero => h (NodeId.ext hzero)

namespace Shaped

variable (hs : Shaped empty t ns) (h : Planted empty t ns)

include h

theorem children_root : (t.addChildren root ns).children root = ns := by
  rw [(h.addChildren_root.2 root).2.2.1, if_pos rfl]

theorem children_of_ne {n : NodeId} (hn : n ≠ root) :
    (t.addChildren root ns).children n = t.children n := by
  rw [(h.addChildren_root.2 n).2.2.1, if_neg hn]

include hs

theorem child_lt_parent {p c : NodeId} (hc : c ∈ (t.addChildren root ns).children p)
    (hp : p ≠ root) : c.index < p.index := by
  rw [children_of_ne h hp] at hc
  exact hs.child_lt p (index_pos hp) c hc

/-- The way up goes to ever later nodes, of which there are finitely many, and so
gets on top. -/
theorem reachable (n : NodeId) (hn : n.index < t.size) :
    Relation.ReflTransGen (fun p c => c ∈ (t.addChildren root ns).children p) root n := by
  induction hleft : t.size - n.index using Nat.strong_induction_on generalizing n with
  | _ left ih =>
      by_cases hroot : n = root
      · rw [hroot]
      · rcases hs.attached n (index_pos hroot) hn with hmem | ⟨p, hp, hmem⟩
        · exact .single (by rw [children_root h]; exact hmem)
        · have hpt := index_lt_of_mem_children hmem
          have hproot : p ≠ root := fun heq => absurd hp (by rw [heq]; decide)
          rw [← children_of_ne h hproot] at hmem
          have hlt := hs.child_lt_parent h hmem hproot
          exact (ih (t.size - p.index) (by omega) p hpt rfl).tail hmem

theorem admitsChildren (hall : (ns.map t.kind).all NodeKind.isStatement = true) (n : NodeId)
    (hn : n.index < t.size) : (t.addChildren root ns).AdmitsChildren n := by
  have hkind : ∀ m, (t.addChildren root ns).kind m = t.kind m := fun m =>
    (h.addChildren_root.2 m).1
  rw [AdmitsChildren, hkind, List.map_congr_left fun c _ => hkind c]
  by_cases hroot : n = root
  · rw [hroot, children_root h, kind, h.node_root]
    exact hall
  · rw [children_of_ne h hroot]
    exact hs.admits n (index_pos hroot) hn

end Shaped

/-- A tree that was read is one that was planted, put below the root. -/
theorem exists_shaped {source : String} (h : ofSource source = .ok t) :
    ∃ t' ns, Planted empty t' ns ∧ Shaped empty t' ns ∧
      (ns.map t'.kind).all NodeKind.isStatement = true ∧ t = t'.addChildren root ns := by
  obtain ⟨t', ns, ks, hsown, hstatements, heq⟩ := exists_sown h
  have hw := empty_wellLinked
  exact ⟨t', ns, hsown.planted hw, hsown.shaped hw, by rw [hsown.kinds hw]; exact hstatements, heq⟩

/-- Nothing that was read is beside the tree. -/
theorem reachable_of_ofSource {source : String} (h : ofSource source = .ok t) (n : NodeId)
    (hn : n.index < t.size) : Relation.ReflTransGen (fun p c => c ∈ t.children p) root n := by
  obtain ⟨t', ns, hplanted, hshaped, _, rfl⟩ := exists_shaped h
  rw [size_addChildren] at hn
  exact hshaped.reachable hplanted n hn

theorem parent_root_of_ofSource {source : String} (h : ofSource source = .ok t) :
    t.parent root = none := by
  obtain ⟨t', ns, hplanted, _, _, rfl⟩ := exists_shaped h
  have hnot : root ∉ ns := fun hmem => absurd (hplanted.new root hmem) (by decide)
  rw [(hplanted.addChildren_root.2 root).2.2.2, if_neg hnot]
  exact hplanted.tops_root.upper_top

theorem kind_root_of_ofSource {source : String} (h : ofSource source = .ok t) :
    t.kind root = .root Scopes.global := by
  obtain ⟨t', ns, hplanted, _, _, rfl⟩ := exists_shaped h
  exact (hplanted.addChildren_root.2 root).1.trans (congrArg Node.kind hplanted.node_root)

theorem admitsChildren_of_ofSource {source : String} (h : ofSource source = .ok t) (n : NodeId)
    (hn : n.index < t.size) : t.AdmitsChildren n := by
  obtain ⟨t', ns, hplanted, hshaped, hall, rfl⟩ := exists_shaped h
  rw [size_addChildren] at hn
  exact hshaped.admitsChildren hplanted hall n hn

/-- A tree that was read is one tree with nothing beside it: all nodes are below
the root, and the links agree. But for the root, a node comes after those below
it. And every node has below it what its kind admits. -/
theorem shape_of_ofSource {source : String} (h : ofSource source = .ok t) :
    (∀ n, n.index < t.size → Relation.ReflTransGen (fun p c => c ∈ t.children p) root n) ∧
    t.parent root = none ∧
    (∀ p c, t.parent c = some p ↔ c ∈ t.children p) ∧
    (∀ p, (t.children p).Nodup) ∧
    (∀ p c, c ∈ t.children p → c.index < t.size ∧ (p ≠ root → c.index < p.index)) ∧
    t.kind root = .root Scopes.global ∧
    ∀ n, n.index < t.size → (t.kind n).admits ((t.children n).map t.kind) = true := by
  have hw := wellLinked_of_ofSource h
  refine ⟨reachable_of_ofSource h, parent_root_of_ofSource h,
    fun p c => ⟨hw.child_of_parent, hw.parent_of_child⟩, hw.nodup,
    fun p c hc => ⟨hw.child_lt hc, ?_⟩, kind_root_of_ofSource h, admitsChildren_of_ofSource h⟩
  obtain ⟨t', ns, hplanted, hshaped, _, rfl⟩ := exists_shaped h
  exact hshaped.child_lt_parent hplanted hc

/-- The product is made before the sum that it is an operand of, and the block
after all of it. -/
theorem shape_of_ofSource_block :
    ∃ t, ofSource "\x7b\n set x = 'a' + y * 2\n\x7d\nrule r: F -> FF" = .ok t ∧ t.size = 13 ∧
      t.children root = [⟨10⟩, ⟨12⟩] ∧ t.children ⟨5⟩ = [⟨1⟩, ⟨4⟩] ∧ t.parent ⟨5⟩ = some ⟨6⟩ ∧
      (∀ n, n.index < 13 → Relation.ReflTransGen (fun p c => c ∈ t.children p) root n) ∧
      (∀ p c, c ∈ t.children p → c.index < 13 ∧ (p ≠ root → c.index < p.index)) ∧
      ∀ n, n.index < 13 → (t.kind n).admits ((t.children n).map t.kind) = true := by
  have hcheck : (ofSource
      "\x7b\n set x = 'a' + y * 2\n\x7d\nrule r: F -> FF").toOption.any (fun t =>
        t.size = 13 ∧ t.children root = [⟨10⟩, ⟨12⟩] ∧ t.children ⟨5⟩ = [⟨1⟩, ⟨4⟩] ∧
        t.parent ⟨5⟩ = some ⟨6⟩) = true := by decide +kernel
  obtain ⟨t, ht, hfacts⟩ := exists_of_checked hcheck
  obtain ⟨hsize, hroot, hsum, hparent⟩ := of_decide_eq_true hfacts
  obtain ⟨hreach, _, _, _, hlt, _, hadmits⟩ := shape_of_ofSource ht
  rw [hsize] at hreach hlt hadmits
  exact ⟨t, ht, hsize, hroot, hsum, hparent, hreach, hlt, hadmits⟩

end Lindenmayer.Tree
