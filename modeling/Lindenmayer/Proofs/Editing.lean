import Lindenmayer.Proofs.Planting
import Lindenmayer.Tree.Copying

/-!
# Editing keeps links in order

Each link of a tree is written down twice, with the child and with its parent,
and every edit touches several nodes: what is attached has to leave the place
where it was before, which may be beside, below or above the place it goes to.
`node_detach` and `node_replaceChild` say in one equation each what becomes of
every node, with all these cases in them: a node that is moved is first taken
out of whatever list it was in, and then put where it belongs.

Both need only that links agree, not that they lead upwards: a node may be its
own parent. From the equations it follows that links stay in order, as long as
no node is put below itself (`Attachable`). One step is `Edit.wellLinked`; that it holds of
every tree that any number of edits makes from the empty one is
`links_of_edits`. There the way up from a node is followed by `above`, which
counts steps: it ends before there are as many as nodes, because the number of
nodes below goes up with each.
-/

namespace Lindenmayer.Tree

variable {t t' : Tree}

/-! ## Detaching -/

theorem filter_ne_of_not_mem {n : NodeId} {cs : List NodeId} (h : n ∉ cs) :
    cs.filter (· != n) = cs :=
  List.filter_eq_self.2 fun _ hc => bne_iff_ne.2 fun heq => h (heq ▸ hc)

/-- The tree after a node was detached: it has no parent, and is in no list of
children. -/
theorem node_detach (hl : t.Linked) (n m : NodeId) :
    (t.detach n).node m =
      { t.node m with
        parent := if m = n then none else t.parent m
        children := (t.children m).filter (· != n) } := by
  rw [detach]
  cases hp : t.parent n with
  | none =>
      dsimp only
      rw [filter_ne_of_not_mem (hl.not_mem_children hp m)]
      split
      · next h => rw [h, ← hp]; rfl
      · rfl
  | some p =>
      have hmem := hl.child_of_parent hp
      have hnot : m ≠ p → n ∉ t.children m := fun hmp h =>
        hmp (Option.some.inj ((hl.parent_of_child h).symm.trans hp))
      simp only [node_modify, size_modify, hl.child_lt hmem, index_lt_of_mem_children hmem,
        and_true]
      by_cases hmp : m = p
      · by_cases hmn : m = n
        · rw [if_pos hmp, if_pos hmn, if_pos hmn]
          rfl
        · rw [if_pos hmp, if_neg hmn, if_neg hmn]
          rfl
      · rw [if_neg hmp, filter_ne_of_not_mem (hnot hmp)]
        by_cases hmn : m = n
        · rw [if_pos hmn, if_pos hmn]
          rfl
        · rw [if_neg hmn, if_neg hmn]
          rfl

section Detach

variable (hl : t.Linked) (n : NodeId)

include hl

theorem parent_detach (m : NodeId) :
    (t.detach n).parent m = if m = n then none else t.parent m := by
  rw [parent, node_detach hl]

theorem parent_detach_self : (t.detach n).parent n = none := by
  rw [parent_detach hl, if_pos rfl]

theorem children_detach (m : NodeId) :
    (t.detach n).children m = (t.children m).filter (· != n) := by
  rw [children, node_detach hl]

theorem mem_children_detach {m c : NodeId} :
    c ∈ (t.detach n).children m ↔ c ∈ t.children m ∧ c ≠ n := by
  rw [children_detach hl, List.mem_filter, bne_iff_ne]

theorem parent_of_parent_detach {m p : NodeId} (h : (t.detach n).parent m = some p) :
    m ≠ n ∧ t.parent m = some p := by
  rw [parent_detach hl] at h
  split at h
  · cases h
  · next hne => exact ⟨hne, h⟩

theorem isBelow_of_detach {a b : NodeId} (h : (t.detach n).IsBelow a b) : t.IsBelow a b :=
  Relation.TransGen.mono (fun _ _ hup => (parent_of_parent_detach hl n hup).2) _ _ h

theorem Linked.detach : (t.detach n).Linked where
  child_lt h := by
    rw [size_detach]
    exact hl.child_lt ((mem_children_detach hl n).1 h).1
  parent_of_child h := by
    obtain ⟨hmem, hne⟩ := (mem_children_detach hl n).1 h
    rw [parent_detach hl, if_neg hne]
    exact hl.parent_of_child hmem
  child_of_parent h := by
    obtain ⟨hne, hparent⟩ := parent_of_parent_detach hl n h
    exact (mem_children_detach hl n).2 ⟨hl.child_of_parent hparent, hne⟩
  nodup m := by
    rw [children_detach hl]
    exact (hl.nodup m).filter _

end Detach

theorem WellLinked.detach (hw : t.WellLinked) (n : NodeId) : (t.detach n).WellLinked where
  toLinked := hw.toLinked.detach n
  acyclic m h := hw.acyclic m (isBelow_of_detach hw.toLinked n h)

/-! ## Attaching -/

/-- Whether a node may be made a child of another: both exist, and the one is
neither the other nor above it. -/
structure Attachable (t : Tree) (p c : NodeId) : Prop where
  upper_lt : p.index < t.size
  lower_lt : c.index < t.size
  ne : p ≠ c
  not_isBelow : ¬ t.IsBelow p c

/-- Below a top, any other node may be attached. -/
theorem Attachable.of_top {p c : NodeId} (hp : p.index < t.size) (hc : c.index < t.size)
    (hne : p ≠ c) (htop : t.parent p = none) : t.Attachable p c :=
  ⟨hp, hc, hne, not_isBelow_of_top htop⟩

/-- A node that is attached leaves its place first. -/
theorem addChild_detach (hl : t.Linked) (p c : NodeId) :
    (t.detach c).addChild p c = t.addChild p c := by
  rw [addChild, addChild, detach_of_parent_none (parent_detach_self hl c)]

theorem Attachable.wellLinked_addChild {p c : NodeId} (h : t.Attachable p c)
    (hw : t.WellLinked) : (t.addChild p c).WellLinked := by
  have hl := hw.toLinked
  rw [← addChild_detach hl]
  exact (hw.detach c).addChild (by rw [size_detach]; exact h.upper_lt)
    (by rw [size_detach]; exact h.lower_lt) (parent_detach_self hl c) h.ne
    fun hbelow => h.not_isBelow (isBelow_of_detach hl c hbelow)

/-! ## Replacing -/

/-- A list of children after one of them was replaced. -/
def substitute (n new : NodeId) (cs : List NodeId) : List NodeId :=
  cs.map fun c => if c = n then new else c

theorem substitute_of_not_mem {n new : NodeId} {cs : List NodeId} (h : n ∉ cs) :
    substitute n new cs = cs := by
  have hid : ∀ c ∈ cs, (if c = n then new else c) = c := fun c hc =>
    if_neg fun heq => h (by rw [← heq]; exact hc)
  rw [substitute, List.map_congr_left hid, List.map_id']

theorem mem_substitute {n new c : NodeId} {cs : List NodeId} :
    c ∈ substitute n new cs ↔ (c = new ∧ n ∈ cs) ∨ (c ∈ cs ∧ c ≠ n) := by
  rw [substitute, List.mem_map]
  constructor
  · rintro ⟨d, hd, hdc⟩
    split at hdc
    · next h => exact Or.inl ⟨hdc.symm, by rw [← h]; exact hd⟩
    · next h => exact Or.inr (by rw [← hdc]; exact ⟨hd, h⟩)
  · rintro (⟨hc, hn⟩ | ⟨hc, hne⟩)
    · exact ⟨n, hn, by rw [if_pos rfl, hc]⟩
    · exact ⟨c, hc, if_neg hne⟩

theorem nodup_substitute {n new : NodeId} {cs : List NodeId} (h : cs.Nodup) (hnew : new ∉ cs) :
    (substitute n new cs).Nodup := by
  refine List.Nodup.map_on (fun a ha b hb hab => ?_) h
  split at hab
  · next han =>
      split at hab
      · next hbn => rw [han, hbn]
      · exact absurd (by rw [hab]; exact hb) hnew
  · split at hab
    · exact absurd (by rw [← hab]; exact ha) hnew
    · exact hab

section ReplaceChild

variable {p old new : NodeId}

theorem replaceChild_of_not_mem (h : old ∉ t.children p) :
    t.replaceChild p old new = (false, t) := by
  rw [replaceChild, if_pos]
  simpa using h

theorem replaceChild_self (h : old ∈ t.children p) : t.replaceChild p old old = (true, t) := by
  rw [replaceChild, if_neg, if_pos rfl]
  rw [List.contains_iff_mem.2 h]
  exact Bool.false_ne_true

variable (hl : t.Linked) (hmem : old ∈ t.children p) (hne : old ≠ new)

include hl hmem hne

/-- A node that takes the place of another leaves its own place first. -/
theorem replaceChild_detach :
    (t.detach new).replaceChild p old new = t.replaceChild p old new := by
  have hcontains : ∀ {t : Tree}, old ∈ t.children p →
      ¬ (!(t.children p).contains old) = true := by
    intro t h
    rw [List.contains_iff_mem.2 h]
    exact Bool.false_ne_true
  rw [replaceChild, replaceChild, if_neg (hcontains hmem), if_neg hne,
    if_neg (hcontains ((mem_children_detach hl new).2 ⟨hmem, hne⟩)), if_neg hne,
    detach_of_parent_none (parent_detach_self hl new)]

variable (hlt : new.index < t.size) (hpn : p ≠ new)

include hlt hpn

/-- The tree after a child was replaced: the new child is in its place and
nowhere else, and the old one is nobody's child. -/
theorem node_replaceChild (m : NodeId) :
    (t.replaceChild p old new).2.node m =
      { t.node m with
        parent := if m = new then some p else if m = old then none else t.parent m
        children := substitute old new ((t.children m).filter (· != new)) } := by
  have hnot : m ≠ p → old ∉ (t.children m).filter (· != new) := fun hm h =>
    hm (Option.some.inj ((hl.parent_of_child (List.mem_filter.1 h).1).symm.trans
      (hl.parent_of_child hmem)))
  have hchildren :
      (if m = p then ((t.detach new).children p).map fun c => if c = old then new else c
        else (t.detach new).children m) =
      substitute old new ((t.children m).filter (· != new)) := by
    rw [children_detach hl, children_detach hl]
    split
    · next hmp => rw [hmp, substitute]
    · next hmp => rw [substitute_of_not_mem (hnot hmp)]
  have hparent : (if m = new then some p else if m = old then none else (t.detach new).parent m) =
      if m = new then some p else if m = old then none else t.parent m := by
    rw [parent_detach hl]
    by_cases hmn : m = new
    · rw [if_pos hmn, if_pos hmn]
    · rw [if_neg hmn, if_neg hmn, if_neg hmn]
  rw [← replaceChild_detach hl hmem hne,
    node_replaceChild_of_free ((mem_children_detach hl new).2 ⟨hmem, hne⟩)
      (by rw [size_detach]; exact hl.child_lt hmem) (by rw [size_detach]; exact hlt)
      (parent_detach_self hl new) hne hpn, hchildren, hparent, node_detach hl]

theorem parent_replaceChild (m : NodeId) :
    (t.replaceChild p old new).2.parent m =
      if m = new then some p else if m = old then none else t.parent m := by
  rw [parent, node_replaceChild hl hmem hne hlt hpn]

theorem mem_children_replaceChild {m c : NodeId} :
    c ∈ (t.replaceChild p old new).2.children m ↔
      (c = new ∧ old ∈ t.children m) ∨ (c ∈ t.children m ∧ c ≠ new ∧ c ≠ old) := by
  rw [children, node_replaceChild hl hmem hne hlt hpn]
  simp only [mem_substitute, List.mem_filter, bne_iff_ne, hne, ne_eq, not_false_eq_true, and_true,
    and_assoc]

theorem linked_replaceChild : (t.replaceChild p old new).2.Linked := by
  have hparent := hl.parent_of_child hmem
  have hup := parent_replaceChild hl hmem hne hlt hpn
  have hmemiff : ∀ {m c}, _ := fun {m c} =>
    mem_children_replaceChild (m := m) (c := c) hl hmem hne hlt hpn
  refine ⟨fun {m c} hc => ?_, fun {m c} hc => ?_, fun {m c} hc => ?_, fun m => ?_⟩
  · rw [size_replaceChild]
    rcases hmemiff.1 hc with ⟨rfl, _⟩ | ⟨hc, _⟩
    · exact hlt
    · exact hl.child_lt hc
  · rw [hup]
    rcases hmemiff.1 hc with ⟨rfl, hold⟩ | ⟨hc, hcn, hco⟩
    · rw [if_pos rfl, ← hparent, hl.parent_of_child hold]
    · rw [if_neg hcn, if_neg hco]
      exact hl.parent_of_child hc
  · rw [hup] at hc
    split at hc
    · next heq =>
        cases hc
        exact hmemiff.2 (Or.inl ⟨heq, hmem⟩)
    · next hcn =>
        split at hc
        · cases hc
        · next hco => exact hmemiff.2 (Or.inr ⟨hl.child_of_parent hc, hcn, hco⟩)
  · rw [children, node_replaceChild hl hmem hne hlt hpn]
    exact nodup_substitute ((hl.nodup m).filter _) fun h => by simpa using (List.mem_filter.1 h).2

omit hl in
theorem wellLinked_replaceChild (hw : t.WellLinked) (hnot : ¬ t.IsBelow p new) :
    (t.replaceChild p old new).2.WellLinked where
  toLinked := linked_replaceChild hw.toLinked hmem hne hlt hpn
  acyclic := by
    refine acyclic_of_link (fun {m q} hm => ?_) hw.acyclic hpn hnot
    rw [parent_replaceChild hw.toLinked hmem hne hlt hpn] at hm
    split at hm
    · next heq => exact Or.inr ⟨heq, (Option.some.inj hm).symm⟩
    · split at hm
      · cases hm
      · exact Or.inl hm

end ReplaceChild

namespace WellLinked

variable (hw : t.WellLinked)

include hw

/-- Replacing a child keeps links in order, also where there is no such child and
nothing is done. -/
theorem replaceChild {p old new : NodeId} (h : old ∈ t.children p → t.Attachable p new) :
    (t.replaceChild p old new).2.WellLinked := by
  by_cases hmem : old ∈ t.children p
  · by_cases hne : old = new
    · rw [← hne, replaceChild_self hmem]
      exact hw
    · obtain ⟨_, hlt, hpn, hnot⟩ := h hmem
      exact wellLinked_replaceChild hmem hne hlt hpn hw hnot
  · rw [replaceChild_of_not_mem hmem]
    exact hw

theorem replaceWith {n new : NodeId} (h : ∀ p, t.parent n = some p → t.Attachable p new) :
    (t.replaceWith n new).2.WellLinked := by
  rw [Tree.replaceWith]
  split
  · next p hp => exact hw.replaceChild fun _ => h p hp
  · exact hw

end WellLinked

/-! ## Copying -/

/-- A top that was planted may take another as its child. -/
theorem Planted.addChild {p c : NodeId} (h : Planted t t' [p, c]) :
    Planted t (t'.addChild p c) [p] := by
  have hne : p ≠ c := fun heq => by
    have hnodup := h.nodup
    rw [heq] at hnodup
    simp at hnodup
  have hp : p ∈ [p, c] := List.mem_cons_self
  have hc : c ∈ [p, c] := List.mem_cons_of_mem _ (List.mem_singleton.2 rfl)
  have htop := h.top p hp
  refine ⟨?_, ?_, fun m hm => ?_, ?_, ?_, ?_, List.nodup_singleton p⟩
  · exact (Attachable.of_top (h.lt p hp) (h.lt c hc) hne htop).wellLinked_addChild h.wellLinked
  · rw [size_addChild]
    exact h.size_le
  · have hmp : m ≠ p := fun heq => absurd (h.new p hp) (by rw [← heq]; exact Nat.not_le.2 hm)
    have hmc : m ≠ c := fun heq => absurd (h.new c hc) (by rw [← heq]; exact Nat.not_le.2 hm)
    rw [node_addChild (h.lt p hp) (h.lt c hc) (h.top c hc) hne, if_neg hmp, if_neg hmc]
    exact h.frame m hm
  · exact List.forall_mem_singleton.2 (h.new p hp)
  · rw [size_addChild]
    exact List.forall_mem_singleton.2 (h.lt p hp)
  · refine List.forall_mem_singleton.2 ?_
    rw [parent_addChild (h.lt p hp) (h.lt c hc) (h.top c hc) hne, if_neg hne]
    exact htop

mutual

/-- A copy is a top, made of new nodes only. -/
theorem graft_planted (s : Subtree) {t : Tree} (hw : t.WellLinked) :
    Planted t (t.graft s).2 [(t.graft s).1] := by
  match s with
  | .node _ kind region children =>
      rw [graft]
      exact graftAll_planted children (.newNode hw kind region)

theorem graftAll_planted (ss : List Subtree) {t t' : Tree} {p : NodeId} (h : Planted t t' [p]) :
    Planted t (t'.graftAll p ss) [p] := by
  match ss with
  | [] => exact h
  | s :: more =>
      rw [graftAll]
      exact graftAll_planted more (h.trans (graft_planted s h.wellLinked)).addChild

end

theorem copy_planted (hw : t.WellLinked) (n : NodeId) (deep : Bool) :
    Planted t (t.copy n deep).2 [(t.copy n deep).1] := by
  rw [copy]
  split
  · exact graft_planted _ hw
  · exact .newNode hw _ _

/-! ## Any number of edits -/

/-- What can be done to a tree without putting a node below itself. -/
inductive Edit : Tree → Tree → Prop
  | newNode {t : Tree} (kind : NodeKind) (region : Region) : Edit t (t.newNode kind region).2
  | addChild {t : Tree} {p c : NodeId} (h : t.Attachable p c) : Edit t (t.addChild p c)
  | replaceChild {t : Tree} {p old new : NodeId} (h : old ∈ t.children p → t.Attachable p new) :
      Edit t (t.replaceChild p old new).2
  | replaceWith {t : Tree} {n new : NodeId} (h : ∀ p, t.parent n = some p → t.Attachable p new) :
      Edit t (t.replaceWith n new).2
  | copy {t : Tree} {n : NodeId} (h : n.index < t.size) (deep : Bool) : Edit t (t.copy n deep).2

theorem Edit.wellLinked (h : Edit t t') (hw : t.WellLinked) : t'.WellLinked := by
  cases h with
  | newNode kind region => exact hw.newNode kind region
  | addChild h => exact h.wellLinked_addChild hw
  | replaceChild h => exact hw.replaceChild h
  | replaceWith h => exact hw.replaceWith h
  | copy _ deep => exact (copy_planted hw _ deep).wellLinked

theorem wellLinked_of_edits (h : Relation.ReflTransGen Edit empty t) : t.WellLinked := by
  induction h with
  | refl => exact empty_wellLinked
  | tail _ hedit ih => exact hedit.wellLinked ih

/-- The node so many steps above a node, if there is one. -/
def above (t : Tree) : Nat → NodeId → Option NodeId
  | 0, n => some n
  | steps + 1, n => (t.parent n).bind (t.above steps)

namespace WellLinked

variable (hw : t.WellLinked)

include hw

theorem rank_lt_size {n : NodeId} (hn : n.index < t.size) : t.rank n < t.size := by
  classical
  have h := Finset.card_lt_univ_of_notMem (x := (⟨n.index, hn⟩ : Fin t.size))
    (s := Finset.univ.filter fun m : Fin t.size => t.IsBelow ⟨m⟩ n)
    fun hmem => hw.acyclic n (Finset.mem_filter.1 hmem).2
  rwa [Fintype.card_fin] at h

theorem above_eq_none {steps : Nat} : ∀ {n : NodeId}, n.index < t.size →
    t.size ≤ t.rank n + steps → t.above steps n = none := by
  induction steps with
  | zero =>
      intro n hn hle
      have := hw.rank_lt_size hn
      omega
  | succ steps ih =>
      intro n hn hle
      rw [above]
      cases hp : t.parent n with
      | none => rfl
      | some p =>
          have hmem := hw.child_of_parent hp
          have := hw.rank_child_lt hmem
          exact ih (index_lt_of_mem_children hmem) (by omega)

end WellLinked

/-- Whatever was done to a tree from the empty one on, its links are in order: a
node knows its parent just if that has it for a child, it is in one list of
children at most and there once, and the way up from it ends. -/
theorem links_of_edits (h : Relation.ReflTransGen Edit empty t) :
    (∀ p c, t.parent c = some p ↔ c ∈ t.children p) ∧
    (∀ p, (t.children p).Nodup) ∧
    (∀ p q c, c ∈ t.children p → c ∈ t.children q → p = q) ∧
    ∀ n, n.index < t.size → t.above t.size n = none := by
  have hw := wellLinked_of_edits h
  refine ⟨fun p c => ⟨hw.child_of_parent, hw.parent_of_child⟩, hw.nodup, fun p q c hp hq => ?_,
    fun n hn => hw.above_eq_none hn (Nat.le_add_left _ _)⟩
  exact Option.some.inj ((hw.parent_of_child hp).symm.trans (hw.parent_of_child hq))

/-- A child is added again where it is, a node is replaced by the one beside it,
then by the one below it, and that by one from below another top. -/
theorem links_of_edits_moves :
    ∃ t, Relation.ReflTransGen Edit empty t ∧ t.size = 6 ∧ t.children root = [⟨3⟩] ∧
      t.children ⟨1⟩ = [] ∧ t.parent ⟨2⟩ = none ∧
      (∀ p c, t.parent c = some p ↔ c ∈ t.children p) ∧
      (∀ p, (t.children p).Nodup) ∧
      (∀ p q c, c ∈ t.children p → c ∈ t.children q → p = q) ∧
      ∀ n, n.index < t.size → t.above t.size n = none := by
  have hnew : Relation.ReflTransGen Edit empty _ :=
    ((Relation.ReflTransGen.refl.tail (.newNode .statement Region.origin)).tail
      (.newNode .expression Region.origin)).tail (.newNode .statement Region.origin)
  have hadd := ((hnew.tail
    (.addChild (p := ⟨1⟩) (c := ⟨2⟩) (.of_top (by decide) (by decide) (by decide) rfl))).tail
    (.addChild (p := root) (c := ⟨1⟩) (.of_top (by decide) (by decide) (by decide) rfl))).tail
    (.addChild (p := root) (c := ⟨3⟩) (.of_top (by decide) (by decide) (by decide) rfl))
  have hagain := hadd.tail
    (.addChild (p := root) (c := ⟨1⟩) (.of_top (by decide) (by decide) (by decide) rfl))
  have hbeside := hagain.tail (@Edit.replaceChild _ root ⟨3⟩ ⟨1⟩ fun _ =>
    .of_top (by decide) (by decide) (by decide) rfl)
  have hbelow := hbeside.tail (@Edit.replaceWith _ ⟨1⟩ ⟨2⟩ fun p hp => by
    obtain rfl : root = p := Option.some.inj hp
    exact .of_top (by decide) (by decide) (by decide) rfl)
  have hother := (hbelow.tail
    (.addChild (p := ⟨1⟩) (c := ⟨3⟩) (.of_top (by decide) (by decide) (by decide) rfl))).tail
    (@Edit.replaceWith _ ⟨2⟩ ⟨3⟩ fun p hp => by
      obtain rfl : root = p := Option.some.inj hp
      exact .of_top (by decide) (by decide) (by decide) rfl)
  have hrun := hother.tail (.copy (n := root) (by decide) true)
  exact ⟨_, hrun, by decide, by decide, by decide, by decide, links_of_edits hrun⟩

end Lindenmayer.Tree
