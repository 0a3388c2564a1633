import Lindenmayer.Proofs.Editing

/-!
# What an exchange of a child changes

When a node takes the place of a child it leaves its own place first, and that may be beside
the child, below it, or somewhere else altogether. Between looking whether the child is there
and looking where it is, the very list that is edited may have got shorter. `Exchanged` says
what comes of it, node by node and for all of these cases: one entry is gone where the new
child was, the entry of the old one is overwritten, two nodes have another parent, and nothing
else is different. That the links agree is all it takes. They may lead in a circle before the
exchange, and after it.

The list of the parent is given by `List.erase` and `List.replace`, which act on the first
occurrence. There is no other one, and that is why they agree with the filter and the map by
which the list is edited.
-/

namespace Lindenmayer.Tree

variable {t t' : Tree} {p old new : NodeId}

/-- What becomes of a tree when a node takes the place of a child. -/
structure Exchanged (t : Tree) (p old new : NodeId) (t' : Tree) : Prop where
  size : t'.size = t.size
  scopes : t'.scopes = t.scopes
  kind : ∀ m, t'.kind m = t.kind m
  region : ∀ m, t'.region m = t.region m
  children_upper : t'.children p = ((t.children p).erase new).replace old new
  /-- Where the new child was it is missing, and nothing else is. -/
  children_left : ∀ q, t.parent new = some q → q ≠ p →
    new ∈ t.children q ∧ t'.children q = (t.children q).erase new
  children_other : ∀ m, m ≠ p → t.parent new ≠ some m → t'.children m = t.children m
  parent_new : t'.parent new = some p
  parent_old : t'.parent old = none
  parent_other : ∀ m, m ≠ new → m ≠ old → t'.parent m = t.parent m

theorem substitute_eq_replace {cs : List NodeId} (h : cs.Nodup) :
    substitute old new cs = cs.replace old new := by
  induction cs with
  | nil => rfl
  | cons c cs ih =>
      obtain ⟨hc, hcs⟩ := List.nodup_cons.1 h
      by_cases hold : c = old
      · subst hold
        rw [List.replace_cons_self, substitute, List.map_cons, if_pos rfl]
        exact congrArg (new :: ·) (substitute_of_not_mem hc)
      · rw [List.replace_cons, beq_false_of_ne (Ne.symm hold), ← ih hcs, substitute,
          List.map_cons, if_neg hold]
        rfl

theorem fst_replaceChild (hmem : old ∈ t.children p) (hne : old ≠ new) :
    (t.replaceChild p old new).1 = true := by
  rw [replaceChild, if_neg, if_neg hne]
  rw [List.contains_iff_mem.2 hmem]
  exact Bool.false_ne_true

section Exchange

variable (hl : t.Linked) (hmem : old ∈ t.children p) (hne : old ≠ new)
  (hlt : new.index < t.size) (hpn : p ≠ new)

include hl hmem hne hlt hpn

theorem children_replaceChild (m : NodeId) : (t.replaceChild p old new).2.children m =
    ((t.children m).erase new).replace old new := by
  rw [children, node_replaceChild hl hmem hne hlt hpn, (hl.nodup m).erase_eq_filter,
    substitute_eq_replace ((hl.nodup m).filter _)]

/-- A list that the old child is not in only loses the new one. -/
theorem children_replaceChild_of_ne {m : NodeId} (hm : m ≠ p) :
    (t.replaceChild p old new).2.children m = (t.children m).erase new := by
  have hnot : old ∉ (t.children m).erase new := fun h => hm (Option.some.inj
    ((hl.parent_of_child (List.mem_of_mem_erase h)).symm.trans (hl.parent_of_child hmem)))
  rw [children_replaceChild hl hmem hne hlt hpn, List.replace_of_not_mem hnot]

theorem exchanged_replaceChild : Exchanged t p old new (t.replaceChild p old new).2 := by
  have hnode := node_replaceChild hl hmem hne hlt hpn
  have hparent := parent_replaceChild hl hmem hne hlt hpn
  refine ⟨size_replaceChild p old new, scopes_replaceChild p old new, fun m => ?_, fun m => ?_,
    children_replaceChild hl hmem hne hlt hpn p, fun q hq hqp => ⟨hl.child_of_parent hq, ?_⟩,
    fun m hm hother => ?_, ?_, ?_, fun m hmn hmo => ?_⟩
  · rw [kind, hnode]
    rfl
  · rw [region, hnode]
    rfl
  · exact children_replaceChild_of_ne hl hmem hne hlt hpn hqp
  · rw [children_replaceChild_of_ne hl hmem hne hlt hpn hm]
    exact List.erase_of_not_mem fun h => hother (hl.parent_of_child h)
  · rw [hparent, if_pos rfl]
  · rw [hparent, if_neg hne, if_pos rfl]
  · rw [hparent, if_neg hmn, if_neg hmo]

end Exchange

/-- Where links agree, to replace a child is to answer that it is not there, and do nothing; or
to do nothing because it is the new child already; or to exchange the two, wherever the new one
was before. To replace a node in its place is to replace it in its parent. -/
theorem replaceChild_exact (hl : t.Linked) (hlt : new.index < t.size) (hpn : p ≠ new) :
    (t.replaceChild p old new = (false, t) ↔ old ∉ t.children p) ∧
    (old ∈ t.children p → new = old → t.replaceChild p old new = (true, t)) ∧
    (old ∈ t.children p → new ≠ old →
      ∃ t', t.replaceChild p old new = (true, t') ∧ Exchanged t p old new t') ∧
    (t.parent old = some p →
      old ∈ t.children p ∧ t.replaceWith old new = t.replaceChild p old new) ∧
    (t.parent old = none → t.replaceWith old new = (false, t)) := by
  have hself : old ∈ t.children p → new = old → t.replaceChild p old new = (true, t) := by
    rintro hmem rfl
    exact replaceChild_self hmem
  have hexchange : old ∈ t.children p → new ≠ old →
      ∃ t', t.replaceChild p old new = (true, t') ∧ Exchanged t p old new t' := fun hmem hne =>
    ⟨_, Prod.ext (fst_replaceChild hmem hne.symm) rfl,
      exchanged_replaceChild hl hmem hne.symm hlt hpn⟩
  refine ⟨⟨fun hfalse hmem => ?_, replaceChild_of_not_mem⟩, hself, hexchange,
    fun hparent => ⟨hl.child_of_parent hparent, ?_⟩, fun hparent => ?_⟩
  · by_cases hne : new = old
    · rw [hself hmem hne] at hfalse
      cases hfalse
    · obtain ⟨t', ht', _⟩ := hexchange hmem hne
      rw [ht'] at hfalse
      cases hfalse
  · rw [replaceWith, hparent]
  · rw [replaceWith, hparent]

/-- The second of two statements is exchanged for the first, which makes the list shorter, and
for what is below it. -/
theorem replaceChild_exact_beside :
    ∃ t t' t'', t.WellLinked ∧ t.children root = [⟨1⟩, ⟨2⟩] ∧ t.children ⟨2⟩ = [⟨3⟩] ∧
      t.replaceChild root ⟨2⟩ ⟨1⟩ = (true, t') ∧ Exchanged t root ⟨2⟩ ⟨1⟩ t' ∧
      t'.children root = [⟨1⟩] ∧ t'.children ⟨2⟩ = [⟨3⟩] ∧
      t.replaceWith ⟨2⟩ ⟨3⟩ = (true, t'') ∧ Exchanged t root ⟨2⟩ ⟨3⟩ t'' ∧
      t''.children root = [⟨1⟩, ⟨3⟩] ∧ t''.children ⟨2⟩ = [] := by
  have hnew : Relation.ReflTransGen Edit empty _ :=
    ((Relation.ReflTransGen.refl.tail (.newNode .statement Region.origin)).tail
      (.newNode .statement Region.origin)).tail (.newNode .expression Region.origin)
  have hadd := ((hnew.tail
    (.addChild (p := ⟨2⟩) (c := ⟨3⟩) (.of_top (by decide) (by decide) (by decide) rfl))).tail
    (.addChild (p := root) (c := ⟨1⟩) (.of_top (by decide) (by decide) (by decide) rfl))).tail
    (.addChild (p := root) (c := ⟨2⟩) (.of_top (by decide) (by decide) (by decide) rfl))
  have hw := wellLinked_of_edits hadd
  obtain ⟨_, _, hbeside, _⟩ := @replaceChild_exact _ root ⟨2⟩ ⟨1⟩ hw.toLinked (by decide)
    (by decide)
  obtain ⟨_, _, hbelow, hwith, _⟩ := @replaceChild_exact _ root ⟨2⟩ ⟨3⟩ hw.toLinked (by decide)
    (by decide)
  obtain ⟨t', ht', hexchanged⟩ := hbeside (by decide) (by decide)
  obtain ⟨t'', ht'', hexchanged'⟩ := hbelow (by decide) (by decide)
  refine ⟨_, t', t'', hw, by decide, by decide, ht', hexchanged, ?_, ?_,
    (hwith (by decide)).2.trans ht'', hexchanged', ?_, ?_⟩
  · rw [hexchanged.children_upper]
    decide
  · rw [hexchanged.children_other ⟨2⟩ (by decide) (by decide)]
    decide
  · rw [hexchanged'.children_upper]
    decide
  · rw [(hexchanged'.children_left ⟨2⟩ (by decide) (by decide)).2]
    decide

end Lindenmayer.Tree
