import Lindenmayer.Proofs.Folding
import Lindenmayer.Proofs.Walks
import Mathlib.Data.List.Basic

/-!
# What a fold leaves

That folding keeps the meaning of a tree would also be true if it did nothing. What it does
can be said before it is done, from the values in the tree that is given: those operations and
identifiers that have a value are replaced, in the order in which they are visited, and the
first that can have none ends the fold. `Replaced` is the tree in which some nodes have been
replaced by their values. It leaves nothing open: each literal has the number that it gets by
being made at its turn, and each node that is older has its children, or what stands in for
them.

One visit takes such a tree to one with one more node replaced (`FoldedBy.replaceByValue`),
since neither the values nor the regions of the nodes change on the way, and the walk is the
visit of a list (`rewritePostOrder_eq`). After it whatever can still be reached is either a
literal or has no value, and so folding once more does nothing (`foldConstants_again`).
-/

namespace Lindenmayer

namespace Subtree

theorem coverAll_eq_foldl (region : Region) (ss : List Subtree) :
    coverAll region ss = (ss.map fullRegion).foldl Region.merge region := by
  induction ss generalizing region with
  | nil => rfl
  | cons s ss ih => exact ih _

end Subtree

namespace Tree

variable {t t' u : Tree} {ctx : Context} {rs : List NodeId} {n m : NodeId} {v : Value}

/-! ## What is to be folded -/

/-- The nodes among these that a fold asks for their value. -/
def foldables (t : Tree) (ns : List NodeId) : List NodeId :=
  ns.filter fun m => isFoldable (t.kind m)

/-- The nodes among these that have a value. -/
def valued (t : Tree) (ctx : Context) (ns : List NodeId) : List NodeId :=
  ns.filter fun m => (t.evaluate ctx m).toOption.isSome

/-- The error that a fold ends with at a node; a name that is unknown is none. -/
def failure (t : Tree) (ctx : Context) (n : NodeId) : Option EvalError :=
  match t.evaluate ctx n with
  | .ok _ => none
  | .error (.unknownIdentifier _) => none
  | .error e => some e

/-- What stands where a node stood, after some nodes were replaced in turn. -/
def standIn (t : Tree) (rs : List NodeId) (c : NodeId) : NodeId :=
  if c ∈ rs then ⟨t.size + rs.idxOf c⟩ else c

/-- Whether a tree is another one in which some nodes were replaced by their values, and
nothing else. A replaced node has no parent any more and keeps its children, or what stands in
for them; the literal has the place that the node had, if it had one, and covers the same. -/
structure Replaced (t : Tree) (ctx : Context) (rs : List NodeId) (t' : Tree) : Prop where
  scopes : t'.scopes = t.scopes
  size : t'.size = t.size + rs.length
  old : ∀ m, m.index < t.size → t'.node m =
    { t.node m with
      parent := if m ∈ rs then none else t.parent m
      children := (t.children m).map (t.standIn rs) }
  literal : ∀ r ∈ rs, ∃ v, t.evaluate ctx r = .ok v ∧
    t'.node (t.standIn rs r) = ⟨.ofValue v, t.fullRegion r, t.parent r, []⟩

theorem foldables_cons (m : NodeId) (ms : List NodeId) : t.foldables (m :: ms) =
    if isFoldable (t.kind m) then m :: t.foldables ms else t.foldables ms := List.filter_cons

theorem valued_cons (m : NodeId) (ms : List NodeId) : t.valued ctx (m :: ms) =
    if (t.evaluate ctx m).toOption.isSome then m :: t.valued ctx ms else t.valued ctx ms :=
  List.filter_cons

/-! ## Standing in -/

theorem standIn_of_mem {c : NodeId} (hc : c ∈ rs) : t.standIn rs c = ⟨t.size + rs.idxOf c⟩ :=
  if_pos hc

theorem standIn_of_not_mem {c : NodeId} (hc : c ∉ rs) : t.standIn rs c = c := if_neg hc

theorem standIn_append_self (hn : n ∉ rs) :
    t.standIn (rs ++ [n]) n = ⟨t.size + rs.length⟩ := by
  rw [standIn_of_mem (List.mem_append_right _ List.mem_cons_self),
    List.idxOf_append_of_notMem hn, List.idxOf_cons_self, Nat.add_zero]

theorem standIn_append_of_ne {c : NodeId} (hc : c ≠ n) :
    t.standIn (rs ++ [n]) c = t.standIn rs c := by
  by_cases hmem : c ∈ rs
  · rw [standIn_of_mem (List.mem_append_left _ hmem), standIn_of_mem hmem,
      List.idxOf_append_of_mem hmem]
  · rw [standIn_of_not_mem hmem, standIn_of_not_mem]
    rw [List.mem_append, List.mem_singleton]
    exact not_or.2 ⟨hmem, hc⟩

theorem standIn_nil (c : NodeId) : t.standIn [] c = c := standIn_of_not_mem List.not_mem_nil

/-- To replace one node more is to let another literal stand in for it. -/
theorem substitute_map_standIn {cs : List NodeId} (hn : n.index < t.size) (hnew : n ∉ rs) :
    substitute n ⟨t.size + rs.length⟩ (cs.map (t.standIn rs)) =
      cs.map (t.standIn (rs ++ [n])) := by
  rw [substitute, List.map_map]
  refine List.map_congr_left fun c _ => ?_
  show (if t.standIn rs c = n then ⟨t.size + rs.length⟩ else t.standIn rs c) = _
  by_cases hcn : c = n
  · rw [hcn, standIn_of_not_mem hnew, if_pos rfl, standIn_append_self hnew]
  · rw [standIn_append_of_ne hcn, if_neg]
    by_cases hmem : c ∈ rs
    · rw [standIn_of_mem hmem]
      intro heq
      have hindex : t.size + rs.idxOf c = n.index := congrArg NodeId.index heq
      omega
    · rw [standIn_of_not_mem hmem]
      exact hcn

namespace Replaced

theorem refl : Replaced t ctx [] t where
  scopes := rfl
  size := rfl
  old m _ := by
    rw [List.map_congr_left fun c _ => standIn_nil c, List.map_id']
    rfl
  literal _ hr := nomatch hr

/-- What has been made on the way are literals. -/
theorem of_fresh (h : Replaced t ctx rs t') (hnodup : rs.Nodup) (hm : t.size ≤ m.index) :
    t'.children m = [] ∧ isFoldable (t'.kind m) = false := by
  by_cases hlt : m.index < t'.size
  · have hi : m.index - t.size < rs.length := by
      have := h.size
      omega
    obtain ⟨v, _, hnode⟩ := h.literal _ (List.getElem_mem hi)
    rw [standIn_of_mem (List.getElem_mem hi), hnodup.idxOf_getElem _ hi,
      show (⟨t.size + (m.index - t.size)⟩ : NodeId) = m from
        NodeId.ext (Nat.add_sub_cancel' hm)] at hnode
    rw [children, kind, hnode]
    exact ⟨rfl, by cases v <;> rfl⟩
  · rw [children, kind, node_of_size_le (Nat.le_of_not_lt hlt)]
    exact ⟨rfl, rfl⟩

/-- Nodes stand for what they stood for, as far as a fold looks at them. -/
theorem isFoldable_kind (h : Replaced t ctx rs t') (hnodup : rs.Nodup) (m : NodeId) :
    isFoldable (t'.kind m) = isFoldable (t.kind m) := by
  rcases Nat.lt_or_ge m.index t.size with hm | hm
  · rw [kind, h.old m hm]
    rfl
  · rw [(h.of_fresh hnodup hm).2, kind, node_of_size_le hm]
    rfl

end Replaced

/-! ## Replacing a node by its value -/

theorem fullRegion_eq (hw : t.WellLinked) (n : NodeId) :
    t.fullRegion n = ((t.children n).map t.fullRegion).foldl Region.merge (t.region n) := by
  rw [fullRegion, hw.subtree_eq, Subtree.fullRegion, Subtree.coverAll_eq_foldl, List.map_map]
  rfl

/-- A node may be replaced by its value as far as regions go. -/
theorem fullRegion_replaceByValue (hw : t.WellLinked) (hn : n.index < t.size) (v : Value)
    (m : NodeId) : m.index < t.size →
      (t.replaceByValue n v).2.fullRegion m = t.fullRegion m := by
  have hw' := wellLinked_replaceByValue hw n v
  have hliteral : (t.replaceByValue n v).2.fullRegion ⟨t.size⟩ = t.fullRegion n := by
    rw [fullRegion_eq hw', children, region, node_replaceByValue hw hn, if_pos rfl]
    rfl
  induction m using hw.induction with
  | step m ih =>
      intro hm
      have hne : m ≠ ⟨t.size⟩ := fun h => absurd hm (by rw [h]; exact Nat.lt_irrefl _)
      have hregion : (t.replaceByValue n v).2.region m = t.region m := by
        rw [region, node_replaceByValue hw hn, if_neg hne]
        rfl
      rw [fullRegion_eq hw', fullRegion_eq hw, hregion, children_replaceByValue hw hn,
        map_substitute hliteral fun c hc => ih c hc (hw.child_lt hc)]

/-- A node is replaced if it has a place. -/
theorem fst_replaceByValue (hw : t.WellLinked) (hn : n.index < t.size) (v : Value) :
    (t.replaceByValue n v).1 = (t.parent n).isSome := by
  rw [replaceByValue_eq, replaceWith, parent_newNode]
  cases hp : t.parent n with
  | none => rfl
  | some p =>
      have hfresh : n ≠ ⟨t.size⟩ := fun h => absurd hn (by rw [h]; exact Nat.lt_irrefl _)
      have hcontains : ¬ (!((t.newNode (.ofValue v) (t.fullRegion n)).2.children p).contains n) =
          true := by
        rw [children_newNode, List.contains_iff_mem.2 (hw.child_of_parent hp)]
        exact Bool.false_ne_true
      dsimp only
      rw [replaceChild, if_neg hcontains, if_neg hfresh]
      rfl

namespace Replaced

section OneMore

variable (h : Replaced t ctx rs u) (hw : u.WellLinked) (hn : n.index < t.size) (hnew : n ∉ rs)
include h

theorem size_le : t.size ≤ u.size := by
  rw [h.size]
  exact Nat.le_add_right _ _

theorem fresh_eq : (⟨u.size⟩ : NodeId) = ⟨t.size + rs.length⟩ := NodeId.ext h.size

theorem parent_eq (hm : m.index < t.size) :
    u.parent m = if m ∈ rs then none else t.parent m := congrArg Node.parent (h.old m hm)

theorem children_eq (hm : m.index < t.size) : u.children m = (t.children m).map (t.standIn rs) :=
  congrArg Node.children (h.old m hm)

/-- What has not been replaced is where it was. -/
theorem parent_of_not_mem (hm : m.index < t.size) (hnot : m ∉ rs) : u.parent m = t.parent m := by
  rw [h.parent_eq hm, if_neg hnot]

include hw hn hnew

/-- The nodes that are older lose what is replaced, as a place and as a child. -/
theorem old_replaceByValue (v : Value) (hm : m.index < t.size) :
    (u.replaceByValue n v).2.node m =
      { t.node m with
        parent := if m ∈ rs ++ [n] then none else t.parent m
        children := (t.children m).map (t.standIn (rs ++ [n])) } := by
  have hfresh : m ≠ ⟨u.size⟩ := by
    rintro rfl
    exact absurd hm (Nat.not_lt.2 h.size_le)
  have hcut : (if m = n then none else if m ∈ rs then none else t.parent m) =
      if m ∈ rs ++ [n] then none else t.parent m := by
    by_cases hmn : m = n
    · rw [if_pos hmn, if_pos (List.mem_append_right _ (List.mem_singleton.2 hmn))]
    · have hmem : m ∈ rs ++ [n] ↔ m ∈ rs := by
        rw [List.mem_append, List.mem_singleton, or_iff_left hmn]
      rw [if_neg hmn]
      exact (if_congr hmem rfl rfl).symm
  rw [node_replaceByValue hw (Nat.lt_of_lt_of_le hn h.size_le) v, if_neg hfresh,
    h.parent_eq hm, h.children_eq hm, h.old m hm, h.fresh_eq, substitute_map_standIn hn hnew,
    hcut]

/-- The literals that stand in for others stay as they are. -/
theorem literal_replaceByValue (v : Value) {r : NodeId} (hr : r ∈ rs) :
    (u.replaceByValue n v).2.node (t.standIn (rs ++ [n]) r) = u.node (t.standIn rs r) := by
  have hrn : r ≠ n := fun heq => hnew (heq ▸ hr)
  have hindex := List.idxOf_lt_length_of_mem hr
  have hsize := h.size
  obtain ⟨w, _, hliteral⟩ := h.literal r hr
  have hfresh : t.standIn rs r ≠ ⟨u.size⟩ := by
    rw [standIn_of_mem hr]
    intro heq
    have : t.size + rs.idxOf r = u.size := congrArg NodeId.index heq
    omega
  have hother : t.standIn rs r ≠ n := by
    rw [standIn_of_mem hr]
    intro heq
    have : t.size + rs.idxOf r = n.index := congrArg NodeId.index heq
    omega
  rw [standIn_append_of_ne hrn, node_replaceByValue hw (Nat.lt_of_lt_of_le hn h.size_le) v,
    if_neg hfresh, if_neg hother, parent, children, hliteral]
  rfl

/-- One node more is replaced, if it still covers what it did. -/
theorem replaceByValue (hv : t.evaluate ctx n = .ok v) (hcover : u.fullRegion n = t.fullRegion n) :
    Replaced t ctx (rs ++ [n]) (u.replaceByValue n v).2 where
  scopes := by rw [scopes_replaceByValue, h.scopes]
  size := by
    rw [size_replaceByValue, h.size, List.length_append]
    rfl
  old m hm := h.old_replaceByValue hw hn hnew v hm
  literal r hr := by
    rcases List.mem_append.1 hr with hr | hr
    · obtain ⟨w, hvalue, hliteral⟩ := h.literal r hr
      exact ⟨w, hvalue, (h.literal_replaceByValue hw hn hnew v hr).trans hliteral⟩
    · obtain rfl := List.mem_singleton.1 hr
      refine ⟨v, hv, ?_⟩
      rw [standIn_append_self hnew, ← h.fresh_eq,
        node_replaceByValue hw (Nat.lt_of_lt_of_le hn h.size_le) v, if_pos rfl, hcover,
        h.parent_of_not_mem hn hnew]

end OneMore

end Replaced

section Visit

variable {count : Nat}

theorem foldNode_of_not_foldable (h : isFoldable (t.kind n) = false) :
    foldNode ctx n t count = (.ok .onward, t, count) := by
  rw [foldNode, h]
  rfl

/-- Where there is no value there is an error, or nothing changes. -/
theorem foldNode_of_error {e : EvalError} (h : isFoldable (t.kind n) = true)
    (he : t.evaluate ctx n = .error e) : foldNode ctx n t count =
      match t.failure ctx n with
      | none => (.ok .onward, t, count)
      | some e => (.error e, t, count) := by
  rw [foldNode, h, reduce, failure, he]
  cases e <;> rfl

/-- Where there is a value the node is replaced by it, and counted if it had a place. -/
theorem foldNode_of_value (hw : t.WellLinked) (h : isFoldable (t.kind n) = true)
    (hv : t.evaluate ctx n = .ok v) : foldNode ctx n t count =
      (.ok .onward, (t.replaceByValue n v).2, count + if (t.parent n).isSome then 1 else 0) := by
  rw [foldNode, h, reduce, hv, ← fst_replaceByValue hw (index_lt_of_isFoldable h) v]
  dsimp only [Bool.not_true]
  rcases t.replaceByValue n v with ⟨_ | _, t'⟩
  · rfl
  · rfl

end Visit

/-! ## The walk -/

/-- A tree on the way of a fold: some nodes were replaced, and the values and the regions of
the others are what they were. -/
structure FoldedBy (t : Tree) (ctx : Context) (rs : List NodeId) (u : Tree) : Prop where
  replaced : Replaced t ctx rs u
  nodup : rs.Nodup
  meaning : SameMeaning ctx t u
  covers : ∀ m, m.index < t.size → u.fullRegion m = t.fullRegion m

namespace FoldedBy

theorem refl (hw : t.WellLinked) : FoldedBy t ctx [] t :=
  ⟨.refl, List.nodup_nil, .refl hw, fun _ _ => rfl⟩

/-- One node more is replaced. -/
theorem replaceByValue (h : FoldedBy t ctx rs u) (hn : n.index < t.size) (hnew : n ∉ rs)
    (hv : t.evaluate ctx n = .ok v) : FoldedBy t ctx (rs ++ [n]) (u.replaceByValue n v).2 := by
  have hw := h.meaning.wellLinked
  have hnu : n.index < u.size := Nat.lt_of_lt_of_le hn h.meaning.size_le
  have hvu : u.evaluate ctx n = .ok v := (h.meaning.value n hn).trans hv
  refine ⟨h.replaced.replaceByValue hw hn hnew hv (h.covers n hn), ?_,
    h.meaning.trans (.replaceByValue hw hnu hvu), fun m hm => ?_⟩
  · exact List.nodup_append'.2
      ⟨h.nodup, List.nodup_singleton n, List.disjoint_singleton.2 hnew⟩
  · rw [fullRegion_replaceByValue hw hnu v m (Nat.lt_of_lt_of_le hm h.meaning.size_le),
      h.covers m hm]

/-- The visit of a list of nodes ends with the first error among them, or replaces all that
have a value. -/
theorem rewriteAll_foldNode {ms : List NodeId} (h : FoldedBy t ctx rs u) (hms : ms.Nodup)
    (hnew : ∀ m ∈ ms, m ∉ rs) (count : Nat) :
    match (t.foldables ms).findSome? (t.failure ctx) with
    | some e => (rewriteAll (foldNode ctx) ms u count).1 = .error e
    | none =>
        ∃ u', FoldedBy t ctx (rs ++ t.valued ctx (t.foldables ms)) u' ∧
          rewriteAll (foldNode ctx) ms u count = (.ok .onward, u', count +
            (t.valued ctx (t.foldables ms)).countP fun m => (t.parent m).isSome) := by
  induction ms generalizing rs u count with
  | nil =>
      refine ⟨u, ?_, rfl⟩
      rw [foldables, List.filter_nil, valued, List.filter_nil, List.append_nil]
      exact h
  | cons m ms ih =>
      obtain ⟨hm, hms⟩ := List.nodup_cons.1 hms
      have hnewRest : ∀ m' ∈ ms, m' ∉ rs := fun m' hm' => hnew m' (List.mem_cons_of_mem m hm')
      have hkind := h.replaced.isFoldable_kind h.nodup m
      rw [rewriteAll]
      cases hfoldable : isFoldable (t.kind m) with
      | false =>
          rw [foldNode_of_not_foldable (hkind.trans hfoldable), foldables_cons, hfoldable]
          exact ih h hms hnewRest count
      | true =>
          have hlt := index_lt_of_isFoldable hfoldable
          have hvalue := h.meaning.value m hlt
          rw [foldables_cons, hfoldable, if_pos rfl, List.findSome?_cons, valued_cons]
          cases hv : t.evaluate ctx m with
          | error e =>
              have hfailure : u.failure ctx m = t.failure ctx m := by
                rw [failure, failure, hvalue]
              rw [foldNode_of_error (hkind.trans hfoldable) (hvalue.trans hv), hfailure]
              cases t.failure ctx m with
              | none => exact ih h hms hnewRest count
              | some e => rfl
          | ok v =>
              have hparent : u.parent m = t.parent m :=
                h.replaced.parent_of_not_mem hlt (hnew m List.mem_cons_self)
              have hstep := h.replaceByValue hlt (hnew m List.mem_cons_self) hv
              have hrest := ih hstep hms (fun m' hm' => by
                rw [List.mem_append, List.mem_singleton]
                rintro (hold | rfl)
                · exact hnewRest m' hm' hold
                · exact hm hm') (count + if (t.parent m).isSome then 1 else 0)
              have hnone : t.failure ctx m = none := by rw [failure, hv]
              rw [foldNode_of_value h.meaning.wellLinked (hkind.trans hfoldable)
                (hvalue.trans hv), hparent, hnone, Except.toOption, Option.isSome_some,
                if_pos rfl, List.countP_cons, Nat.add_comm (List.countP _ _), ← Nat.add_assoc,
                List.append_cons]
              exact hrest

end FoldedBy

/-- What a tree on the way of a walk has in common with the tree before it, whatever was
replaced in it: links only lead to where they led before, or to literals. -/
structure Descends (t u : Tree) : Prop where
  wellLinked : u.WellLinked
  size_le : t.size ≤ u.size
  children : ∀ {q c}, c ∈ u.children q → c ∈ t.children q ∨ t.size ≤ c.index
  fresh : ∀ {m}, t.size ≤ m.index → isFoldable (u.kind m) = false

namespace Descends

theorem refl (hw : t.WellLinked) : Descends t t where
  wellLinked := hw
  size_le := Nat.le_refl _
  children hc := Or.inl hc
  fresh hm := by
    rw [kind, node_of_size_le hm]
    rfl

theorem replaceByValue (h : Descends t u) (hn : n.index < u.size) (v : Value) :
    Descends t (u.replaceByValue n v).2 where
  wellLinked := wellLinked_replaceByValue h.wellLinked n v
  size_le := by
    rw [size_replaceByValue]
    exact Nat.le_succ_of_le h.size_le
  children {q c} hc := by
    rw [children_replaceByValue h.wellLinked hn] at hc
    rcases mem_substitute.1 hc with ⟨rfl, _⟩ | ⟨hc, _⟩
    · exact Or.inr h.size_le
    · exact h.children hc
  fresh {m} hm := by
    rw [kind, node_replaceByValue h.wellLinked hn]
    split
    · cases v <;> rfl
    · exact h.fresh hm

end Descends

/-- Folding a node changes the children of its parent at most. -/
theorem local_foldNode : Local t (fun _ => True) (Descends t) (foldNode ctx) := by
  have hvisit : ∀ {m u} count, Descends t u →
      Descends t (foldNode ctx m u count).2.1 ∧ ∀ q, m ∉ t.children q →
        (foldNode ctx m u count).2.1.children q = u.children q := by
    intro m u count hu
    cases hfoldable : isFoldable (u.kind m) with
    | false =>
        rw [foldNode_of_not_foldable hfoldable]
        exact ⟨hu, fun _ _ => rfl⟩
    | true =>
        cases hv : u.evaluate ctx m with
        | error e =>
            rw [foldNode_of_error hfoldable hv]
            cases u.failure ctx m with
            | none => exact ⟨hu, fun _ _ => rfl⟩
            | some e => exact ⟨hu, fun _ _ => rfl⟩
        | ok v =>
            have hm := index_lt_of_isFoldable hfoldable
            rw [foldNode_of_value hu.wellLinked hfoldable hv]
            refine ⟨hu.replaceByValue hm v, fun q hq => ?_⟩
            rw [children_replaceByValue hu.wellLinked hm, substitute_of_not_mem]
            intro hmem
            rcases hu.children hmem with hmem | hfresh
            · exact hq hmem
            · rw [hu.fresh hfresh] at hfoldable
              cases hfoldable
  exact ⟨fun count _ hu => (hvisit count hu).1, fun count _ hu hq => (hvisit count hu).2 _ hq⟩

theorem foldConstants_eq (hw : t.WellLinked) (ctx : Context) (n : NodeId) :
    t.foldConstants ctx n =
      match rewriteAll (foldNode ctx) (t.subtree n).postorder t 0 with
      | (.ok _, u, count) => (.ok count, u)
      | (.error e, u, _) => (.error e, u) := by
  rw [foldConstants, rewritePostOrder_eq local_foldNode hw n (fun _ _ => trivial) (.refl hw)]
  rcases rewriteAll (foldNode ctx) (t.subtree n).postorder t 0 with ⟨e | flow, u, count⟩
  · rfl
  · rfl

/-! ## Folding once, and once more -/

/-- A fold ends with the first error, or replaces all that have a value. -/
theorem foldConstants_spec (hw : t.WellLinked) (ctx : Context) (n : NodeId) :
    match (t.foldables (t.subtree n).postorder).findSome? (t.failure ctx) with
    | some e => (t.foldConstants ctx n).1 = .error e
    | none =>
        ∃ u, FoldedBy t ctx (t.valued ctx (t.foldables (t.subtree n).postorder)) u ∧
          t.foldConstants ctx n =
            (.ok ((t.valued ctx (t.foldables (t.subtree n).postorder)).countP
              fun m => (t.parent m).isSome), u) := by
  have hstart : FoldedBy t ctx [] t := .refl hw
  have hwalk := hstart.rewriteAll_foldNode (nodup_postorder hw n) (fun _ _ => List.not_mem_nil) 0
  rw [foldConstants_eq hw]
  split at hwalk
  · generalize rewriteAll (foldNode ctx) (t.subtree n).postorder t 0 = answer at hwalk
    rcases answer with ⟨outcome, u, count⟩
    obtain rfl : outcome = _ := hwalk
    rfl
  · obtain ⟨u, hu, hrun⟩ := hwalk
    refine ⟨u, hu, ?_⟩
    rw [hrun, Nat.zero_add]

/-- The way up from a node that was there before is the one it was. -/
theorem FoldedBy.lineage_of_lineage (hw : t.WellLinked) (h : FoldedBy t ctx rs u)
    (hup : Relation.ReflTransGen (fun c p => u.parent c = some p) m n) :
    m.index < t.size → Relation.ReflTransGen (fun c p => t.parent c = some p) m n := by
  induction hup using Relation.ReflTransGen.head_induction_on with
  | refl => exact fun _ => .refl
  | @head c p hstep _ ih =>
      intro hc
      rw [h.replaced.parent_eq hc] at hstep
      split at hstep
      · cases hstep
      · exact .head hstep (ih (index_lt_of_mem_children (hw.child_of_parent hstep)))

/-- What might be folded after a fold might have been folded before. -/
theorem FoldedBy.mem_foldables (hw : t.WellLinked) (h : FoldedBy t ctx rs u)
    (hm : m ∈ u.foldables (u.subtree n).postorder) : m ∈ t.foldables (t.subtree n).postorder := by
  obtain ⟨hbelow, hfoldable⟩ := List.mem_filter.1 hm
  rw [h.replaced.isFoldable_kind h.nodup] at hfoldable
  have hup := (mem_postorder_iff h.meaning.wellLinked).1 hbelow
  exact List.mem_filter.2
    ⟨(mem_postorder_iff hw).2 (h.lineage_of_lineage hw hup (index_lt_of_isFoldable hfoldable)),
      hfoldable⟩

/-- After a fold that went well there is nothing left to fold. -/
theorem foldConstants_again (hw : t.WellLinked)
    (hnone : (t.foldables (t.subtree n).postorder).findSome? (t.failure ctx) = none)
    (h : FoldedBy t ctx (t.valued ctx (t.foldables (t.subtree n).postorder)) u) :
    (u.foldConstants ctx n).1 = .ok 0 ∧
      ∀ m, (u.foldConstants ctx n).2.children m = u.children m := by
  have hvalue : ∀ {m}, m ∈ u.foldables (u.subtree n).postorder →
      u.evaluate ctx m = t.evaluate ctx m := fun hm =>
    h.meaning.value _ (index_lt_of_isFoldable (List.mem_filter.1 (h.mem_foldables hw hm)).2)
  have hagain := foldConstants_spec h.meaning.wellLinked ctx n
  have hnone' : (u.foldables (u.subtree n).postorder).findSome? (u.failure ctx) = none := by
    refine List.findSome?_eq_none_iff.2 fun m hm => ?_
    rw [failure, hvalue hm]
    exact List.findSome?_eq_none_iff.1 hnone m (h.mem_foldables hw hm)
  -- What has a value was replaced, and so it has no place to be replaced in again.
  have hfree : ∀ m ∈ u.valued ctx (u.foldables (u.subtree n).postorder), u.parent m = none := by
    intro m hm
    obtain ⟨hm, hsome⟩ := List.mem_filter.1 hm
    have hold := h.mem_foldables hw hm
    rw [hvalue hm] at hsome
    rw [h.replaced.parent_eq (index_lt_of_isFoldable (List.mem_filter.1 hold).2)]
    exact if_pos (List.mem_filter.2 ⟨hold, hsome⟩)
  rw [hnone'] at hagain
  obtain ⟨u', hu', hrun⟩ := hagain
  rw [hrun]
  refine ⟨congrArg Except.ok (List.countP_eq_zero.2 fun m hm => ?_), fun m => ?_⟩
  · rw [hfree m hm]
    exact Bool.false_ne_true
  · rcases Nat.lt_or_ge m.index u.size with hm | hm
    · rw [hu'.replaced.children_eq hm]
      refine (List.map_congr_left fun c hc => standIn_of_not_mem fun hmem => ?_).trans
        (List.map_id' _)
      have hparent := h.meaning.wellLinked.parent_of_child hc
      rw [hfree c hmem] at hparent
      cases hparent
    · rw [(hu'.replaced.of_fresh hu'.nodup hm).1, children, node_of_size_le hm]
      rfl

/-- A fold fails if, and only if, one of the operations and identifiers at or below the node
has no value for another reason than that a name is unknown, and then with the error of the
first one in postorder. Otherwise it replaces all those that have a value, by literals in their
places, and nothing else; it answers how many have a place; and to fold again is to change
nothing. -/
theorem foldConstants_exact (hw : t.WellLinked) (ctx : Context) (n : NodeId) :
    (t.foldables (t.subtree n).postorder).Nodup ∧
    (∀ e, (t.foldConstants ctx n).1 = .error e ↔
      (t.foldables (t.subtree n).postorder).findSome? (t.failure ctx) = some e) ∧
    ((t.foldables (t.subtree n).postorder).findSome? (t.failure ctx) = none →
      (t.foldConstants ctx n).1 =
        .ok ((t.valued ctx (t.foldables (t.subtree n).postorder)).countP
          fun m => (t.parent m).isSome) ∧
      Replaced t ctx (t.valued ctx (t.foldables (t.subtree n).postorder))
        (t.foldConstants ctx n).2 ∧
      ((t.foldConstants ctx n).2.foldConstants ctx n).1 = .ok 0 ∧
      ∀ m, ((t.foldConstants ctx n).2.foldConstants ctx n).2.children m =
        (t.foldConstants ctx n).2.children m) := by
  have hspec := foldConstants_spec hw ctx n
  refine ⟨(nodup_postorder hw n).filter _, ?_⟩
  cases hfirst : (t.foldables (t.subtree n).postorder).findSome? (t.failure ctx) with
  | some e =>
      rw [hfirst] at hspec
      refine ⟨fun e' => ?_, nofun⟩
      rw [hspec, Except.error.injEq, Option.some.injEq]
  | none =>
      rw [hfirst] at hspec
      obtain ⟨u, hu, hrun⟩ := hspec
      rw [hrun]
      exact ⟨fun _ => ⟨nofun, nofun⟩,
        fun _ => ⟨rfl, hu.replaced, foldConstants_again hw hfirst hu⟩⟩

/-- The sum has been replaced in the product when this is replaced in the difference. -/
theorem foldConstants_exact_nested :
    ∃ t, ofSource "(1 + 2) * 3 - x" = .ok t ∧ t.WellLinked ∧
      (t.foldables (t.subtree root).postorder).findSome? (t.failure .empty) = none ∧
      (t.foldConstants .empty root).1 = .ok 2 ∧
      Replaced t .empty [⟨3⟩, ⟨5⟩] (t.foldConstants .empty root).2 ∧
      ((t.foldConstants .empty root).2.foldConstants .empty root).1 = .ok 0 := by
  have hcheck : (ofSource "(1 + 2) * 3 - x").toOption.any (fun t =>
      (t.foldables (t.subtree root).postorder).findSome? (t.failure .empty) = none ∧
      t.valued .empty (t.foldables (t.subtree root).postorder) = [⟨3⟩, ⟨5⟩] ∧
      [⟨3⟩, ⟨5⟩].countP (fun m => (t.parent m).isSome) = 2) = true := by decide +kernel
  obtain ⟨t, ht, hfacts⟩ := exists_of_checked hcheck
  obtain ⟨hnone, hvalued, hcount⟩ := of_decide_eq_true hfacts
  have hw := wellLinked_of_ofSource ht
  obtain ⟨hfold, hreplaced, hagain, _⟩ := (foldConstants_exact hw .empty root).2.2 hnone
  rw [hvalued, hcount] at hfold
  rw [hvalued] at hreplaced
  exact ⟨t, ht, hw, hnone, hfold, hreplaced, hagain⟩

end Tree

end Lindenmayer
