import Lindenmayer.Proofs.Drawing
import Lindenmayer.Proofs.Traversal

/-!
# Which nodes a walk that only reads shows to its visitor

A visitor that notes its calls (`Subtree.noting`) is shown what the visitor itself is shown, so its
notes tell what a walk does. `Called` says when notes and outcome belong to a list of nodes: the
visitor was called on these nodes in turn, up to and with the first at which it stopped, each time
with the state that it had left behind, and what it left behind last is what the walk comes to.
Stops and skips are read off the notes and not off the visitor, since its answer at a node may
hang on everything it saw before.

For a walk in postorder the list is the postorder. For a walk in order it hangs on the notes as
well: it is the preorder without the nodes below one that was answered with a skip
(`Tree.unskipped`). The skips are guessed as in `Subtree.visitInOrder_of_skipsAt`, and the guess
is right because no node comes twice: what the notes say of a node they say of its only call. A
search is a walk in order that never skips.
-/

namespace Lindenmayer

variable {σ τ : Type}

namespace Subtree

variable {visit : NodeId → σ → Flow × σ} {state state' : σ}

/-- The note of a call: the node that a visitor was given and what it answered. -/
structure Note where
  node : NodeId
  answer : Flow
  deriving DecidableEq, Repr

/-- A visitor that notes its calls. -/
def noting (visit : NodeId → σ → Flow × σ) (n : NodeId) : σ × List Note → Flow × σ × List Note :=
  fun (state, calls) =>
    let (answer, state) := visit n state
    (answer, state, calls ++ [⟨n, answer⟩])

/-- The calls of a walk that visits parents before children. -/
def callsInOrder (visit : NodeId → σ → Flow × σ) (s : Subtree) (state : σ) : List Note :=
  (s.visitInOrder (noting visit) (state, [])).2.2

/-- The calls of a walk that visits children before parents. -/
def callsPostOrder (visit : NodeId → σ → Flow × σ) (s : Subtree) (state : σ) : List Note :=
  (s.visitPostOrder (noting visit) (state, [])).2.2

/-- Whether calls are those of a visitor that was called on some nodes in turn, as far as it did
not stop, and what that comes to. -/
structure Called (visit : NodeId → σ → Flow × σ) (state : σ) (ms : List NodeId)
    (calls : List Note) (outcome : Bool × σ) : Prop where
  /-- The nodes are cut off behind the first one that was answered with a stop. -/
  nodes : calls.map Note.node = ms.take (ms.findIdx (fun m => (⟨m, .stop⟩ : Note) ∈ calls) + 1)
  /-- Each answer is given in the state that the one before it left behind. -/
  answers : ((calls.map Note.node).mapM (m := StateM σ) visit).run state =
    (calls.map Note.answer, outcome.2)
  stopped : outcome.1 = true ↔ ∃ m, ⟨m, .stop⟩ ∈ calls

/-- Calls in turn, one call opened. -/
theorem run_mapM_cons (m : NodeId) (ms : List NodeId) (state : σ) :
    ((m :: ms).mapM (m := StateM σ) visit).run state =
      let (answers, state') := (ms.mapM (m := StateM σ) visit).run (visit m state).2
      ((visit m state).1 :: answers, state') := by
  rw [List.mapM_cons]
  rfl

namespace Called

variable {m : NodeId} {ms : List NodeId} {calls : List Note} {outcome : Bool × σ}

theorem nil : Called visit state [] [] (false, state) where
  nodes := rfl
  answers := rfl
  stopped := by simp

theorem stops (hcall : visit m state = (.stop, state')) :
    Called visit state (m :: ms) [⟨m, .stop⟩] (true, state') where
  nodes := by
    rw [List.findIdx_cons, decide_eq_true List.mem_cons_self]
    rfl
  answers := by
    rw [List.map_singleton, run_mapM_cons, hcall]
    rfl
  stopped := ⟨fun _ => ⟨m, List.mem_cons_self⟩, fun _ => rfl⟩

theorem subset (h : Called visit state ms calls outcome) : calls.map Note.node ⊆ ms := by
  rw [h.nodes]
  exact List.take_subset _ _

theorem nodup (h : Called visit state ms calls outcome) (hnodup : ms.Nodup) :
    (calls.map Note.node).Nodup := by
  rw [h.nodes]
  exact (List.take_sublist _ _).nodup hnodup

theorem goesOn {flow : Flow} (hcall : visit m state = (flow, state')) (hflow : flow ≠ .stop)
    (hm : m ∉ ms) (h : Called visit state' ms calls outcome) :
    Called visit state (m :: ms) (⟨m, flow⟩ :: calls) outcome := by
  have hstop : ∀ x, (⟨x, .stop⟩ : Note) ∈ ⟨m, flow⟩ :: calls ↔ ⟨x, .stop⟩ ∈ calls := fun x =>
    List.mem_cons.trans (or_iff_right fun heq => hflow (congrArg Note.answer heq).symm)
  have hfirst : (⟨m, .stop⟩ : Note) ∉ calls := fun hmem =>
    hm (h.subset (List.mem_map_of_mem hmem))
  refine ⟨?_, ?_, ?_⟩
  · simp only [hstop]
    rw [List.findIdx_cons, decide_eq_false hfirst, cond_false, List.take_succ_cons, ← h.nodes]
    rfl
  · rw [List.map_cons, run_mapM_cons, hcall, h.answers]
    rfl
  · simp only [hstop]
    exact h.stopped

end Called

/-- Of nodes none of which comes twice, the calls that are noted are those on all of them, as far
as no call stops. -/
theorem called_visitEach (visit : NodeId → σ → Flow × σ) {ms : List NodeId} (hnodup : ms.Nodup)
    (state : σ) (before : List Note) : ∃ calls,
      (visitEach (noting visit) ms (state, before)).2.2 = before ++ calls ∧
      Called visit state ms calls (visitEach visit ms state) := by
  induction ms generalizing state before with
  | nil => exact ⟨[], (List.append_nil _).symm, .nil⟩
  | cons m ms ih =>
      obtain ⟨hm, hnodup⟩ := List.nodup_cons.1 hnodup
      rcases hcall : visit m state with ⟨flow, state'⟩
      obtain ⟨calls, hcalls, hcalled⟩ := ih hnodup state' (before ++ [⟨m, flow⟩])
      rw [List.append_assoc, List.singleton_append] at hcalls
      rw [visitEach, visitEach, noting, hcall]
      cases flow with
      | stop => exact ⟨[⟨m, .stop⟩], rfl, .stops hcall⟩
      | onward => exact ⟨_, hcalls, hcalled.goesOn hcall (by decide) hm⟩
      | skipChildren => exact ⟨_, hcalls, hcalled.goesOn hcall (by decide) hm⟩

/-! ## Walks with and without notes -/

/-- Noting the calls changes nothing but the notes. -/
theorem visitEach_noting (visit : NodeId → σ → Flow × σ) (ms : List NodeId) (state : σ)
    (before : List Note) : visitEach visit ms state =
      ((visitEach (noting visit) ms (state, before)).1,
        (visitEach (noting visit) ms (state, before)).2.1) :=
  visitEach_part Prod.fst (fun _ _ => rfl) ms (state, before)

/-- A walk in postorder calls its visitor on the postorder, and a skip is nothing to it. -/
theorem called_postorder {s : Subtree} (hnodup : s.postorder.Nodup) (state : σ) :
    Called visit state s.postorder (s.callsPostOrder visit state)
      (s.visitPostOrder visit state) := by
  obtain ⟨calls, hcalls, hcalled⟩ := called_visitEach visit hnodup state []
  rw [callsPostOrder, visitPostOrder_eq, visitPostOrder_eq, hcalls]
  exact hcalled

mutual

/-- Whatever a visitor answers, a walk in order visits some nodes of the preorder in turn, and it
visits the same ones if the visits are noted. -/
theorem exists_sublist_preorder (visit : NodeId → σ → Flow × σ) (s : Subtree) (state : σ)
    (before : List Note) : ∃ ms, ms.Sublist s.preorder ∧
      s.visitInOrder visit state = visitEach visit ms state ∧
      s.visitInOrder (noting visit) (state, before) =
        visitEach (noting visit) ms (state, before) := by
  match s with
  | node id _ _ children =>
      have hself : [id].Sublist (id :: preorderAll children) :=
        List.singleton_sublist.2 List.mem_cons_self
      rw [visitInOrder, visitInOrder, preorder, noting]
      rcases hcall : visit id state with ⟨flow, state'⟩
      cases flow with
      | stop | skipChildren =>
          refine ⟨[id], hself, ?_⟩
          rw [visitEach, visitEach, noting, hcall]
          exact ⟨rfl, rfl⟩
      | onward =>
          obtain ⟨ms, hsub, hms⟩ :=
            exists_sublist_preorderAll visit children state' (before ++ [⟨id, .onward⟩])
          refine ⟨id :: ms, hsub.cons_cons id, ?_⟩
          rw [visitEach, visitEach, noting, hcall]
          exact hms

theorem exists_sublist_preorderAll (visit : NodeId → σ → Flow × σ) (ss : List Subtree)
    (state : σ) (before : List Note) : ∃ ms, ms.Sublist (preorderAll ss) ∧
      visitAllInOrder visit ss state = visitEach visit ms state ∧
      visitAllInOrder (noting visit) ss (state, before) =
        visitEach (noting visit) ms (state, before) := by
  match ss with
  | [] => exact ⟨[], .slnil, rfl, rfl⟩
  | s :: more =>
      obtain ⟨ms, hsub, hplain, hnoted⟩ := exists_sublist_preorder visit s state before
      have hnoting := visitEach_noting visit ms state before
      rw [visitAllInOrder, visitAllInOrder, preorderAll, hplain, hnoted, hnoting]
      rcases hfirst : visitEach (noting visit) ms (state, before) with ⟨stopped, state', before'⟩
      rw [hfirst] at hnoting
      cases stopped with
      | true =>
          exact ⟨ms, hsub.trans (List.sublist_append_left _ _), hnoting.symm, hfirst.symm⟩
      | false =>
          obtain ⟨ns, hsub', hns⟩ := exists_sublist_preorderAll visit more state' before'
          refine ⟨ms ++ ns, hsub.append hsub', ?_⟩
          rw [visitEach_append, visitEach_append, hnoting, hfirst]
          exact hns

end

theorem visitInOrder_noting (visit : NodeId → σ → Flow × σ) (s : Subtree) (state : σ)
    (before : List Note) : s.visitInOrder visit state =
      ((s.visitInOrder (noting visit) (state, before)).1,
        (s.visitInOrder (noting visit) (state, before)).2.1) := by
  obtain ⟨ms, _, hplain, hnoted⟩ := exists_sublist_preorder visit s state before
  rw [hplain, hnoted]
  exact visitEach_noting visit ms state before

/-- If no node of a subtree comes twice, the calls of a walk in order are those on some nodes of
the preorder in turn. -/
theorem exists_called {s : Subtree} (hnodup : s.preorder.Nodup)
    (visit : NodeId → σ → Flow × σ) (state : σ) : ∃ ms, ms.Sublist s.preorder ∧
      Called visit state ms (s.callsInOrder visit state) (s.visitInOrder visit state) := by
  obtain ⟨ms, hsub, hplain, hnoted⟩ := exists_sublist_preorder visit s state []
  obtain ⟨calls, hcalls, hcalled⟩ := called_visitEach visit (hsub.nodup hnodup) state []
  rw [callsInOrder, hnoted, hplain, hcalls]
  exact ⟨ms, hsub, hcalled⟩

/-- A visitor that notes its calls skips where its notes say that it skipped. -/
theorem skipsAt_noting (visit : NodeId → σ → Flow × σ) (calls : List Note) :
    SkipsAt (fun state => ∀ c ∈ state.2,
        (c.answer = .skipChildren ↔ ⟨c.node, .skipChildren⟩ ∈ calls))
      (fun n => (⟨n, .skipChildren⟩ : Note) ∈ calls) (noting visit) := by
  intro n (state, noted) hnotes
  obtain ⟨hold, hnew⟩ := List.forall_mem_append.1 hnotes
  rw [decide_eq_true_iff]
  exact ⟨hold, hnew _ List.mem_cons_self⟩

end Subtree

namespace Tree

open Subtree

variable {t : Tree}

/-! ## What is not skipped -/

open Classical in
/-- The nodes that are not below one which was answered with a skip. -/
noncomputable def unskipped (t : Tree) (calls : List Note) (ms : List NodeId) : List NodeId :=
  ms.filter fun m => ∀ a, ⟨a, .skipChildren⟩ ∈ calls → ¬ t.IsBelow m a

theorem unskipped_sublist (calls : List Note) (ms : List NodeId) :
    (t.unskipped calls ms).Sublist ms := List.filter_sublist

open Classical in
/-- What is left of the preorder below a node is what is below no skipped node of it. -/
theorem pruned_eq (hw : t.WellLinked) (skips : NodeId → Bool) (n : NodeId) :
    (t.subtree n).pruned skips = (t.subtree n).preorder.filter fun m =>
      ∀ a, t.AtOrBelow a n → skips a = true → ¬ t.IsBelow m a := by
  -- No node is above itself.
  have hcircle : ∀ {a b}, t.AtOrBelow a b → ¬ t.IsBelow b a := fun hab hba =>
    hw.acyclic _ (Relation.TransGen.trans_right hab hba)
  induction n using hw.induction with
  | step n ih =>
      have hself : ∀ a, t.AtOrBelow a n → skips a = true → ¬ t.IsBelow n a :=
        fun a ha _ => hcircle ha
      have hchild : ∀ {c a}, c ∈ t.children n → t.AtOrBelow a c → t.IsBelow a n :=
        fun hc ha => Relation.TransGen.tail' ha (hw.parent_of_child hc)
      rw [hw.subtree_eq, pruned, prunedAll_eq_flatMap, List.flatMap_map, ← hw.subtree_eq,
        preorder_eq hw, List.filter_cons, if_pos (decide_eq_true hself), List.filter_flatMap]
      refine congrArg (n :: ·) ?_
      split
      · next hn =>
          refine (List.flatMap_eq_nil_iff.2 fun c hc => ?_).symm
          refine List.filter_eq_nil_iff.2 fun m hm hspared => ?_
          exact of_decide_eq_true hspared n .refl hn
            (hchild hc ((mem_preorder_iff_atOrBelow hw).1 hm))
      · next hn =>
          refine List.flatMap_congr fun c hc => (ih c hc).trans ?_
          refine List.filter_congr fun m hm => decide_eq_decide.2 ⟨fun h a ha hskip hbelow => ?_,
            fun h a ha => h a (hchild hc ha).to_reflTransGen⟩
          rcases above_cases hw hc ((mem_preorder_iff_atOrBelow hw).1 hm)
            hbelow.to_reflTransGen with hac | hna
          · exact h a hac hskip hbelow
          · rcases Relation.reflTransGen_iff_eq_or_transGen.1 ha with rfl | ha
            · exact hn hskip
            · exact hcircle hna ha

/-- If all calls are at or below a node, so are all skips. -/
theorem pruned_eq_unskipped (hw : t.WellLinked) {n : NodeId} {calls : List Note}
    (hcalls : ∀ c ∈ calls, t.AtOrBelow c.node n) :
    (t.subtree n).pruned (fun m => (⟨m, .skipChildren⟩ : Note) ∈ calls) =
      t.unskipped calls (t.subtree n).preorder := by
  rw [pruned_eq hw, unskipped]
  refine List.filter_congr fun m _ => decide_eq_decide.2 ⟨fun h a ha => ?_, fun h a _ ha => ?_⟩
  · exact h a (hcalls _ ha) (decide_eq_true ha)
  · exact h a (of_decide_eq_true ha)

/-! ## Walks in order -/

/-- A walk in order calls its visitor on the preorder without what the calls skip. -/
theorem called_unskipped (hw : t.WellLinked) (n : NodeId) (visit : NodeId → σ → Flow × σ)
    (state : σ) :
    Called visit state
      (t.unskipped ((t.subtree n).callsInOrder visit state) (t.subtree n).preorder)
      ((t.subtree n).callsInOrder visit state) ((t.subtree n).visitInOrder visit state) := by
  have hnodup := nodup_preorder hw n
  obtain ⟨ms, hsub, hcalled⟩ := exists_called hnodup visit state
  have hbelow : ∀ c ∈ (t.subtree n).callsInOrder visit state, t.AtOrBelow c.node n := fun c hc =>
    (mem_preorder_iff_atOrBelow hw).1 (hsub.subset (hcalled.subset (List.mem_map_of_mem hc)))
  -- No node is called twice, so a note of a skip at a node is the note of the call there.
  have hskips : ∀ c ∈ (t.subtree n).callsInOrder visit state, (c.answer = .skipChildren ↔
      ⟨c.node, .skipChildren⟩ ∈ (t.subtree n).callsInOrder visit state) :=
    fun c hc => ⟨fun h => h ▸ hc, fun h => congrArg Note.answer
      (List.inj_on_of_nodup_map (hcalled.nodup (hsub.nodup hnodup)) hc h rfl)⟩
  have hwalk := (visitInOrder_of_skipsAt (skipsAt_noting visit _) (t.subtree n) (state, [])
    hskips).2
  rw [pruned_eq_unskipped hw hbelow] at hwalk
  obtain ⟨calls, hcalls, hall⟩ := called_visitEach visit
    (hnodup.sublist (unskipped_sublist ((t.subtree n).callsInOrder visit state) _)) state []
  have hnotes : (t.subtree n).callsInOrder visit state = calls := by
    rw [callsInOrder, hwalk, hcalls]
    rfl
  rw [visitInOrder_noting visit _ state [], hwalk, ← visitEach_noting]
  rwa [← hnotes] at hall

/-! ## Searches -/

/-- The visitor of a search: it keeps the nodes that are wanted, and goes on. -/
def seeking (t : Tree) (p : NodeKind → τ → Bool × τ) (n : NodeId) :
    τ × List NodeId → Flow × τ × List NodeId :=
  fun (state, found) =>
    let (wanted, state) := p (t.kind n) state
    (.onward, state, if wanted then found ++ [n] else found)

/-- The nodes below the root that are wanted, in document order, where it may hang on the nodes
before it whether a node is wanted. -/
def findWith (t : Tree) (p : NodeKind → τ → Bool × τ) (state : τ) : List NodeId × τ :=
  let (_, state, found) := (t.subtree root).visitInOrder (t.seeking p) (state, [])
  (found, state)

theorem visitEach_seeking (p : NodeKind → τ → Bool × τ) (ns : List NodeId) (state : τ)
    (found : List NodeId) : visitEach (t.seeking p) ns (state, found) =
      let (kept, state') :=
        (ns.filterAuxM (m := StateM τ) (fun m => p (t.kind m)) found.reverse).run state
      (false, state', kept.reverse) := by
  induction ns generalizing state found with
  | nil =>
      change (false, state, found) = (false, state, found.reverse.reverse)
      rw [List.reverse_reverse]
  | cons n ns ih =>
      have hreverse : (if (p (t.kind n) state).1 then found ++ [n] else found).reverse =
          cond (p (t.kind n) state).1 (n :: found.reverse) found.reverse := by
        cases (p (t.kind n) state).1 with
        | true => exact List.reverse_append
        | false => rfl
      rw [visitEach, seeking]
      dsimp only
      rw [ih, hreverse]
      rfl

/-- A search asks of the nodes in document order and goes on everywhere. -/
theorem visitInOrder_seeking (p : NodeKind → τ → Bool × τ) (state : τ) :
    (t.subtree root).visitInOrder (t.seeking p) (state, []) =
      visitEach (t.seeking p) (t.subtree root).preorder (state, []) :=
  visitInOrder_of_ne_skip (fun _ _ => by rw [seeking]; exact Flow.noConfusion) _ _

/-- A search filters the document by a predicate with a state. -/
theorem findWith_eq (p : NodeKind → τ → Bool × τ) (state : τ) : t.findWith p state =
    ((t.subtree root).preorder.filterM (m := StateM τ) fun m => p (t.kind m)).run state := by
  rw [findWith, visitInOrder_seeking, visitEach_seeking]
  rfl

/-- A search without a state is one whose state says nothing. -/
theorem find_eq_findWith (q : NodeKind → Bool) :
    t.find q = (t.findWith (fun kind state => (q kind, state)) ()).1 := by
  rw [find, visitInOrder_of_ne_skip fun _ _ => Flow.noConfusion, findWith, visitInOrder_seeking]
  exact congrArg Prod.snd (visitEach_part Prod.snd (fun _ _ => rfl) _ ((), []))

/-! ## Walks and searches together -/

/-- A walk in order calls its visitor on the nodes at or below the first one, in document order,
without those below a node that was answered with a skip; a walk in postorder calls it on the
postorder, skips or not. Either is cut off behind the first node that was answered with a stop. So
a search asks of each node below the root in document order, and finds those that are wanted,
each once. -/
theorem calls_of_walks (hw : t.WellLinked) (n : NodeId) (visit : NodeId → σ → Flow × σ)
    (state : σ) (p : NodeKind → τ → Bool × τ) (asked : τ) :
    Called visit state
      (t.unskipped ((t.subtree n).callsInOrder visit state) (t.subtree n).preorder)
      ((t.subtree n).callsInOrder visit state) ((t.subtree n).visitInOrder visit state) ∧
    Called visit state (t.subtree n).postorder ((t.subtree n).callsPostOrder visit state)
      ((t.subtree n).visitPostOrder visit state) ∧
    t.findWith p asked =
      ((t.subtree root).preorder.filterM (m := StateM τ) fun m => p (t.kind m)).run asked ∧
    ∀ q : NodeKind → Bool, t.find q = (t.findWith (fun kind state => (q kind, state)) ()).1 ∧
      (t.find q).Nodup ∧ (t.find q).Pairwise t.Precedes ∧
      ∀ m, m ∈ t.find q ↔ t.AtOrBelow m root ∧ q (t.kind m) = true := by
  refine ⟨called_unskipped hw n visit state, called_postorder (nodup_postorder hw n) state,
    findWith_eq p asked, fun q => ⟨find_eq_findWith q, ?_, ?_, fun m => ?_⟩⟩
  · rw [find_eq]
    exact (nodup_preorder hw root).filter _
  · rw [find_eq]
    exact (pairwise_precedes hw root).filter _
  · rw [find_eq, List.mem_filter, mem_preorder_iff_atOrBelow hw]

/-- The sum is skipped by the walk in order and not by the one in postorder, and both end with the
sixth call. Of the three numbers every other one is looked for. -/
theorem calls_of_walks_product :
    ∃ (t : Tree) (visit : NodeId → Nat → Flow × Nat) (p : NodeKind → Nat → Bool × Nat)
      (inOrder postOrder : List Note),
      visit = (fun n count =>
        (if n = ⟨3⟩ then .skipChildren else if count = 5 then .stop else .onward, count + 1)) ∧
      p = (fun kind count =>
        if kind.isLiteral then (count % 2 = 0, count + 1) else (false, count)) ∧
      ofSource "(1 + 2) * 3" = .ok t ∧ t.WellLinked ∧
      (t.subtree root).preorder = [root, ⟨7⟩, ⟨6⟩, ⟨5⟩, ⟨3⟩, ⟨1⟩, ⟨2⟩, ⟨4⟩] ∧
      inOrder = [⟨root, .onward⟩, ⟨⟨7⟩, .onward⟩, ⟨⟨6⟩, .onward⟩, ⟨⟨5⟩, .onward⟩,
        ⟨⟨3⟩, .skipChildren⟩, ⟨⟨4⟩, .stop⟩] ∧
      postOrder = [⟨⟨1⟩, .onward⟩, ⟨⟨2⟩, .onward⟩, ⟨⟨3⟩, .skipChildren⟩, ⟨⟨4⟩, .onward⟩,
        ⟨⟨5⟩, .onward⟩, ⟨⟨6⟩, .stop⟩] ∧
      Called visit 0 (t.unskipped inOrder (t.subtree root).preorder) inOrder (true, 6) ∧
      Called visit 0 (t.subtree root).postorder postOrder (true, 6) ∧
      ((t.subtree root).preorder.filterM (m := StateM Nat) fun m => p (t.kind m)).run 0 =
        ([⟨1⟩, ⟨4⟩], 3) ∧
      t.find NodeKind.isLiteral = [⟨1⟩, ⟨2⟩, ⟨4⟩] ∧ (t.find NodeKind.isLiteral).Nodup := by
  let visit : NodeId → Nat → Flow × Nat := fun n count =>
    (if n = ⟨3⟩ then .skipChildren else if count = 5 then .stop else .onward, count + 1)
  let p : NodeKind → Nat → Bool × Nat := fun kind count =>
    if kind.isLiteral then (count % 2 = 0, count + 1) else (false, count)
  let inOrder : List Note := [⟨root, .onward⟩, ⟨⟨7⟩, .onward⟩, ⟨⟨6⟩, .onward⟩, ⟨⟨5⟩, .onward⟩,
    ⟨⟨3⟩, .skipChildren⟩, ⟨⟨4⟩, .stop⟩]
  let postOrder : List Note := [⟨⟨1⟩, .onward⟩, ⟨⟨2⟩, .onward⟩, ⟨⟨3⟩, .skipChildren⟩,
    ⟨⟨4⟩, .onward⟩, ⟨⟨5⟩, .onward⟩, ⟨⟨6⟩, .stop⟩]
  have hcheck : (ofSource "(1 + 2) * 3").toOption.any (fun t =>
      (t.subtree root).preorder = [root, ⟨7⟩, ⟨6⟩, ⟨5⟩, ⟨3⟩, ⟨1⟩, ⟨2⟩, ⟨4⟩] ∧
      (t.subtree root).callsInOrder visit 0 = inOrder ∧
      (t.subtree root).visitInOrder visit 0 = (true, 6) ∧
      (t.subtree root).callsPostOrder visit 0 = postOrder ∧
      (t.subtree root).visitPostOrder visit 0 = (true, 6) ∧
      t.findWith p 0 = ([⟨1⟩, ⟨4⟩], 3) ∧
      t.find NodeKind.isLiteral = [⟨1⟩, ⟨2⟩, ⟨4⟩]) = true := by decide +kernel
  obtain ⟨t, ht, hfacts⟩ := exists_of_checked hcheck
  obtain ⟨hpreorder, hin, hwalk, hpost, hwalk', hfound, hfind⟩ := of_decide_eq_true hfacts
  have hw := wellLinked_of_ofSource ht
  obtain ⟨hinOrder, hpostOrder, hsearch, hfinds⟩ := calls_of_walks hw root visit 0 p 0
  rw [hin, hwalk] at hinOrder
  rw [hpost, hwalk'] at hpostOrder
  exact ⟨t, visit, p, inOrder, postOrder, rfl, rfl, ht, hw, hpreorder, rfl, rfl, hinOrder,
    hpostOrder, hsearch ▸ hfound, hfind, (hfinds _).2.1⟩

end Tree

end Lindenmayer
