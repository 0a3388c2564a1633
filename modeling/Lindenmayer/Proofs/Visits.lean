import Lindenmayer.Proofs.Folding
import Lindenmayer.Proofs.Walks

/-!
# Which nodes a rewriting walk visits

A visitor that writes down its visits does not disturb the walk, and what it wrote tells what
the walk did: each visit has the tree as it was found and the tree as it was left. So one can
ask of the visits of one walk that each of them did no more than put a new node in the place of
the visited one (`Visit.Replaces`), whatever the visitor would do at other nodes, in other trees
or in other states.

Of a visitor that never does more, it is known that the walk visits the postorder of the tree as
it was (`rewritePostOrder_eq`). A visitor that did not do more on this walk is followed, step by
step, by one that never does: where it would, that one stops instead (`tamed`). The walk of the
one is the walk of the other (`follows_recording_tamed`).
-/

namespace Lindenmayer

namespace Subtree

/-- The nodes that a walk visits which reads children before parents and is not cut short. -/
def visited (s : Subtree) : List NodeId :=
  (s.visitPostOrder (fun n visited => (.onward, visited ++ [n])) []).2

theorem visited_eq (s : Subtree) : s.visited = s.postorder := by
  have hcollect := visitEach_collect (fun _ => true) s.postorder []
  rw [List.filter_true, List.nil_append] at hcollect
  rw [visited, visitPostOrder_eq]
  exact congrArg Prod.snd hcollect

end Subtree

namespace Tree

variable {ε σ τ : Type} {t u : Tree} {n m : NodeId}

/-! ## New nodes in the places of old ones -/

/-- Makes several nodes. -/
def newNodes (t : Tree) (made : List (NodeKind × Region)) : Tree :=
  made.foldl (fun t node => (t.newNode node.1 node.2).2) t

@[simp] theorem size_newNodes (made : List (NodeKind × Region)) :
    (t.newNodes made).size = t.size + made.length := by
  induction made generalizing t with
  | nil => rfl
  | cons node made ih =>
      rw [newNodes, List.foldl_cons, ← newNodes, ih, size_newNode, List.length_cons]
      omega

@[simp] theorem children_newNodes (made : List (NodeKind × Region)) (m : NodeId) :
    (t.newNodes made).children m = t.children m := by
  induction made generalizing t with
  | nil => rfl
  | cons node made ih =>
      rw [newNodes, List.foldl_cons, ← newNodes, ih, children_newNode]

theorem WellLinked.newNodes (hw : t.WellLinked) (made : List (NodeKind × Region)) :
    (t.newNodes made).WellLinked := by
  induction made generalizing t with
  | nil => exact hw
  | cons node made ih =>
      rw [Tree.newNodes, List.foldl_cons, ← Tree.newNodes]
      exact ih (hw.newNode node.1 node.2)

/-- A new node in the place of an old one is a child where this was one. -/
theorem replaceWith_newNodes (hw : t.WellLinked) {made : List (NodeKind × Region)} {new : NodeId}
    (hnew : t.size ≤ new.index) (hlt : new.index < (t.newNodes made).size) :
    ((t.newNodes made).replaceWith n new).2.WellLinked ∧
      ∀ q, ((t.newNodes made).replaceWith n new).2.children q =
        substitute n new (t.children q) := by
  have hw' := hw.newNodes made
  have hleaf : (t.newNodes made).children new = [] := by
    rw [children_newNodes, children, node_of_size_le hnew]
    rfl
  rw [replaceWith]
  cases hparent : (t.newNodes made).parent n with
  | none =>
      refine ⟨hw', fun q => ?_⟩
      have hnot := hw'.not_mem_children hparent q
      rw [children_newNodes] at hnot
      rw [children_newNodes, substitute_of_not_mem hnot]
  | some p =>
      have hmem := hw'.child_of_parent hparent
      have hold : n.index < t.size := by
        rw [children_newNodes] at hmem
        exact hw.child_lt hmem
      have hne : n ≠ new := fun heq => absurd hold (Nat.not_lt.2 (heq ▸ hnew))
      have hpn : p ≠ new := by
        rintro rfl
        rw [hleaf] at hmem
        cases hmem
      refine ⟨hw'.replaceChild fun _ => ⟨index_lt_of_mem_children hmem, hlt, hpn,
        hw'.not_isBelow_of_leaf hleaf⟩, fun q => ?_⟩
      rw [children, node_replaceChild hw'.toLinked hmem hne hlt hpn, children_newNodes,
        filter_ne_of_not_mem fun hc => Nat.not_lt.2 hnew (hw.child_lt hc)]

/-- What the trees on the way of a walk have in common with the one before it. -/
structure Grown (t u : Tree) : Prop where
  wellLinked : u.WellLinked
  size_le : t.size ≤ u.size
  /-- Links only lead to where they led before, or to nodes that were made since. -/
  children : ∀ {q c}, c ∈ u.children q → c ∈ t.children q ∨ t.size ≤ c.index

theorem Grown.refl (hw : t.WellLinked) : Grown t t := ⟨hw, Nat.le_refl _, .inl⟩

/-! ## Visits -/

/-- A visit: the node and the tree that were given, and what came of it. -/
structure Visit (ε : Type) where
  node : NodeId
  before : Tree
  outcome : Except ε Flow
  after : Tree

namespace Visit

variable {v : Visit ε}

/-- Whether the walk goes on after a visit. -/
def GoesOn (v : Visit ε) : Prop := ∃ flow, v.outcome = .ok flow ∧ flow ≠ .stop

/-- Whether a visit left the tree alone, but for nodes that it made, or put one of these in the
place of the visited node. -/
def Replaces (v : Visit ε) : Prop :=
  ∃ made, v.after = v.before.newNodes made ∨
    ∃ new, v.before.size ≤ new.index ∧ new.index < (v.before.newNodes made).size ∧
      v.after = ((v.before.newNodes made).replaceWith v.node new).2

theorem Replaces.size_le (h : v.Replaces) : v.before.size ≤ v.after.size := by
  obtain ⟨made, hafter | ⟨new, _, _, hafter⟩⟩ := h
  · rw [hafter, size_newNodes]
    exact Nat.le_add_right _ _
  · rw [hafter, size_replaceWith, size_newNodes]
    exact Nat.le_add_right _ _

/-- A visit that replaces changes one list of children at most, and puts new nodes there only. -/
theorem Replaces.children (h : v.Replaces) (hw : v.before.WellLinked) :
    v.after.WellLinked ∧ ∃ new, v.before.size ≤ new.index ∧ ∀ q,
      v.after.children q = v.before.children q ∨
      v.after.children q = substitute v.node new (v.before.children q) := by
  obtain ⟨made, hafter | ⟨new, hnew, hlt, hafter⟩⟩ := h
  · rw [hafter]
    exact ⟨hw.newNodes made, ⟨v.before.size⟩, Nat.le_refl _,
      fun q => .inl (children_newNodes made q)⟩
  · rw [hafter]
    obtain ⟨hw', hchildren⟩ := replaceWith_newNodes hw hnew hlt
    exact ⟨hw', new, hnew, fun q => .inr (hchildren q)⟩

theorem Replaces.grown (h : v.Replaces) (hbefore : Grown t v.before) : Grown t v.after := by
  obtain ⟨hw, new, hnew, hchildren⟩ := h.children hbefore.wellLinked
  refine ⟨hw, hbefore.size_le.trans h.size_le, fun {q c} hc => ?_⟩
  rcases hchildren q with heq | heq
  · rw [heq] at hc
    exact hbefore.children hc
  · rw [heq] at hc
    rcases mem_substitute.1 hc with ⟨rfl, _⟩ | ⟨hc, _⟩
    · exact .inr (hbefore.size_le.trans hnew)
    · exact hbefore.children hc

theorem Replaces.children_of_not_mem (h : v.Replaces) (hbefore : Grown t v.before)
    (hlt : v.node.index < t.size) {q : NodeId} (hq : v.node ∉ t.children q) :
    v.after.children q = v.before.children q := by
  obtain ⟨_, new, _, hchildren⟩ := h.children hbefore.wellLinked
  have hnot : v.node ∉ v.before.children q := fun hmem =>
    (hbefore.children hmem).elim hq (Nat.not_le.2 hlt)
  rcases hchildren q with heq | heq
  · exact heq
  · rw [heq, substitute_of_not_mem hnot]

end Visit

/-- A visitor that writes down its visits. -/
def recording (visit : Visitor ε σ) : Visitor ε (σ × List (Visit ε)) := fun n t (state, vs) =>
  let (outcome, t', state) := visit n t state
  (outcome, t', state, vs ++ [⟨n, t, outcome, t'⟩])

open Classical in
/-- A visitor that stops where it would do more than replace the node it is given. -/
noncomputable def tamed (visit : Visitor ε σ) : Visitor ε σ := fun n t state =>
  if Visit.Replaces ⟨n, t, (visit n t state).1, (visit n t state).2.1⟩ then visit n t state
  else (.ok .stop, t, state)

theorem replaces_tamed (visit : Visitor ε σ) (n : NodeId) (t : Tree) (state : σ) :
    Visit.Replaces ⟨n, t, (tamed visit n t state).1, (tamed visit n t state).2.1⟩ := by
  rw [tamed]
  split
  · next h => exact h
  · exact ⟨[], .inl rfl⟩

theorem local_recording_tamed (visit : Visitor ε σ) :
    Local t (fun m => m.index < t.size) (Grown t) (recording (tamed visit)) where
  keeps _ _ hu := (replaces_tamed visit _ _ _).grown hu
  children _ hm hu hq := (replaces_tamed visit _ _ _).children_of_not_mem hu hm hq

/-! ## Visitors that follow each other -/

/-- Whether a visitor does, with a part of the state, what another one does wherever that comes to
a state with the property `Q`. It comes to no such state from one without it. -/
def Follows (Q : τ → Prop) (part : τ → σ) (visit : Visitor ε τ) (visit' : Visitor ε σ) :
    Prop :=
  ∀ n t state, Q (visit n t state).2.2 → Q state ∧ visit' n t (part state) =
    ((visit n t state).1, (visit n t state).2.1, part (visit n t state).2.2)

namespace Follows

variable {Q : τ → Prop} {part : τ → σ} {visit : Visitor ε τ} {visit' : Visitor ε σ}

theorem rewriteAll (h : Follows Q part visit visit') (ns : List NodeId) (t : Tree) (state : τ)
    (hQ : Q (rewriteAll visit ns t state).2.2) :
    Q state ∧ Tree.rewriteAll visit' ns t (part state) =
      ((Tree.rewriteAll visit ns t state).1, (Tree.rewriteAll visit ns t state).2.1,
        part (Tree.rewriteAll visit ns t state).2.2) := by
  induction ns generalizing t state with
  | nil => exact ⟨hQ, rfl⟩
  | cons n ns ih =>
      have hn := h n t state
      rw [Tree.rewriteAll] at hQ ⊢
      rw [Tree.rewriteAll]
      generalize visit n t state = answer at hn hQ
      rcases answer with ⟨e | flow, t', state'⟩
      · obtain ⟨hstate, heq⟩ := hn hQ
        rw [heq]
        exact ⟨hstate, rfl⟩
      · cases flow with
        | stop =>
            obtain ⟨hstate, heq⟩ := hn hQ
            rw [heq]
            exact ⟨hstate, rfl⟩
        | onward | skipChildren =>
            obtain ⟨hstate', hrest⟩ := ih t' state' hQ
            obtain ⟨hstate, heq⟩ := hn hstate'
            rw [heq]
            exact ⟨hstate, hrest⟩

theorem rewriteWithin (h : Follows Q part visit visit') (depth : Nat) :
    Follows Q part (rewriteWithin visit depth) (rewriteWithin visit' depth) := by
  induction depth with
  | zero => exact h
  | succ depth ih =>
      intro n t state hQ
      have hbelow := ih.rewriteAll (t.children n) t state
      rw [Tree.rewriteWithin] at hQ ⊢
      rw [Tree.rewriteWithin]
      generalize Tree.rewriteAll (Tree.rewriteWithin visit depth) (t.children n) t state = answer
        at hbelow hQ
      rcases answer with ⟨e | flow, t', state'⟩
      · obtain ⟨hstate, heq⟩ := hbelow hQ
        rw [heq]
        exact ⟨hstate, rfl⟩
      · cases flow with
        | stop =>
            obtain ⟨hstate, heq⟩ := hbelow hQ
            rw [heq]
            exact ⟨hstate, rfl⟩
        | onward | skipChildren =>
            obtain ⟨hstate', hself⟩ := h n t' state' hQ
            obtain ⟨hstate, heq⟩ := hbelow hstate'
            rw [heq]
            exact ⟨hstate, hself⟩

theorem rewritePostOrder (h : Follows Q part visit visit') {state state' : τ}
    {answer : Except ε Unit} (hwalk : t.rewritePostOrder visit n state = (answer, u, state'))
    (hQ : Q state') :
    Q state ∧ t.rewritePostOrder visit' n (part state) = (answer, u, part state') := by
  have hwithin := h.rewriteWithin t.size n t state
  rw [Tree.rewritePostOrder] at hwalk ⊢
  generalize Tree.rewriteWithin visit t.size n t state = answer at hwalk hwithin
  rcases answer with ⟨e | flow, t', state'⟩
  · cases hwalk
    obtain ⟨hstate, heq⟩ := hwithin hQ
    rw [heq]
    exact ⟨hstate, rfl⟩
  · cases hwalk
    obtain ⟨hstate, heq⟩ := hwithin hQ
    rw [heq]
    exact ⟨hstate, rfl⟩

end Follows

theorem follows_recording (visit : Visitor ε σ) :
    Follows (fun _ => True) Prod.fst (recording visit) visit :=
  fun _ _ _ _ => ⟨trivial, rfl⟩

/-- As long as all visits replace, a visitor does what it does when it is tamed. -/
theorem follows_recording_tamed (visit : Visitor ε σ) :
    Follows (fun state => ∀ v ∈ state.2, v.Replaces) id (recording visit)
      (recording (tamed visit)) := by
  intro n t (state, vs) hvisits
  obtain ⟨hold, hnew⟩ := List.forall_mem_append.1 hvisits
  have htamed : tamed visit n t state = visit n t state := if_pos (List.forall_mem_singleton.1 hnew)
  refine ⟨hold, ?_⟩
  rw [id, recording, htamed]
  rfl

/-- What is so of whatever a visitor does is so of its visits. -/
theorem forall_visits {visit : Visitor ε σ} {P : Visit ε → Prop}
    (hP : ∀ n t state, P ⟨n, t, (visit n t state).1, (visit n t state).2.1⟩) {state state' : σ}
    {vs : List (Visit ε)} {answer : Except ε Unit}
    (hwalk : t.rewritePostOrder (recording visit) n (state, []) = (answer, u, state', vs)) :
    ∀ v ∈ vs, P v := by
  -- What is written down and is not so was there before.
  have hfollows : Follows (fun state => ∃ v ∈ state.2, ¬ P v) id (recording visit)
      (recording visit) := by
    rintro n t ⟨state, vs⟩ ⟨v, hv, hnot⟩
    rcases List.mem_append.1 hv with hv | hv
    · exact ⟨⟨v, hv, hnot⟩, rfl⟩
    · obtain rfl := List.mem_singleton.1 hv
      exact absurd (hP n t state) hnot
  intro v hv
  by_contra hnot
  obtain ⟨⟨v, hv, _⟩, _⟩ := hfollows.rewritePostOrder hwalk ⟨v, hv, hnot⟩
  cases hv

/-! ## What is written down -/

/-- Whether these are the visits of some nodes in turn: of all of them, or of those up to the
first after which the walk does not go on. -/
inductive InTurn : List NodeId → List (Visit ε) → Except ε Flow → Prop
  | nil : InTurn [] [] (.ok .onward)
  | goesOn {v : Visit ε} {ms : List NodeId} {vs : List (Visit ε)} {answer : Except ε Flow}
      (hv : v.GoesOn) (h : InTurn ms vs answer) : InTurn (v.node :: ms) (v :: vs) answer
  | stops {v : Visit ε} (ms : List NodeId) (hv : v.outcome = .ok .stop) :
      InTurn (v.node :: ms) [v] (.ok .stop)
  | fails {v : Visit ε} {e : ε} (ms : List NodeId) (hv : v.outcome = .error e) :
      InTurn (v.node :: ms) [v] (.error e)

namespace InTurn

variable {ms : List NodeId} {vs : List (Visit ε)} {answer : Except ε Flow}

theorem nodes (h : InTurn ms vs answer) : vs.map Visit.node <+: ms := by
  induction h with
  | nil => exact List.prefix_refl _
  | goesOn _ _ ih => exact List.cons_prefix_cons.2 ⟨rfl, ih⟩
  | stops | fails => exact List.cons_prefix_cons.2 ⟨rfl, List.nil_prefix⟩

theorem ending (h : InTurn ms vs answer) :
    (vs.map Visit.node = ms ∧ (∀ v ∈ vs, v.GoesOn) ∧ answer = .ok .onward) ∨
    ∃ done last, vs = done ++ [last] ∧ (∀ v ∈ done, v.GoesOn) ∧
      (last.outcome = .ok .stop ∧ answer = .ok .stop ∨
        ∃ e, last.outcome = .error e ∧ answer = .error e) := by
  induction h with
  | nil => exact .inl ⟨rfl, List.forall_mem_nil _, rfl⟩
  | @goesOn v _ _ _ hv _ ih =>
      rcases ih with ⟨hnodes, hall, hanswer⟩ | ⟨done, last, rfl, hdone, hanswer⟩
      · exact .inl ⟨congrArg _ hnodes, List.forall_mem_cons.2 ⟨hv, hall⟩, hanswer⟩
      · exact .inr ⟨v :: done, last, rfl, List.forall_mem_cons.2 ⟨hv, hdone⟩, hanswer⟩
  | @stops v _ hv => exact .inr ⟨[], v, rfl, List.forall_mem_nil _, .inl ⟨hv, rfl⟩⟩
  | @fails v e _ hv => exact .inr ⟨[], v, rfl, List.forall_mem_nil _, .inr ⟨e, hv, rfl⟩⟩

end InTurn

/-- Visiting nodes in turn writes down their visits in turn. -/
theorem inTurn_rewriteAll (visit : Visitor ε σ) {P : Tree → Prop} {ms : List NodeId}
    (hkeeps : ∀ m ∈ ms, ∀ u state, P u → P (visit m u state).2.1) (hu : P u) (state : σ)
    (vs : List (Visit ε)) :
    ∃ more, (rewriteAll (recording visit) ms u (state, vs)).2.2.2 = vs ++ more ∧
      (∀ v ∈ more, P v.before) ∧
      InTurn ms more (rewriteAll (recording visit) ms u (state, vs)).1 := by
  induction ms generalizing u state vs with
  | nil => exact ⟨[], (List.append_nil _).symm, List.forall_mem_nil _, .nil⟩
  | cons m ms ih =>
      have hm := hkeeps m List.mem_cons_self u state hu
      have hrest := fun u' => @ih u' fun m' hm' => hkeeps m' (List.mem_cons_of_mem m hm')
      rw [rewriteAll, recording]
      generalize visit m u state = answer at hm
      rcases answer with ⟨outcome, u', state'⟩
      have hone : ∀ v ∈ [(⟨m, u, outcome, u'⟩ : Visit ε)], P v.before :=
        List.forall_mem_singleton.2 hu
      obtain ⟨more, hmore, hbefore, hturn⟩ := hrest u' hm state' (vs ++ [⟨m, u, outcome, u'⟩])
      have hvs := hmore.trans (List.append_assoc _ _ _)
      have hboth := List.forall_mem_append.2 ⟨hone, hbefore⟩
      rcases outcome with e | _ | _ | _
      · exact ⟨_, rfl, hone, .fails (v := ⟨m, u, .error e, u'⟩) ms rfl⟩
      · exact ⟨_, hvs, hboth, .goesOn (v := ⟨m, u, .ok .onward, u'⟩) ⟨_, rfl, by decide⟩ hturn⟩
      · exact ⟨_, hvs, hboth,
          .goesOn (v := ⟨m, u, .ok .skipChildren, u'⟩) ⟨_, rfl, by decide⟩ hturn⟩
      · exact ⟨_, rfl, hone, .stops (v := ⟨m, u, .ok .stop, u'⟩) ms rfl⟩

/-- A walk on which each visit leaves the tree alone or puts a new node in the place of the
visited one visits the nodes that a walk which only reads would visit in the tree as it was, in
that order, each once and none of those that are made on the way. It is cut off after the first
visit that stops it or fails, and fails in the second case alone. -/
theorem visits_of_replaces (hw : t.WellLinked) (hn : n.index < t.size) {visit : Visitor ε σ}
    {state state' : σ} {vs : List (Visit ε)} {answer : Except ε Unit}
    (hwalk : t.rewritePostOrder (recording visit) n (state, []) = (answer, u, state', vs))
    (hvisits : ∀ v ∈ vs, v.Replaces) :
    t.rewritePostOrder visit n state = (answer, u, state') ∧
    vs.map Visit.node <+: (t.subtree n).visited ∧ (t.subtree n).visited.Nodup ∧
    (∀ v ∈ vs, v.node.index < t.size ∧ t.size ≤ v.before.size) ∧
    ((vs.map Visit.node = (t.subtree n).visited ∧ (∀ v ∈ vs, v.GoesOn) ∧ answer = .ok ()) ∨
      ∃ done last, vs = done ++ [last] ∧ (∀ v ∈ done, v.GoesOn) ∧
        (last.outcome = .ok .stop ∧ answer = .ok () ∨
          ∃ e, last.outcome = .error e ∧ answer = .error e)) := by
  have hlt : ∀ m ∈ (t.subtree n).postorder, m.index < t.size := fun m hm =>
    lt_of_mem_preorder hw hn ((Subtree.postorder_perm_preorder _).mem_iff.1 hm)
  obtain ⟨_, htamed⟩ := (follows_recording_tamed visit).rewritePostOrder hwalk hvisits
  rw [id, rewritePostOrder_eq (local_recording_tamed visit) hw n hlt (.refl hw)] at htamed
  obtain ⟨more, hvs, hbefore, hturn⟩ := inTurn_rewriteAll (tamed visit) (P := Grown t)
    (fun m _ u state hu => (replaces_tamed visit m u state).grown hu) (.refl hw) state []
  refine ⟨((follows_recording visit).rewritePostOrder hwalk trivial).2, ?_⟩
  rw [Subtree.visited_eq]
  generalize rewriteAll (recording (tamed visit)) (t.subtree n).postorder t (state, []) = all
    at htamed hvs hturn
  rcases all with ⟨outcome, u', state'', vs'⟩
  obtain rfl : vs' = more := hvs
  have hanswer : vs' = vs ∧ answer = outcome.map fun _ => () := by
    rcases outcome with e | flow
    · cases htamed
      exact ⟨rfl, rfl⟩
    · cases htamed
      exact ⟨rfl, rfl⟩
  obtain ⟨rfl, rfl⟩ := hanswer
  refine ⟨hturn.nodes, nodup_postorder hw n, fun v hv => ⟨?_, (hbefore v hv).size_le⟩, ?_⟩
  · exact hlt _ (hturn.nodes.subset (List.mem_map_of_mem hv))
  · rcases hturn.ending with ⟨hnodes, hall, hanswer⟩ |
      ⟨done, last, hvs, hdone, ⟨hlast, hanswer⟩ | ⟨e, hlast, hanswer⟩⟩
    · exact .inl ⟨hnodes, hall, congrArg _ hanswer⟩
    · exact .inr ⟨done, last, hvs, hdone, .inl ⟨hlast, congrArg _ hanswer⟩⟩
    · exact .inr ⟨done, last, hvs, hdone, .inr ⟨e, hlast, congrArg _ hanswer⟩⟩

/-- Folding does nothing else at any node. -/
theorem replaces_foldNode (ctx : Context) (n : NodeId) (t : Tree) (count : Nat) :
    Visit.Replaces ⟨n, t, (foldNode ctx n t count).1, (foldNode ctx n t count).2.1⟩ := by
  have hvalue : ∀ v, ∃ made new, t.size ≤ new.index ∧ new.index < (t.newNodes made).size ∧
      (t.replaceByValue n v).2 = ((t.newNodes made).replaceWith n new).2 := fun v => by
    refine ⟨[(.ofValue v, t.fullRegion n)], ⟨t.size⟩, Nat.le_refl _, ?_, rfl⟩
    rw [size_newNodes]
    exact Nat.lt_succ_self _
  rw [foldNode]
  split
  · exact ⟨[], .inl rfl⟩
  · split
    · exact ⟨[], .inl rfl⟩
    · exact ⟨[], .inl rfl⟩
    · next v _ =>
        obtain ⟨made, new, hnew, hlt, hafter⟩ := hvalue v
        split
        · next heq => exact ⟨made, .inr ⟨new, hnew, hlt, by rw [← hafter, heq]⟩⟩
        · next heq => exact ⟨made, .inr ⟨new, hnew, hlt, by rw [← hafter, heq]⟩⟩

/-- A fold that fails at a division has visited the sum before it, and the literal that this was
replaced by was not visited. -/
theorem visits_of_replaces_failed :
    ∃ t u count vs, ofSource "2 + 3 - 1 / 0" = .ok t ∧ t.WellLinked ∧
      (t.subtree root).visited = [⟨1⟩, ⟨2⟩, ⟨3⟩, ⟨4⟩, ⟨5⟩, ⟨6⟩, ⟨7⟩, ⟨8⟩, ⟨9⟩, ⟨0⟩] ∧
      vs.map Visit.node = [⟨1⟩, ⟨2⟩, ⟨3⟩, ⟨4⟩, ⟨5⟩, ⟨6⟩] ∧ u.size = 11 ∧
      vs.map Visit.node <+: (t.subtree root).visited ∧
      t.rewritePostOrder (foldNode .empty) root 0 = (.error .divisionByZero, u, count) ∧
      ∃ done last, vs = done ++ [last] ∧ (∀ v ∈ done, v.GoesOn) ∧
        last.outcome = .error EvalError.divisionByZero := by
  have hcheck : (ofSource "2 + 3 - 1 / 0").toOption.any (fun t =>
      let (answer, u, _, vs) := t.rewritePostOrder (recording (foldNode .empty)) root (0, [])
      (t.subtree root).visited = [⟨1⟩, ⟨2⟩, ⟨3⟩, ⟨4⟩, ⟨5⟩, ⟨6⟩, ⟨7⟩, ⟨8⟩, ⟨9⟩, ⟨0⟩] ∧
      root.index < t.size ∧ answer = .error .divisionByZero ∧ u.size = 11 ∧
      vs.map Visit.node = [⟨1⟩, ⟨2⟩, ⟨3⟩, ⟨4⟩, ⟨5⟩, ⟨6⟩]) = true := by decide +kernel
  obtain ⟨t, ht, hfacts⟩ := exists_of_checked hcheck
  have hw := wellLinked_of_ofSource ht
  rcases hwalk : t.rewritePostOrder (recording (foldNode .empty)) root (0, []) with
    ⟨answer, u, count, vs⟩
  rw [hwalk] at hfacts
  obtain ⟨hvisited, hlt, rfl, hsize, hnodes⟩ := of_decide_eq_true hfacts
  obtain ⟨hplain, hfirst, _, _, hend⟩ :=
    visits_of_replaces hw hlt hwalk (forall_visits (replaces_foldNode .empty) hwalk)
  refine ⟨t, u, count, vs, ht, hw, hvisited, hnodes, hsize, hfirst, hplain, ?_⟩
  rcases hend with ⟨_, _, hok⟩ | ⟨done, last, hvs, hdone, ⟨_, hok⟩ | ⟨e, hlast, he⟩⟩
  · cases hok
  · cases hok
  · cases he
    exact ⟨done, last, hvs, hdone, hlast⟩

end Tree

end Lindenmayer
