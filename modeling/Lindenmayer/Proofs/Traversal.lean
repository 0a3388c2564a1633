import Lindenmayer.Tree.Subtree

/-!
# Walks that only read, as runs over lists

A walk that only reads goes down into a subtree and back up, and a stop has to be handed up all
the way. What it comes to can be said without a way down: the visitor is called on the nodes of a
list, one after the other, until one of the calls stops it (`visitEach`). For a walk in postorder
this list is the postorder, whatever the visitor answers. For a walk in order it is the preorder
without what is below some nodes (`pruned`), those at which the visitor says to skip it.

Which nodes these are is only known when the walk is over, because an answer may hang on all that
was seen before. So they are guessed, and the guess is checked against what the walk leaves
behind: a property of the state that is reached by right guesses alone (`SkipsAt`) carries the
induction from the end of the walk to its beginning. A visitor that never skips needs no such
property (`visitInOrder_of_ne_skip`).
-/

namespace Lindenmayer.Subtree

variable {σ τ : Type} {visit : NodeId → σ → Flow × σ}

/-- Visits several nodes in turn, as far as the visitor does not stop. There is nothing below
them that could be skipped. -/
def visitEach (visit : NodeId → σ → Flow × σ) : List NodeId → σ → Bool × σ
  | [], state => (false, state)
  | n :: more, state =>
    match visit n state with
    | (.stop, state) => (true, state)
    | (_, state) => visitEach visit more state

theorem visitEach_append (ms ns : List NodeId) (state : σ) :
    visitEach visit (ms ++ ns) state =
      match visitEach visit ms state with
      | (true, state) => (true, state)
      | (false, state) => visitEach visit ns state := by
  induction ms generalizing state with
  | nil => rfl
  | cons m ms ih =>
      rw [List.cons_append, visitEach, visitEach]
      rcases visit m state with ⟨flow, state'⟩
      cases flow with
      | onward => exact ih state'
      | skipChildren => exact ih state'
      | stop => rfl

/-- Two visitors that answer alike, one of them with a part of the state that the other one has,
go equally far. -/
theorem visitEach_part (part : τ → σ) {visit' : NodeId → τ → Flow × τ}
    (hpart : ∀ n state, visit n (part state) = ((visit' n state).1, part (visit' n state).2))
    (ns : List NodeId) (state : τ) : visitEach visit ns (part state) =
      ((visitEach visit' ns state).1, part (visitEach visit' ns state).2) := by
  induction ns generalizing state with
  | nil => rfl
  | cons n ns ih =>
      rw [visitEach, visitEach, hpart]
      rcases visit' n state with ⟨flow, state'⟩
      cases flow with
      | onward => exact ih state'
      | skipChildren => exact ih state'
      | stop => rfl

/-! ## Children before parents -/

mutual

/-- A walk in postorder visits the postorder. -/
theorem visitPostOrder_eq (s : Subtree) (state : σ) :
    s.visitPostOrder visit state = visitEach visit s.postorder state := by
  match s with
  | node id _ _ children =>
      rw [visitPostOrder, visitAllPostOrder_eq children state, postorder, visitEach_append]
      rcases visitEach visit (postorderAll children) state with ⟨stopped, state'⟩
      cases stopped with
      | true => rfl
      | false =>
          dsimp only
          rw [visitEach]
          rcases visit id state' with ⟨flow, state''⟩
          cases flow with
          | onward => rfl
          | skipChildren => rfl
          | stop => rfl

theorem visitAllPostOrder_eq (ss : List Subtree) (state : σ) :
    visitAllPostOrder visit ss state = visitEach visit (postorderAll ss) state := by
  match ss with
  | [] => rfl
  | s :: more =>
      rw [visitAllPostOrder, visitPostOrder_eq s state, postorderAll, visitEach_append]
      rcases visitEach visit s.postorder state with ⟨stopped, state'⟩
      cases stopped with
      | true => rfl
      | false => exact visitAllPostOrder_eq more state'

end

/-! ## Parents before children -/

mutual

/-- The nodes, parents before children, without what is below some of them. -/
def pruned (skips : NodeId → Bool) : Subtree → List NodeId
  | node id _ _ children => id :: if skips id then [] else prunedAll skips children

def prunedAll (skips : NodeId → Bool) : List Subtree → List NodeId
  | [] => []
  | s :: more => pruned skips s ++ prunedAll skips more

end

mutual

theorem pruned_nowhere (s : Subtree) : s.pruned (fun _ => false) = s.preorder := by
  match s with
  | node id _ _ children =>
      rw [pruned, if_neg Bool.false_ne_true, prunedAll_nowhere children, preorder]

theorem prunedAll_nowhere (ss : List Subtree) :
    prunedAll (fun _ => false) ss = preorderAll ss := by
  match ss with
  | [] => rfl
  | s :: more => rw [prunedAll, pruned_nowhere s, prunedAll_nowhere more, preorderAll]

end

theorem prunedAll_eq_flatMap (skips : NodeId → Bool) (ss : List Subtree) :
    prunedAll skips ss = ss.flatMap (pruned skips) := by
  induction ss with
  | nil => rfl
  | cons s ss ih => rw [prunedAll, List.flatMap_cons, ih]

/-- Whether a visitor comes to a state with the property `Q` only from such a state, and only
where it says to skip what is below a node just if `skips` says so. -/
def SkipsAt (Q : σ → Prop) (skips : NodeId → Bool) (visit : NodeId → σ → Flow × σ) : Prop :=
  ∀ n state, Q (visit n state).2 →
    Q state ∧ ((visit n state).1 = .skipChildren ↔ skips n = true)

variable {Q : σ → Prop} {skips : NodeId → Bool}

mutual

/-- A walk in order which comes to a state with the property visits the pruned preorder. -/
theorem visitInOrder_of_skipsAt (hskips : SkipsAt Q skips visit) (s : Subtree) (state : σ)
    (hQ : Q (s.visitInOrder visit state).2) :
    Q state ∧ s.visitInOrder visit state = visitEach visit (s.pruned skips) state := by
  match s with
  | node id _ _ children =>
      have hself := hskips id state
      rw [visitInOrder] at hQ ⊢
      rw [pruned, visitEach]
      generalize visit id state = answer at hself hQ ⊢
      rcases answer with ⟨flow, state'⟩
      cases flow with
      | stop => exact ⟨(hself hQ).1, rfl⟩
      | skipChildren =>
          obtain ⟨hstate, hid⟩ := hself hQ
          rw [if_pos (hid.1 rfl)]
          exact ⟨hstate, rfl⟩
      | onward =>
          obtain ⟨hstate', hbelow⟩ := visitAllInOrder_of_skipsAt hskips children state' hQ
          obtain ⟨hstate, hid⟩ := hself hstate'
          rw [if_neg fun h => Flow.noConfusion (hid.2 h)]
          exact ⟨hstate, hbelow⟩

theorem visitAllInOrder_of_skipsAt (hskips : SkipsAt Q skips visit) (ss : List Subtree)
    (state : σ) (hQ : Q (visitAllInOrder visit ss state).2) :
    Q state ∧ visitAllInOrder visit ss state = visitEach visit (prunedAll skips ss) state := by
  match ss with
  | [] => exact ⟨hQ, rfl⟩
  | s :: more =>
      have hfirst := visitInOrder_of_skipsAt hskips s state
      rw [visitAllInOrder] at hQ ⊢
      rw [prunedAll, visitEach_append]
      generalize s.visitInOrder visit state = answer at hfirst hQ ⊢
      rcases answer with ⟨stopped, state'⟩
      cases stopped with
      | true =>
          obtain ⟨hstate, heq⟩ := hfirst hQ
          rw [← heq]
          exact ⟨hstate, rfl⟩
      | false =>
          obtain ⟨hstate', hrest⟩ := visitAllInOrder_of_skipsAt hskips more state' hQ
          obtain ⟨hstate, heq⟩ := hfirst hstate'
          rw [← heq]
          exact ⟨hstate, hrest⟩

end

theorem visitInOrder_of_ne_skip (hvisit : ∀ n state, (visit n state).1 ≠ .skipChildren)
    (s : Subtree) (state : σ) :
    s.visitInOrder visit state = visitEach visit s.preorder state := by
  have hskips : SkipsAt (fun _ => True) (fun _ => false) visit := fun n state _ =>
    ⟨trivial, fun h => absurd h (hvisit n state), fun h => Bool.noConfusion h⟩
  rw [(visitInOrder_of_skipsAt hskips s state trivial).2, pruned_nowhere]

/-- Collecting goes on everywhere. -/
theorem visitEach_collect (p : NodeId → Bool) (ns found : List NodeId) :
    visitEach (fun n found => (.onward, if p n then found ++ [n] else found)) ns found =
      (false, found ++ ns.filter p) := by
  induction ns generalizing found with
  | nil => rw [visitEach, List.filter_nil, List.append_nil]
  | cons n ns ih =>
      rw [visitEach, List.filter_cons]
      dsimp only
      rw [ih]
      split
      · rw [List.append_assoc, List.singleton_append]
      · rfl

end Lindenmayer.Subtree
