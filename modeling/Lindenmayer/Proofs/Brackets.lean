import Lindenmayer.Proofs.Reachable
import Lindenmayer.Rewriting.RandomSource

/-!
# Brackets

One letter tells the turtle to keep its state, another to go back to the one it
kept last. A word is balanced if it never goes back to what it did not keep and
has nothing left over at its end. `Balanced` says so by heights, of the word and
of all that it begins with.

An induction along the word needs more, since what stands in the middle of a
word may fall as far as the height that it stands at. So a word is taken as what
it makes of a number of kept states (`depthFrom`). There words compose, and a
balanced word does nothing at all (`Balanced.depthFrom`). A generation that
leaves the brackets alone puts in the place of each letter a word that makes the
same of every number, and so it does for the whole word (`depthFrom_flatten`).
-/

namespace Lindenmayer

namespace Letter

/-- Whether a letter keeps a state or takes one back. -/
def IsBracket (l : Letter) : Prop := l.kind = .pushState ∨ l.kind = .popState

/-- What a letter adds to the number of states kept. -/
def rise (l : Letter) : Int :=
  if l.kind = .pushState then 1 else if l.kind = .popState then -1 else 0

/-- The number of states kept after a letter, unless it takes back what is not
there. -/
def depthAfter (depth : Nat) (l : Letter) : Option Nat :=
  if l.kind = .pushState then some (depth + 1)
  else if l.kind = .popState then if depth = 0 then none else some (depth - 1)
  else some depth

theorem depthAfter_eq_some_iff {l : Letter} {d e : Nat} :
    l.depthAfter d = some e ↔ d + l.rise = e := by
  unfold depthAfter rise
  split_ifs with hpush hpop hzero
  · rw [Option.some_inj]
    omega
  · exact iff_of_false nofun (by omega)
  · rw [Option.some_inj]
    omega
  · rw [Option.some_inj]
    omega

theorem depthAfter_of_not_isBracket {l : Letter} (h : ¬ l.IsBracket) (d : Nat) :
    l.depthAfter d = some d := by
  obtain ⟨hpush, hpop⟩ := not_or.1 h
  rw [depthAfter, if_neg hpush, if_neg hpop]

end Letter

namespace Word

/-- How many more states a word keeps than it takes back. -/
def height : Word → Int
  | [] => 0
  | l :: w => l.rise + height w

@[simp] theorem height_nil : height [] = 0 := rfl

@[simp] theorem height_cons (l : Letter) (w : Word) : height (l :: w) = l.rise + height w := rfl

/-- That a word takes back as many states as it keeps, each after it was kept. -/
structure Balanced (w : Word) : Prop where
  above (u : Word) (h : u <+: w) : 0 ≤ height u
  level : height w = 0

/-- The number of states kept after a word, unless it takes back what is not
there. -/
def depthFrom (depth : Nat) (w : Word) : Option Nat := w.foldlM Letter.depthAfter depth

theorem depthFrom_nil (d : Nat) : depthFrom d [] = some d := rfl

theorem depthFrom_cons (d : Nat) (l : Letter) (w : Word) :
    depthFrom d (l :: w) = (l.depthAfter d).bind fun e => depthFrom e w :=
  List.foldlM_cons

theorem depthFrom_append (d : Nat) (u v : Word) :
    depthFrom d (u ++ v) = (depthFrom d u).bind fun e => depthFrom e v :=
  List.foldlM_append

/-- A word stays above the ground if its first letter does and the others do from
where that leads. -/
theorem above_cons_iff {d : Int} {l : Letter} {w : Word} :
    (∀ u, u <+: l :: w → 0 ≤ d + height u) ↔ 0 ≤ d ∧ ∀ u, u <+: w → 0 ≤ d + l.rise + height u := by
  constructor
  · intro h
    refine ⟨by simpa using h [] List.nil_prefix, fun u hu => ?_⟩
    have := h (l :: u) (List.cons_prefix_cons.2 ⟨rfl, hu⟩)
    rwa [height_cons, ← Int.add_assoc] at this
  · rintro ⟨hd, h⟩ u hu
    rcases List.prefix_cons_iff.1 hu with rfl | ⟨u, rfl, hrest⟩
    · rwa [height_nil, Int.add_zero]
    · rw [height_cons, ← Int.add_assoc]
      exact h u hrest

/-- Depths are heights above the one at the start. -/
theorem depthFrom_eq_some_iff {w : Word} {d e : Nat} :
    depthFrom d w = some e ↔ (∀ u, u <+: w → 0 ≤ d + height u) ∧ d + height w = e := by
  induction w generalizing d with
  | nil =>
      simp only [List.prefix_nil, forall_eq, depthFrom_nil, Option.some_inj, height_nil]
      omega
  | cons l w ih =>
      rw [depthFrom_cons, Option.bind_eq_some_iff, above_cons_iff, height_cons]
      constructor
      · rintro ⟨d', hd', h⟩
        rw [Letter.depthAfter_eq_some_iff] at hd'
        obtain ⟨habove, hlevel⟩ := ih.1 h
        rw [hd', ← Int.add_assoc, hd']
        exact ⟨⟨Int.natCast_nonneg d, habove⟩, hlevel⟩
      · rintro ⟨⟨-, habove⟩, hlevel⟩
        have hnext : 0 ≤ d + l.rise := by simpa using habove [] List.nil_prefix
        obtain ⟨d', hd'⟩ := Int.eq_ofNat_of_zero_le hnext
        rw [← Int.add_assoc] at hlevel
        rw [hd'] at habove hlevel
        exact ⟨d', Letter.depthAfter_eq_some_iff.2 hd', ih.2 ⟨habove, hlevel⟩⟩

theorem balanced_iff {w : Word} : Balanced w ↔ depthFrom 0 w = some 0 := by
  rw [depthFrom_eq_some_iff]
  simp only [Int.ofNat_zero, Int.zero_add]
  exact ⟨fun h => ⟨h.above, h.level⟩, fun h => ⟨h.1, h.2⟩⟩

instance (w : Word) : Decidable (Balanced w) := decidable_of_iff _ balanced_iff.symm

theorem Balanced.depthFrom {w : Word} (h : Balanced w) (d : Nat) : depthFrom d w = some d := by
  rw [depthFrom_eq_some_iff, h.level]
  refine ⟨fun u hu => ?_, Int.add_zero _⟩
  have := h.above u hu
  omega

/-- Words that do what the letters do in whose place they come do together what
the letters do together. -/
theorem depthFrom_flatten {w : Word} {parts : List Word}
    (h : List.Forall₂ (fun l u => ∀ d, depthFrom d u = l.depthAfter d) w parts) (d : Nat) :
    depthFrom d parts.flatten = depthFrom d w := by
  induction h generalizing d with
  | nil => rfl
  | cons hfirst _ ih =>
      rw [List.flatten_cons, depthFrom_append, depthFrom_cons, hfirst]
      exact congrArg _ (funext ih)

end Word

namespace System

open Word

variable {σ : Type} {draw : σ → Float × σ} {s s' : System} {random random' : σ}

/-- That a system is written with balanced words throughout and has no rule for
a bracket. Only brackets that can turn up count: what matches letters by how
they are written may match some bracket that nobody writes. -/
structure KeepsBrackets (s : System) : Prop where
  initiator : Balanced s.initiator
  replacements : ∀ r ∈ s.rules, ∀ w ∈ Rule.replacements r, Balanced w
  unmatched : ∀ r ∈ s.rules, ∀ l, s.Offers l → l.IsBracket → r.accepts l = false

namespace KeepsBrackets

/-- What comes of a letter does to the states kept what the letter does. -/
theorem depthFrom_of_writes (h : s.KeepsBrackets) {l : Letter} {u : Word} (hl : s.Offers l)
    (hu : Writes s.rules l u) (d : Nat) : depthFrom d u = l.depthAfter d := by
  cases hu with
  | kept _ =>
      rw [depthFrom_cons]
      exact Option.bind_fun_some _
  | rewritten hr hu =>
      have hmem := List.mem_of_find?_eq_some hr
      have hplain : ¬ l.IsBracket := fun hbracket => by
        have haccepts := List.find?_some hr
        rw [h.unmatched _ hmem l hl hbracket] at haccepts
        cases haccepts
      rw [(h.replacements _ hmem u hu).depthFrom, Letter.depthAfter_of_not_isBracket hplain]

/-- A generation does not change what a word does to the states kept. -/
theorem depthFrom_of_parts (h : s.KeepsBrackets) {w : Word} {parts : List Word}
    (hw : ∀ l ∈ w, s.Offers l) (hparts : List.Forall₂ (Writes s.rules) w parts) (d : Nat) :
    depthFrom d parts.flatten = depthFrom d w := by
  have heach : List.Forall₂ (fun l u => s.Offers l ∧ Writes s.rules l u) w parts :=
    (List.forall₂_and_left w parts).2 ⟨hw, hparts⟩
  exact depthFrom_flatten (heach.imp fun _ _ h' => h.depthFrom_of_writes h'.1 h'.2) d

end KeepsBrackets

/-- However a system is reset, rewritten and grown, and whatever fails on the
way, the turtle never finds its stack empty and leaves nothing on it. -/
theorem balanced_of_reaches (h : s.KeepsBrackets) (hstate : s.state = s.initiator)
    (hreaches : Reaches draw s random s' random') : Balanced s'.state := by
  have hfirst : Balanced s.initiator ∧ ∀ l ∈ s.initiator, s.Offers l :=
    ⟨h.initiator, fun l hl => Or.inl hl⟩
  have hkept : Balanced s'.state ∧ ∀ l ∈ s'.state, s.Offers l := by
    refine hreaches.keeps (P := fun w => Balanced w ∧ ∀ l ∈ w, s.Offers l)
      (hstate ▸ hfirst) hfirst ?_
    rintro w v source source' ⟨hbalanced, hoffers⟩ hsuccessor
    obtain ⟨parts, hparts, rfl⟩ := parts_of_successor hsuccessor
    refine ⟨?_, offers_of_parts hparts hoffers⟩
    rw [balanced_iff, h.depthFrom_of_parts hoffers hparts, ← balanced_iff]
    exact hbalanced
  exact hkept.1

/-- Branches that sprout at random: the first generation comes about, the
second draws a number that leads nowhere, and the state is balanced still. -/
theorem balanced_of_reaches_sprouting :
    let stem : Letter := ⟨.forward, "F", []⟩
    let push : Letter := ⟨.pushState, "[", []⟩
    let pop : Letter := ⟨.popState, "]", []⟩
    let sprout : StochasticRule := ⟨none, .forward,
      [⟨0.0, 0.5, ⟨none, .kind .forward, [stem, push, stem, pop]⟩⟩,
        ⟨0.5, 1.0, ⟨none, .kind .forward, [stem, stem]⟩⟩]⟩
    let s := (System.new [stem, push, stem, pop] 2).addRule (.stochastic sprout)
    let grown := s.rewrite RandomSource.draw (.ofList [0.25, 0.75, 2.0])
    let failed := grown.2.1.rewrite RandomSource.draw grown.2.2
    s.KeepsBrackets ∧ s.state = s.initiator ∧ grown.1 = .ok () ∧
      failed.1 = .error (.noRuleMatched 2.0) ∧
      failed.2.1.state = [stem, push, stem, pop, push, stem, stem, pop] ∧
      Balanced failed.2.1.state := by
  intro stem push pop sprout s grown failed
  have hkeeps : s.KeepsBrackets := by
    refine ⟨by decide, by decide, fun r hr l _ hl => ?_⟩
    obtain rfl := List.mem_singleton.1 hr
    rcases hl with hl | hl
    · rw [Rule.accepts, StochasticRule.accepts, hl]
      rfl
    · rw [Rule.accepts, StochasticRule.accepts, hl]
      rfl
  -- Numbers are compared by evaluation, which wants terms without variables.
  have hgrown : grown = (.ok (),
      { s with state := [stem, push, stem, pop, push, stem, stem, pop], generation := 1 },
      .cycle [0.25, 0.75, 2.0] [2.0]) :=
    rewrite_of_ok RandomSource.draw (by subst s sprout stem push pop; rfl)
  have hfailed : failed =
      (.error (.noRuleMatched 2.0), grown.2.1, .cycle [0.25, 0.75, 2.0] []) :=
    rewrite_of_error RandomSource.draw (by rw [hgrown]; subst s sprout stem push pop; rfl)
  refine ⟨hkeeps, rfl, by rw [hgrown], by rw [hfailed], by rw [hfailed, hgrown], ?_⟩
  exact balanced_of_reaches hkeeps rfl (.rewrite (.rewrite .start))

end System

end Lindenmayer
