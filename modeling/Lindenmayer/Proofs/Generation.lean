import Lindenmayer.Rewriting.System

/-!
# One generation, letter by letter

Rewriting works on a tape, takes letters off its front and hands a source of
numbers from rule to rule. What comes of it can be said without any of that:
every letter has a contribution of its own, which depends on the first rule
that matches it and, where that rule is stochastic, on one number; the next
state is the contributions one after the other. `successor` says so, by
recursion on the word.

The tape enters the comparison only through its two ends: `sweep_eq` holds
from any tape, with what is behind it in front of what `successor` makes of
the letters ahead. Which numbers were drawn is then a fact about `successor`
alone. A letter takes a number exactly if its first rule is stochastic, so the
number that a letter sees is the one after as many draws as there are such
letters before it, and that is also where a failing generation leaves the
source.
-/

namespace Lindenmayer.System

variable {σ : Type} (draw : σ → Float × σ) (rules : List Rule)

/-- The first rule, in the order they were added, that matches a letter. -/
def firstRule (l : Letter) : Option Rule := rules.find? (·.accepts l)

/-- Whether a letter takes a number: whether its first rule is stochastic. -/
def takesNumber (l : Letter) : Bool :=
  match firstRule rules l with
  | some (.stochastic _) => true
  | _ => false

/-- What comes in the place of a letter, if `x` is the number that is drawn
for it. There is nothing if `x` lies in no interval. -/
def contribution (x : Float) (l : Letter) : Option Word :=
  match firstRule rules l with
  | none => some [l]
  | some (.simple r) => some r.replacement
  | some (.stochastic r) =>
    (r.intervals.find? fun i => i.start <= x && x < i.stop).map fun i => i.rule.replacement

/-- The contributions of a word from left to right, or the first number that
leads nowhere; and the source afterwards. -/
def successor : Word → σ → Except Float Word × σ
  | [], source => (.ok [], source)
  | l :: w, source =>
    let (x, drawn) := draw source
    let source := if takesNumber rules l then drawn else source
    match contribution rules x l with
    | none => (.error x, source)
    | some u =>
      match successor w source with
      | (.ok v, source) => (.ok (u ++ v), source)
      | (.error x, source) => (.error x, source)

/-- A source after some numbers were drawn from it. -/
def afterDraws : Nat → σ → σ
  | 0, source => source
  | n + 1, source => afterDraws n (draw source).2

/-! ## The tape -/

theorem sweep_nil {t : Tape} (ha : t.ahead = []) (source : σ) :
    sweep draw rules t source = (.ok t.output, source) := by
  rw [sweep]
  split
  · rfl
  · next l w h => rw [ha] at h; cases h

/-- One step of a sweep, in terms of the letter that the tape shows. -/
theorem sweep_cons {t : Tape} {l : Letter} {w : Word} (ha : t.ahead = l :: w) (source : σ) :
    sweep draw rules t source =
      (let (x, drawn) := draw source
       let source := if takesNumber rules l then drawn else source
       match contribution rules x l with
       | none => (.error (.noRuleMatched x), source)
       | some u => sweep draw rules (t.advance.write u) source) := by
  rw [sweep]
  split
  · next h => rw [ha] at h; cases h
  · next l' w' h =>
      obtain ⟨rfl, rfl⟩ : l = l' ∧ w = w' := by rw [ha] at h; cases h; exact ⟨rfl, rfl⟩
      cases hf : rules.find? (·.accepts l) with
      | none => simp only [takesNumber, contribution, firstRule, hf, Bool.false_eq_true, if_false]
      | some r =>
          cases r with
          | simple r =>
              simp only [takesNumber, contribution, firstRule, hf, Rule.rewrite,
                SimpleRule.rewrite, Bool.false_eq_true, if_false]
          | stochastic r =>
              simp only [takesNumber, contribution, firstRule, hf, Rule.rewrite,
                StochasticRule.rewrite, StochasticRule.pick, if_true]
              cases hi : r.intervals.find? fun i =>
                  i.start <= (draw source).1 && (draw source).1 < i.stop with
              | none => simp only [Option.map_none]
              | some i => simp only [Option.map_some, SimpleRule.rewrite]

/-- A sweep puts what `successor` makes of the letters ahead behind what was
written already. -/
theorem sweep_eq (w : Word) : ∀ (t : Tape) (source : σ), t.ahead = w →
    sweep draw rules t source =
      match successor draw rules w source with
      | (.ok v, source) => (.ok (t.output ++ v), source)
      | (.error x, source) => (.error (.noRuleMatched x), source) := by
  induction w with
  | nil =>
      intro t source ha
      rw [sweep_nil draw rules ha, successor]
      dsimp only
      rw [List.append_nil]
  | cons l w ih =>
      intro t source ha
      rw [sweep_cons draw rules ha, successor]
      dsimp only
      cases contribution rules (draw source).1 l with
      | none => rfl
      | some u =>
          have hahead : (t.advance.write u).ahead = w := by
            simp only [Tape.write, Tape.advance, ha, List.tail_cons]
          dsimp only
          rw [ih _ _ hahead, Tape.output_write, Tape.output_advance]
          rcases successor draw rules w _ with ⟨x | v, source'⟩
          · rfl
          · dsimp only
            rw [List.append_assoc]

/-! ## The numbers -/

/-- Only a letter that takes a number can fail to contribute. -/
theorem takesNumber_of_contribution_none {x : Float} {l : Letter}
    (h : contribution rules x l = none) : takesNumber rules l = true := by
  unfold contribution at h
  unfold takesNumber
  split at h
  · cases h
  · cases h
  · next r hr => rw [hr]

/-- What a generation of `w` does to the source: it takes a number for each
letter that needs one, in their order, up to the first number that leads
nowhere. -/
def DrawsInOrder (w : Word) (source : σ) : Except Float Word × σ → Prop
  | (.ok _, source') => source' = afterDraws draw (w.countP (takesNumber rules)) source
  | (.error x, source') =>
    ∃ before l after, w = before ++ l :: after ∧
      takesNumber rules l = true ∧ contribution rules x l = none ∧
      (x, source') = draw (afterDraws draw (before.countP (takesNumber rules)) source)

/-- A letter in front takes its number first. -/
theorem afterDraws_cons (l : Letter) (w : Word) (source : σ) :
    afterDraws draw ((l :: w).countP (takesNumber rules)) source =
      afterDraws draw (w.countP (takesNumber rules))
        (if takesNumber rules l then (draw source).2 else source) := by
  rw [List.countP_cons]
  split
  · rfl
  · rfl

theorem successor_drawsInOrder (w : Word) : ∀ (source : σ),
    DrawsInOrder draw rules w source (successor draw rules w source) := by
  induction w with
  | nil => intro source; rfl
  | cons l w ih =>
      intro source
      rw [successor]
      dsimp only
      cases hc : contribution rules (draw source).1 l with
      | none =>
          have htakes := takesNumber_of_contribution_none rules hc
          refine ⟨[], l, w, rfl, htakes, hc, ?_⟩
          rw [if_pos htakes]
          rfl
      | some u =>
          dsimp only
          have hw := ih (if takesNumber rules l then (draw source).2 else source)
          generalize successor draw rules w _ = result at hw ⊢
          rcases result with ⟨x | v, source'⟩
          · obtain ⟨before, m, after, rfl, hm, hnone, hdraw⟩ := hw
            refine ⟨l :: before, m, after, rfl, hm, hnone, ?_⟩
            rw [afterDraws_cons]
            exact hdraw
          · show source' = _
            rw [afterDraws_cons]
            exact hw

/-! ## The system -/

/-- Rewriting a system puts the contributions of its letters in the place of
its state and counts one generation more. Where a number leads nowhere the
system stays as it was, and only the source has moved on. -/
theorem rewrite_eq_successor (s : System) (source : σ) :
    s.rewrite draw source =
      (match successor draw s.rules s.state source with
       | (.ok w, source) =>
         (.ok (), { s with state := w, generation := s.generation + 1 }, source)
       | (.error x, source) => (.error (.noRuleMatched x), s, source)) ∧
    DrawsInOrder draw s.rules s.state source (successor draw s.rules s.state source) := by
  refine ⟨?_, successor_drawsInOrder draw s.rules s.state source⟩
  rw [rewrite, sweep_eq draw s.rules s.state (Tape.ofWord s.state) source rfl]
  rcases successor draw s.rules s.state source with ⟨x | w, source'⟩
  · rfl
  · rfl

end Lindenmayer.System
