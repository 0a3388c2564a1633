import Mathlib.Data.List.Chain
import Lindenmayer.Proofs.Doubles
import Lindenmayer.Rewriting.RandomSource
import Lindenmayer.Rewriting.Rule

/-!
# Intervals that leave no gap

The bounds of the intervals are sums that were rounded, and no law of arithmetic
says where they are. What is known is that an interval starts where the one
before it stops, with the very same double, so between the start of the first
and the stop of the last nothing is left out, wherever the bounds in between
have come to be (`Contiguous.exists_contains`). They need not even ascend.

The sums of equal parts may fall short of one, which is why the last interval is
made to stop there; and they may go beyond it, which does no harm. With weights
of one's own the last interval stops where the sums end. Where they ascend, the
intervals have no number in common either, and a number in none of them is below
the first or beyond the last.
-/

namespace Lindenmayer

open Double (IsPositive)

/-- Whether a number leads to an alternative. -/
def Interval.Contains (i : Interval) (x : Float) : Prop := i.start ≤ x ∧ x < i.stop

/-- Whether each interval starts where the one before it stops, and the first one
at a given bound. -/
def Contiguous (start : Float) : List Interval → Prop
  | [] => True
  | i :: more => i.start = start ∧ Contiguous i.stop more

namespace Contiguous

variable {start x : Float} {intervals : List Interval}

/-- Where the last interval stops is of no matter. -/
theorem concat {last last' : Interval} (h : Contiguous start (intervals ++ [last]))
    (hstart : last'.start = last.start) : Contiguous start (intervals ++ [last']) := by
  induction intervals generalizing start with
  | nil => exact ⟨hstart.trans h.1, trivial⟩
  | cons i more ih => exact ⟨h.1, ih h.2⟩

/-- A number from the first bound up to the last leads to some alternative. -/
theorem exists_contains (h : Contiguous start intervals) (hne : intervals ≠ [])
    (hstops : ∀ i ∈ intervals, i.stop.isNaN = false) (hx : start ≤ x)
    (hlast : ∀ last ∈ intervals.getLast?, x < last.stop) :
    ∃ i ∈ intervals, i.Contains x := by
  induction intervals generalizing start with
  | nil => exact absurd rfl hne
  | cons i more ih =>
      obtain ⟨hstart, hmore⟩ := h
      by_cases hstop : x < i.stop
      · exact ⟨i, List.mem_cons_self, hstart ▸ hx, hstop⟩
      · -- Then the number is not below the start of the next interval.
        have hnext : i.stop ≤ x := Double.le_of_not_lt (Double.isNaN_of_le hx).2
          (hstops i List.mem_cons_self) hstop
        cases more with
        | nil => exact absurd (hlast i rfl) hstop
        | cons j more =>
            obtain ⟨k, hk, hcontains⟩ := ih hmore (List.cons_ne_nil j more)
              (fun k hk => hstops k (List.mem_cons_of_mem i hk)) hnext hlast
            exact ⟨k, List.mem_cons_of_mem i hk, hcontains⟩

/-- Intervals that ascend start at the first bound or above it. -/
theorem le_start (h : Contiguous start intervals)
    (hascend : ∀ i ∈ intervals, i.start ≤ i.stop) :
    ∀ i ∈ intervals, start ≤ i.start := by
  induction intervals generalizing start with
  | nil => exact fun i hi => absurd hi List.not_mem_nil
  | cons i more ih =>
      obtain ⟨rfl, hmore⟩ := h
      have hi := hascend i List.mem_cons_self
      refine List.forall_mem_cons.2 ⟨Double.le_refl (Double.isNaN_of_le hi).1, fun j hj => ?_⟩
      exact Double.le_trans hi (ih hmore (fun j hj => hascend j (List.mem_cons_of_mem i hj)) j hj)

/-- Intervals that ascend stop where the last one does or before. -/
theorem stop_le (h : Contiguous start intervals)
    (hascend : ∀ i ∈ intervals, i.start ≤ i.stop) :
    ∀ last ∈ intervals.getLast?, ∀ i ∈ intervals, i.stop ≤ last.stop := by
  induction intervals generalizing start with
  | nil => exact fun last hlast => nomatch hlast
  | cons i more ih =>
      obtain ⟨-, hmore⟩ := h
      have hi := hascend i List.mem_cons_self
      have hlater := fun j hj => hascend j (List.mem_cons_of_mem i hj)
      cases more with
      | nil =>
          intro last hlast j hj
          obtain rfl := Option.some.inj hlast
          rw [List.mem_singleton.1 hj]
          exact Double.le_refl (Double.isNaN_of_le hi).2
      | cons k more =>
          intro last hlast
          rw [List.getLast?_cons_cons] at hlast
          have hmem := List.mem_of_getLast? hlast
          refine List.forall_mem_cons.2 ⟨?_, ih hmore hlater last hlast⟩
          exact Double.le_trans (le_start hmore hlater last hmem) (hlater last hmem)

/-- Intervals that ascend have no number in common. -/
theorem pairwise_disjoint (h : Contiguous start intervals)
    (hascend : ∀ i ∈ intervals, i.start ≤ i.stop) :
    intervals.Pairwise fun i j => ¬ (i.Contains x ∧ j.Contains x) := by
  induction intervals generalizing start with
  | nil => exact .nil
  | cons i more ih =>
      have hmore := fun j hj => hascend j (List.mem_cons_of_mem i hj)
      refine .cons (fun j hj hboth => ?_) (ih h.2 hmore)
      have hbetween := le_start h.2 hmore j hj
      exact Double.not_lt_of_le (Double.le_trans hbetween hboth.2.1) hboth.1.2

/-- Of intervals that ascend, none has a number just if it is below the first
bound or not below the last. -/
theorem none_contains_iff (h : Contiguous start intervals) (hne : intervals ≠ [])
    (hascend : ∀ i ∈ intervals, i.start ≤ i.stop) (hstart : start.isNaN = false)
    (hx : x.isNaN = false) :
    (∀ i ∈ intervals, ¬ i.Contains x) ↔
      x < start ∨ ∃ last ∈ intervals.getLast?, last.stop ≤ x := by
  constructor
  · intro hnone
    by_contra hinside
    obtain ⟨hlow, hhigh⟩ := not_or.1 hinside
    have hstops : ∀ i ∈ intervals, i.stop.isNaN = false :=
      fun i hi => (Double.isNaN_of_le (hascend i hi)).2
    obtain ⟨i, hi, hcontains⟩ := h.exists_contains hne hstops
      (Double.le_of_not_lt hx hstart hlow) fun last hlast => by
        by_contra hstop
        have hmem := List.mem_of_getLast? hlast
        exact hhigh ⟨last, hlast, Double.le_of_not_lt hx (hstops last hmem) hstop⟩
    exact hnone i hi hcontains
  · rintro (hlow | ⟨last, hlast, hhigh⟩) i hi ⟨hfrom, hto⟩
    · exact Double.not_lt_of_le (Double.le_trans (h.le_start hascend i hi) hfrom) hlow
    · exact Double.not_lt_of_le (Double.le_trans (h.stop_le hascend last hlast i hi) hhigh) hto

end Contiguous

namespace StochasticRule

/-! ## Laying out -/

variable {start : Float} {alternatives : List (SimpleRule × Float)}

theorem contiguous_layOut (start : Float) (alternatives : List (SimpleRule × Float)) :
    Contiguous start (layOut start alternatives) := by
  induction alternatives generalizing start with
  | nil => trivial
  | cons a more ih => exact ⟨rfl, ih (start + a.2)⟩

theorem map_rule_layOut (start : Float) (alternatives : List (SimpleRule × Float)) :
    (layOut start alternatives).map Interval.rule = alternatives.map Prod.fst := by
  induction alternatives generalizing start with
  | nil => rfl
  | cons a more ih => rw [layOut, List.map_cons, List.map_cons, ih]

theorem scanl_eq_cons (start : Float) (weights : List Float) :
    weights.scanl (· + ·) start = start :: (weights.scanl (· + ·) start).tail := by
  cases weights with
  | nil => rfl
  | cons w more => rw [List.scanl_cons, List.tail_cons]

/-- The intervals stop at the sums of the weights so far. -/
theorem map_stop_layOut (start : Float) (alternatives : List (SimpleRule × Float)) :
    (layOut start alternatives).map Interval.stop =
      ((alternatives.map Prod.snd).scanl (· + ·) start).tail := by
  induction alternatives generalizing start with
  | nil => rfl
  | cons a more ih =>
      rw [layOut, List.map_cons, List.map_cons, List.scanl_cons, List.tail_cons, ih,
        ← scanl_eq_cons]

theorem start_le_stop_of_mem_layOut
    (h : ((alternatives.map Prod.snd).scanl (· + ·) start).IsChain (· ≤ ·)) :
    ∀ i ∈ layOut start alternatives, i.start ≤ i.stop := by
  induction alternatives generalizing start with
  | nil => exact fun i hi => absurd hi List.not_mem_nil
  | cons a more ih =>
      rw [List.map_cons, List.scanl_cons] at h
      refine List.forall_mem_cons.2 ⟨?_, ih h.tail⟩
      rw [scanl_eq_cons] at h
      exact (List.isChain_cons_cons.1 h).1

theorem isPositive_of_mem_layOut (hstart : IsPositive start)
    (h : ∀ a ∈ alternatives, IsPositive a.2) :
    ∀ i ∈ layOut start alternatives, IsPositive i.stop := by
  induction alternatives generalizing start with
  | nil => exact fun i hi => absurd hi List.not_mem_nil
  | cons a more ih =>
      have hstop := hstart.add (h a List.mem_cons_self)
      exact List.forall_mem_cons.2 ⟨hstop, ih hstop fun b hb => h b (List.mem_cons_of_mem a hb)⟩

theorem closeLast_concat (front : List Interval) (last : Interval) :
    closeLast (front ++ [last]) = front ++ [{ last with stop := 1.0 }] := by
  induction front with
  | nil => rfl
  | cons i front ih =>
      rw [List.cons_append, List.cons_append, ← ih]
      cases front with
      | nil => rfl
      | cons j front => rfl

/-- Closing the last interval touches none of the bounds that intervals share. -/
theorem closeLast_spec {intervals : List Interval} (hne : intervals ≠ [])
    (h : Contiguous start intervals) (hstops : ∀ i ∈ intervals, i.stop.isNaN = false) :
    Contiguous start (closeLast intervals) ∧
      (closeLast intervals).map Interval.rule = intervals.map Interval.rule ∧
      (∀ i ∈ closeLast intervals, i.stop.isNaN = false) ∧
      ∀ last ∈ (closeLast intervals).getLast?, last.stop = 1.0 := by
  rcases List.eq_nil_or_concat' intervals with rfl | ⟨front, last, rfl⟩
  · exact absurd rfl hne
  · have hone : (1.0 : Float).isNaN = false := by decide +kernel
    rw [closeLast_concat]
    refine ⟨h.concat rfl, ?_, ?_, ?_⟩
    · rw [List.map_append, List.map_append]
      rfl
    · exact List.forall_mem_append.2 ⟨fun i hi => hstops i (List.mem_append_left _ hi),
        List.forall_mem_singleton.2 hone⟩
    · intro i hi
      rw [List.getLast?_concat] at hi
      rw [← Option.some.inj hi]

/-! ## Picking -/

variable {r : StochasticRule} {x : Float} {σ : Type} {draw : σ → Float × σ} {t : Tape} {source : σ}

theorem pick_eq_none_iff : r.pick x = none ↔ ∀ i ∈ r.intervals, ¬ i.Contains x := by
  simp only [pick, Option.map_eq_none_iff, List.find?_eq_none, Interval.Contains,
    Bool.and_eq_true, decide_eq_true_eq]

/-- The first interval with the number decides. -/
theorem pick_of_first {before after : List Interval} {i : Interval}
    (h : r.intervals = before ++ i :: after) (hbefore : ∀ j ∈ before, ¬ j.Contains x)
    (hi : i.Contains x) : r.pick x = some i.rule := by
  have hfind : (r.intervals.find? fun i => i.start <= x && x < i.stop) = some i := by
    rw [List.find?_eq_some_iff_append]
    refine ⟨?_, before, after, h, fun j hj => ?_⟩
    · rw [Bool.and_eq_true, decide_eq_true_eq, decide_eq_true_eq]
      exact hi
    · have hnot := hbefore j hj
      simpa only [Interval.Contains, Bool.not_eq_true', Bool.and_eq_false_iff,
        decide_eq_false_iff_not, not_and_or] using hnot
  rw [pick, hfind, Option.map_some]

theorem exists_pick {i : Interval} (hi : i ∈ r.intervals) (hx : i.Contains x) :
    ∃ j ∈ r.intervals, r.pick x = some j.rule := by
  cases hpick : r.pick x with
  | none => exact absurd hx (pick_eq_none_iff.1 hpick i hi)
  | some rule =>
      obtain ⟨j, hj, rfl⟩ := Option.map_eq_some_iff.1 hpick
      exact ⟨j, List.mem_of_find?_eq_some hj, rfl⟩

theorem rewrite_of_pick {rule : SimpleRule} (h : r.pick (draw source).1 = some rule) :
    r.rewrite draw t source = (.ok (), rule.rewrite t, (draw source).2) := by
  rw [rewrite]
  dsimp only
  rw [h]

theorem rewrite_of_pick_eq_none (h : r.pick (draw source).1 = none) :
    r.rewrite draw t source = (.error (.noRuleMatched (draw source).1), t, (draw source).2) := by
  rw [rewrite]
  dsimp only
  rw [h]

theorem rewrite_eq_error_iff {e : WordError} : (r.rewrite draw t source).1 = .error e ↔
    (∀ i ∈ r.intervals, ¬ i.Contains (draw source).1) ∧ e = .noRuleMatched (draw source).1 := by
  rw [← pick_eq_none_iff]
  cases hpick : r.pick (draw source).1 with
  | none =>
      rw [rewrite_of_pick_eq_none hpick]
      exact ⟨fun h => ⟨rfl, (Except.error.inj h).symm⟩, fun h => by rw [h.2]⟩
  | some rule =>
      rw [rewrite_of_pick hpick]
      exact ⟨nofun, fun h => nomatch h.1⟩

theorem tape_of_error {e : WordError} (h : (r.rewrite draw t source).1 = .error e) :
    (r.rewrite draw t source).2.1 = t := by
  have hnone := pick_eq_none_iff.2 (rewrite_eq_error_iff.1 h).1
  rw [rewrite_of_pick_eq_none hnone]

/-! ## The two ways to make a rule -/

variable {rules : List SimpleRule} {weights : List Float}

theorem exists_ofProbabilities (name : Option String) (expected : LetterKind) (hne : rules ≠ [])
    (hlength : weights.length = rules.length) :
    ∃ r, ofProbabilities name expected rules weights = .ok r ∧
      r.intervals = layOut 0.0 (rules.zip weights) := by
  rw [ofProbabilities, if_neg]
  · exact ⟨_, rfl, rfl⟩
  · simp [hne, hlength]

theorem intervals_ne_nil (h : r.intervals.map Interval.rule = rules) (hne : rules ≠ []) :
    r.intervals ≠ [] := by
  intro hnil
  rw [hnil] at h
  exact hne h.symm

theorem map_rule_layOut_zip (start : Float) (hlength : weights.length = rules.length) :
    (layOut start (rules.zip weights)).map Interval.rule = rules := by
  rw [map_rule_layOut, List.map_fst_zip (Nat.le_of_eq hlength.symm)]

theorem exists_uniform (name : Option String) (expected : LetterKind) (hne : rules ≠ []) :
    ∃ r, uniform name expected rules = .ok r ∧ Contiguous 0.0 r.intervals ∧
      r.intervals.map Interval.rule = rules ∧ (∀ i ∈ r.intervals, i.stop.isNaN = false) ∧
      ∀ last ∈ r.intervals.getLast?, last.stop = 1.0 := by
  have hlength : (List.replicate rules.length (1.0 / Float.ofNat rules.length)).length =
      rules.length := List.length_replicate
  obtain ⟨r, hr, hlaid⟩ := exists_ofProbabilities name expected hne hlength
  have hrules : r.intervals.map Interval.rule = rules := hlaid ▸ map_rule_layOut_zip 0.0 hlength
  have hstops : ∀ i ∈ r.intervals, i.stop.isNaN = false := by
    intro i hi
    rw [hlaid] at hi
    have hzero : IsPositive 0.0 := rfl
    refine (isPositive_of_mem_layOut hzero (fun a ha => ?_) i hi).isNaN
    rw [List.eq_of_mem_replicate (List.of_mem_zip ha).2]
    exact (Double.isPositive_ofNat rules.length).one_div
  obtain ⟨hcontiguous, hsame, hstops, hlast⟩ :=
    closeLast_spec (intervals_ne_nil hrules hne) (hlaid ▸ contiguous_layOut 0.0 _) hstops
  refine ⟨{ r with intervals := closeLast r.intervals }, ?_, hcontiguous, hsame.trans hrules,
    hstops, hlast⟩
  rw [uniform, hr]

/-- A rule whose alternatives are equally likely finds one for each number of the
unit interval. A rule with weights takes the first alternative whose interval has
the number, of intervals that follow on each other from zero and stop at the sums
of the weights; if there is none, it fails with the number and leaves the tape as
it was. Where the sums never decrease, from the zero on that they begin with, the
intervals have no number in common, and the numbers without an alternative are
those below zero and those from the last sum on. -/
theorem rewrite_drawn (name : Option String) (expected : LetterKind) (hne : rules ≠ []) :
    (∃ r, uniform name expected rules = .ok r ∧
      ∀ {σ : Type} (draw : σ → Float × σ) (t : Tape) (source : σ),
        0.0 ≤ (draw source).1 → (draw source).1 < 1.0 →
        ∃ rule ∈ rules, r.rewrite draw t source = (.ok (), rule.rewrite t, (draw source).2)) ∧
    ∀ weights : List Float, weights.length = rules.length →
      ∃ r, ofProbabilities name expected rules weights = .ok r ∧ Contiguous 0.0 r.intervals ∧
        r.intervals.map Interval.rule = rules ∧
        r.intervals.map Interval.stop = (weights.scanl (· + ·) 0.0).tail ∧
        ∀ {σ : Type} (draw : σ → Float × σ) (t : Tape) (source : σ) (x : Float),
          (draw source).1 = x →
          (∀ before i after, r.intervals = before ++ i :: after →
            (∀ j ∈ before, ¬ j.Contains x) → i.Contains x →
            r.rewrite draw t source = (.ok (), i.rule.rewrite t, (draw source).2)) ∧
          (∀ e, (r.rewrite draw t source).1 = .error e ↔
            (∀ i ∈ r.intervals, ¬ i.Contains x) ∧ e = .noRuleMatched x) ∧
          (∀ e, (r.rewrite draw t source).1 = .error e →
            (r.rewrite draw t source).2.1 = t) ∧
          (x.isNaN = false → (weights.scanl (· + ·) 0.0).IsChain (· ≤ ·) →
            (r.intervals.Pairwise fun i j => ¬ (i.Contains x ∧ j.Contains x)) ∧
            ((r.rewrite draw t source).1 = .error (.noRuleMatched x) ↔
              x < 0.0 ∨ ∃ last ∈ r.intervals.getLast?, last.stop ≤ x)) := by
  constructor
  · obtain ⟨r, hr, hcontiguous, hrules, hstops, hlast⟩ := exists_uniform name expected hne
    refine ⟨r, hr, fun draw t source hlow hhigh => ?_⟩
    obtain ⟨i, hi, hx⟩ :=
      hcontiguous.exists_contains (intervals_ne_nil hrules hne) hstops hlow fun last hmem => by
        rw [hlast last hmem]
        exact hhigh
    obtain ⟨j, hj, hpick⟩ := exists_pick hi hx
    refine ⟨j.rule, ?_, rewrite_of_pick hpick⟩
    rw [← hrules]
    exact List.mem_map_of_mem hj
  · intro weights hlength
    obtain ⟨r, hr, hlaid⟩ := exists_ofProbabilities name expected hne hlength
    have hweights : (rules.zip weights).map Prod.snd = weights :=
      List.map_snd_zip (Nat.le_of_eq hlength)
    have hcontiguous := contiguous_layOut 0.0 (rules.zip weights)
    have hrules := map_rule_layOut_zip 0.0 hlength
    have hstops := map_stop_layOut 0.0 (rules.zip weights)
    rw [← hlaid] at hcontiguous hrules hstops
    rw [hweights] at hstops
    refine ⟨r, hr, hcontiguous, hrules, hstops, ?_⟩
    rintro σ draw t source x rfl
    refine ⟨fun before i after hsplit hbefore hi =>
        rewrite_of_pick (pick_of_first hsplit hbefore hi),
      fun e => rewrite_eq_error_iff, fun e => tape_of_error, fun hx hchain => ?_⟩
    have hascend : ∀ i ∈ r.intervals, i.start ≤ i.stop := by
      rw [hlaid]
      refine start_le_stop_of_mem_layOut ?_
      rw [hweights]
      exact hchain
    have hintervals := intervals_ne_nil hrules hne
    refine ⟨hcontiguous.pairwise_disjoint hascend, ?_⟩
    rw [rewrite_eq_error_iff, ← hcontiguous.none_contains_iff hintervals hascend rfl hx]
    exact and_iff_left rfl

/-- Weights that add up to seven tenths: a number between the first sum and the
second leads to the alternative in the middle, and one beyond the last sum is
refused, where alternatives of equal weight have an answer for it. -/
theorem rewrite_drawn_weighted :
    ∃ (first middle last : SimpleRule) (t : Tape), [first, middle, last] ≠ [] ∧
      ([0.1, 0.1, 0.5] : List Float).scanl (· + ·) 0.0 = [0.0, 0.1, 0.2, 0.7] ∧
      (∃ r, uniform none .forward [first, middle, last] = .ok r ∧
        ∃ rule ∈ [first, middle, last],
          r.rewrite RandomSource.draw t (.fixed 0.9) = (.ok (), rule.rewrite t, .fixed 0.9)) ∧
      ∃ r, ofProbabilities none .forward [first, middle, last] [0.1, 0.1, 0.5] = .ok r ∧
        r.rewrite RandomSource.draw t (.fixed 0.15) = (.ok (), middle.rewrite t, .fixed 0.15) ∧
        (r.rewrite RandomSource.draw t (.fixed 0.9)).1 = .error (.noRuleMatched 0.9) ∧
        (r.rewrite RandomSource.draw t (.fixed 0.9)).2.1 = t := by
  let rule : Nat → SimpleRule := fun n =>
    ⟨none, .kind .forward, List.replicate n ⟨.forward, "F", []⟩⟩
  let t := Tape.ofWord [⟨.forward, "F", []⟩]
  have hne : [rule 1, rule 2, rule 3] ≠ [] := List.cons_ne_nil _ _
  obtain ⟨⟨u, hu, hunit⟩, hweighted⟩ := rewrite_drawn none .forward hne
  obtain ⟨r, hr, -, -, -, hrewrite⟩ := hweighted [0.1, 0.1, 0.5] rfl
  have hsplit : r.intervals = [⟨0.0, 0.0 + 0.1, rule 1⟩] ++
      ⟨0.0 + 0.1, 0.0 + 0.1 + 0.1, rule 2⟩ ::
        [⟨0.0 + 0.1 + 0.1, 0.0 + 0.1 + 0.1 + 0.5, rule 3⟩] := by
    cases hr
    rfl
  have hsums : ([0.1, 0.1, 0.5] : List Float).scanl (· + ·) 0.0 = [0.0, 0.1, 0.2, 0.7] := by
    decide +kernel
  have hchain : (([0.1, 0.1, 0.5] : List Float).scanl (· + ·) 0.0).IsChain (· ≤ ·) := by
    decide +kernel
  obtain ⟨hpicked, -⟩ := hrewrite RandomSource.draw t (.fixed 0.15) 0.15 rfl
  obtain ⟨-, -, htape, hrefused⟩ := hrewrite RandomSource.draw t (.fixed 0.9) 0.9 rfl
  have hbeyond : ∃ last ∈ r.intervals.getLast?, last.stop ≤ 0.9 := by
    rw [hsplit]
    have hstop : 0.0 + 0.1 + 0.1 + 0.5 ≤ (0.9 : Float) := by decide +kernel
    exact ⟨_, rfl, hstop⟩
  have herror := (hrefused (by decide +kernel) hchain).2.2 (Or.inr hbeyond)
  refine ⟨rule 1, rule 2, rule 3, t, hne, hsums, ⟨u, hu, ?_⟩, r, hr, ?_, herror,
    htape _ herror⟩
  · exact hunit RandomSource.draw t (.fixed 0.9) (by decide +kernel) (by decide +kernel)
  · have hfirst : ¬ (0.15 : Float) < 0.0 + 0.1 := by decide +kernel
    have hmiddle : 0.0 + 0.1 ≤ (0.15 : Float) ∧ (0.15 : Float) < 0.0 + 0.1 + 0.1 := by
      decide +kernel
    exact hpicked _ _ _ hsplit (List.forall_mem_singleton.2 fun h => hfirst h.2) hmiddle

end StochasticRule

end Lindenmayer
