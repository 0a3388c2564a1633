import Lindenmayer.Proofs.Generation
import Mathlib.Logic.Function.Iterate

/-!
# Whole runs, generation by generation

A run puts a system back to its first word and rewrites it as often as is
desired. `Leads` is the reference: so many generations, each as `successor`
says, from one word and source to another. A run follows it until it is through
or a generation fails (`rewriteTimes_follows`), and the word and the count that
it leaves are those of the last generation that succeeded.

What a run takes from outside are numbers. Two sources that give the same
numbers, as many as are drawn, cannot be told apart by a run, whatever states
they keep (`rewriteTimes_of_sameNumbers`). Without stochastic rules no number is
drawn at all; a generation is then `flatMap` of the letters' images, and
everything that is said of such runs is said of an iterated `flatMap`.
-/

namespace Lindenmayer.System

variable {σ τ : Type} (draw : σ → Float × σ) (rules : List Rule)

/-- So many generations in a row lead from one word and source to another. -/
inductive Leads : Nat → Word → σ → Word → σ → Prop
  | refl (w : Word) (source : σ) : Leads 0 w source w source
  | step {n : Nat} {w u v : Word} {source source₁ source₂ : σ}
    (hfirst : successor draw rules w source = (.ok u, source₁))
    (hmore : Leads n u source₁ v source₂) : Leads (n + 1) w source v source₂

/-- How a run of so many generations ends: with all of them behind it, or at the
first that fails. -/
def Follows (s : System) (n : Nat) (source : σ) : Except WordError Unit × System × σ → Prop
  | (.ok (), s', source') =>
    s' = { s with state := s'.state, generation := s.generation + n } ∧
      Leads draw s.rules n s.state source s'.state source'
  | (.error e, s', source') =>
    ∃ k source₁ x, k < n ∧ s' = { s with state := s'.state, generation := s.generation + k } ∧
      Leads draw s.rules k s.state source s'.state source₁ ∧
      successor draw s.rules s'.state source₁ = (.error x, source') ∧ e = .noRuleMatched x

/-! ## One generation of a system -/

theorem rewrite_of_ok {s : System} {source source' : σ} {w : Word}
    (h : successor draw s.rules s.state source = (.ok w, source')) :
    s.rewrite draw source =
      (.ok (), { s with state := w, generation := s.generation + 1 }, source') := by
  rw [rewrite, sweep_eq draw s.rules s.state (Tape.ofWord s.state) source rfl, h]
  rfl

theorem rewrite_of_error {s : System} {source source' : σ} {x : Float}
    (h : successor draw s.rules s.state source = (.error x, source')) :
    s.rewrite draw source = (.error (.noRuleMatched x), s, source') := by
  rw [rewrite, sweep_eq draw s.rules s.state (Tape.ofWord s.state) source rfl, h]

/-! ## Generations in a row -/

theorem rewriteTimes_of_ok {s : System} {source source' : σ} {w : Word} (n : Nat)
    (h : successor draw s.rules s.state source = (.ok w, source')) :
    rewriteTimes draw (n + 1) s source =
      rewriteTimes draw n { s with state := w, generation := s.generation + 1 } source' := by
  rw [rewriteTimes, rewrite_of_ok draw h]

theorem rewriteTimes_of_error {s : System} {source source' : σ} {x : Float} (n : Nat)
    (h : successor draw s.rules s.state source = (.error x, source')) :
    rewriteTimes draw (n + 1) s source = (.error (.noRuleMatched x), s, source') := by
  rw [rewriteTimes, rewrite_of_error draw h]

/-- A run goes through generations until it is through or one fails. -/
theorem rewriteTimes_follows (n : Nat) : ∀ (s : System) (source : σ),
    Follows draw s n source (rewriteTimes draw n s source) := by
  induction n with
  | zero => intro s source; exact ⟨rfl, .refl _ _⟩
  | succ n ih =>
      intro s source
      rcases hw : successor draw s.rules s.state source with ⟨x | w, source₁⟩
      · rw [rewriteTimes_of_error draw n hw]
        exact ⟨0, source, x, Nat.succ_pos n, rfl, .refl _ _, hw, rfl⟩
      · rw [rewriteTimes_of_ok draw n hw]
        have hrest := ih { s with state := w, generation := s.generation + 1 } source₁
        generalize rewriteTimes draw n _ source₁ = result at hrest ⊢
        -- What is left of the run starts one generation on, and counts on from there.
        rcases result with ⟨e | u, s', source'⟩
        · obtain ⟨k, source₂, x, hk, hs', hleads, hfail, he⟩ := hrest
          refine ⟨k + 1, source₂, x, Nat.succ_lt_succ hk, ?_, .step hw hleads, hfail, he⟩
          rw [Nat.add_comm k 1, ← Nat.add_assoc]
          exact hs'
        · obtain ⟨hs', hleads⟩ := hrest
          refine ⟨?_, .step hw hleads⟩
          rw [Nat.add_comm n 1, ← Nat.add_assoc]
          exact hs'

/-- Whatever becomes of a run, all but the state and the count stays. -/
theorem system_rewriteTimes (n : Nat) (s : System) (source : σ) :
    (rewriteTimes draw n s source).2.1 =
      { s with
        state := (rewriteTimes draw n s source).2.1.state
        generation := (rewriteTimes draw n s source).2.1.generation } := by
  have hfollows := rewriteTimes_follows draw n s source
  generalize rewriteTimes draw n s source = result at hfollows ⊢
  rcases result with ⟨e | u, s', source'⟩
  · obtain ⟨k, source₁, x, _, hs', _⟩ := hfollows
    rw [hs']
  · obtain ⟨hs', _⟩ := hfollows
    rw [hs']

/-! ## The numbers that are drawn -/

/-- Whether two sources give the same first numbers. -/
def SameNumbers (draw : σ → Float × σ) (draw' : τ → Float × τ) (m : Nat) (source : σ)
    (source' : τ) : Prop :=
  ∀ k < m, (draw (afterDraws draw k source)).1 = (draw' (afterDraws draw' k source')).1

theorem afterDraws_add (m k : Nat) (source : σ) :
    afterDraws draw (m + k) source = afterDraws draw k (afterDraws draw m source) := by
  induction m generalizing source with
  | zero => rw [Nat.zero_add, afterDraws]
  | succ m ih => rw [Nat.succ_add, afterDraws, afterDraws, ih]

namespace SameNumbers

variable {draw : σ → Float × σ} {draw' : τ → Float × τ} {m k : Nat} {source : σ} {source' : τ}

theorem of_add (h : SameNumbers draw draw' (m + k) source source') :
    SameNumbers draw draw' m source source' :=
  fun i hi => h i (Nat.lt_add_right k hi)

/-- The numbers after the first ones. -/
theorem after (h : SameNumbers draw draw' (m + k) source source') :
    SameNumbers draw draw' k (afterDraws draw m source) (afterDraws draw' m source') := by
  intro i hi
  rw [← afterDraws_add, ← afterDraws_add]
  exact h (m + i) (Nat.add_lt_add_left hi m)

end SameNumbers

/-- What a letter that takes no number contributes has nothing to do with
numbers. -/
theorem contribution_of_not_takesNumber {rules : List Rule} {l : Letter}
    (h : takesNumber rules l = false) (x y : Float) :
    contribution rules x l = contribution rules y l := by
  unfold takesNumber at h
  unfold contribution
  split at h
  · cases h
  · next hne =>
      split
      · rfl
      · rfl
      · next r hr => exact absurd hr (hne r)

/-- Where the first letter has something to contribute, the others go on from
the source that it left. -/
theorem successor_cons_of_some {l : Letter} {u : Word} {source source₁ : σ} (w : Word)
    (hc : contribution rules (draw source).1 l = some u)
    (hsource : (if takesNumber rules l then (draw source).2 else source) = source₁) :
    successor draw rules (l :: w) source =
      ((successor draw rules w source₁).1.map (u ++ ·), (successor draw rules w source₁).2) := by
  rw [successor]
  dsimp only
  rw [hc, hsource]
  rcases successor draw rules w source₁ with ⟨x | v, source₂⟩
  · rfl
  · rfl

/-- A first letter that has nothing to contribute ends the generation with the
number that it took. -/
theorem successor_cons_of_none {l : Letter} {source : σ} (w : Word)
    (hc : contribution rules (draw source).1 l = none) :
    successor draw rules (l :: w) source = (.error (draw source).1, (draw source).2) := by
  rw [successor]
  dsimp only
  rw [hc, if_pos (takesNumber_of_contribution_none rules hc)]

/-- What a generation makes of a word hangs on the numbers that it draws, and
not on where they come from. -/
theorem successor_of_sameNumbers (w : Word) : ∀ source : σ, ∃ m,
    (successor draw rules w source).2 = afterDraws draw m source ∧
    ∀ {τ : Type} (draw' : τ → Float × τ) (source' : τ), SameNumbers draw draw' m source source' →
      successor draw' rules w source' =
        ((successor draw rules w source).1, afterDraws draw' m source') := by
  induction w with
  | nil => intro source; exact ⟨0, rfl, fun _ _ _ => rfl⟩
  | cons l w ih =>
      intro source
      cases hc : contribution rules (draw source).1 l with
      | none =>
          rw [successor_cons_of_none draw rules w hc]
          refine ⟨1, rfl, fun draw' source' h => ?_⟩
          have hx : (draw source).1 = (draw' source').1 := h 0 Nat.one_pos
          rw [hx] at hc ⊢
          exact successor_cons_of_none draw' rules w hc
      | some u =>
          cases htakes : takesNumber rules l with
          | false =>
              have hnot := Bool.eq_false_iff.1 htakes
              obtain ⟨m, hm, hsame⟩ := ih source
              rw [successor_cons_of_some draw rules w hc (if_neg hnot)]
              refine ⟨m, hm, fun draw' source' h => ?_⟩
              rw [contribution_of_not_takesNumber htakes _ (draw' source').1] at hc
              rw [successor_cons_of_some draw' rules w hc (if_neg hnot), hsame draw' source' h]
          | true =>
              obtain ⟨m, hm, hsame⟩ := ih (draw source).2
              rw [successor_cons_of_some draw rules w hc (if_pos htakes)]
              refine ⟨1 + m, by rw [afterDraws_add]; exact hm, fun draw' source' h => ?_⟩
              have hx : (draw source).1 = (draw' source').1 := h 0 (Nat.add_pos_left Nat.one_pos m)
              rw [hx] at hc
              rw [successor_cons_of_some draw' rules w hc (if_pos htakes), afterDraws_add]
              have hrest : successor draw' rules w (draw' source').2 =
                  ((successor draw rules w (draw source).2).1,
                    afterDraws draw' m (draw' source').2) := hsame draw' _ h.after
              rw [hrest]
              rfl

/-- The same of a whole run, and of another system with the same words and
rules. -/
theorem rewriteTimes_of_sameNumbers (n : Nat) : ∀ (s : System) (source : σ), ∃ m,
    (rewriteTimes draw n s source).2.2 = afterDraws draw m source ∧
    ∀ {τ : Type} (draw' : τ → Float × τ) (source' : τ) (parameters : Parameters),
      SameNumbers draw draw' m source source' →
      rewriteTimes draw' n { s with parameters } source' =
        ((rewriteTimes draw n s source).1, { (rewriteTimes draw n s source).2.1 with parameters },
          afterDraws draw' m source') := by
  induction n with
  | zero => intro s source; exact ⟨0, rfl, fun _ _ _ _ => rfl⟩
  | succ n ih =>
      intro s source
      obtain ⟨m, hm, hsame⟩ := successor_of_sameNumbers draw s.rules s.state source
      rcases hw : successor draw s.rules s.state source with ⟨x | w, source₁⟩
      · rw [hw] at hm hsame
        refine ⟨m, ?_, fun draw' source' parameters h => ?_⟩
        · rw [rewriteTimes_of_error draw n hw]
          exact hm
        · rw [rewriteTimes_of_error draw n hw]
          exact rewriteTimes_of_error draw' n (hsame draw' source' h)
      · rw [hw] at hm hsame
        obtain ⟨k, hk, hrest⟩ := ih { s with state := w, generation := s.generation + 1 } source₁
        refine ⟨m + k, ?_, fun draw' source' parameters h => ?_⟩
        · rw [rewriteTimes_of_ok draw n hw, afterDraws_add, ← hm]
          exact hk
        · have hafter := h.after
          rw [← hm] at hafter
          rw [rewriteTimes_of_ok draw n hw, afterDraws_add]
          have hstep := rewriteTimes_of_ok draw' (s := { s with parameters }) n
            (hsame draw' source' h.of_add)
          exact hstep.trans (hrest draw' _ parameters hafter)

/-! ## Rules without numbers -/

/-- Whether no rule ever draws a number. -/
def AllSimple : Prop := ∀ r ∈ rules, ∃ q, r = .simple q

/-- What a letter becomes where all rules are simple. -/
def image (l : Letter) : Word :=
  match firstRule rules l with
  | some (.simple r) => r.replacement
  | _ => [l]

theorem AllSimple.contribution_eq {rules : List Rule} (h : AllSimple rules) (x : Float)
    (l : Letter) : contribution rules x l = some (image rules l) := by
  unfold contribution image
  cases hf : firstRule rules l with
  | none => rfl
  | some r =>
      obtain ⟨q, rfl⟩ := h r (List.mem_of_find?_eq_some hf)
      rfl

theorem AllSimple.takesNumber_eq {rules : List Rule} (h : AllSimple rules) (l : Letter) :
    takesNumber rules l = false := by
  unfold takesNumber
  split
  · next r hf =>
      obtain ⟨q, hq⟩ := h _ (List.mem_of_find?_eq_some hf)
      cases hq
  · rfl

theorem AllSimple.successor_eq {rules : List Rule} (h : AllSimple rules) (w : Word) (source : σ) :
    successor draw rules w source = (.ok (w.flatMap (image rules)), source) := by
  induction w with
  | nil => rfl
  | cons l w ih =>
      rw [successor]
      simp only [h.takesNumber_eq, h.contribution_eq, Bool.false_eq_true, if_false, ih,
        List.flatMap_cons]

/-- The words that follow on a word, one generation after the other. -/
def descendant (n : Nat) (w : Word) : Word := (fun w => w.flatMap (image rules))^[n] w

theorem descendant_nil (n : Nat) : descendant rules n [] = [] := by
  induction n with
  | zero => rfl
  | succ n ih => rw [descendant, Function.iterate_succ_apply]; exact ih

/-- Letters do not meet: what follows on two words is what follows on each. -/
theorem descendant_append (n : Nat) (a b : Word) :
    descendant rules n (a ++ b) = descendant rules n a ++ descendant rules n b := by
  induction n generalizing a b with
  | zero => rfl
  | succ n ih =>
      simp only [descendant, Function.iterate_succ_apply, List.flatMap_append]
      exact ih _ _

theorem descendant_eq_flatMap (n : Nat) (w : Word) :
    descendant rules n w = w.flatMap fun l => descendant rules n [l] := by
  induction w with
  | nil => rw [descendant_nil, List.flatMap_nil]
  | cons l w ih => rw [List.flatMap_cons, ← ih, ← descendant_append, List.singleton_append]

theorem rewriteTimes_of_allSimple (n : Nat) : ∀ (s : System) (source : σ), AllSimple s.rules →
    rewriteTimes draw n s source =
      (.ok (), { s with state := descendant s.rules n s.state, generation := s.generation + n },
        source) := by
  induction n with
  | zero => intro s source _; rfl
  | succ n ih =>
      intro s source h
      let s₁ := { s with state := s.state.flatMap (image s.rules), generation := s.generation + 1 }
      have hrest := ih s₁ source h
      rw [rewriteTimes_of_ok draw n (h.successor_eq draw s.state source), hrest, descendant,
        descendant, Function.iterate_succ_apply, Nat.add_comm n 1, ← Nat.add_assoc]

theorem grow_of_allSimple (s : System) (source : σ) (h : AllSimple s.rules) :
    s.grow draw source =
      (.ok (),
        { s with state := descendant s.rules s.desired s.initiator, generation := s.desired },
        source) := by
  rw [grow, rewriteTimes_of_allSimple draw s.desired s.reset source h]
  simp only [reset, Nat.zero_add]

/-! ## Runs -/

/-- What a system grows to from another first word. -/
def grown (s : System) (source : σ) (w : Word) : Word :=
  ({ s with initiator := w }.grow draw source).2.1.state

theorem AllSimple.grown_eq {s : System} (h : AllSimple s.rules) (source : σ) (w : Word) :
    s.grown draw source w = descendant s.rules s.desired w := by
  rw [grown, grow_of_allSimple draw { s with initiator := w } source h]

/-- A run ends after the desired number of generations, or with the last one
that succeeded. -/
theorem grow_leads (s : System) (source : σ) :
    match s.grow draw source with
    | (.ok (), s', source') =>
      s' = { s with state := s'.state, generation := s.desired } ∧
        Leads draw s.rules s.desired s.initiator source s'.state source'
    | (.error e, s', source') =>
      s'.generation < s.desired ∧
        s' = { s with state := s'.state, generation := s'.generation } ∧
        ∃ source₁ x, Leads draw s.rules s'.generation s.initiator source s'.state source₁ ∧
          successor draw s.rules s'.state source₁ = (.error x, source') ∧
          e = .noRuleMatched x := by
  have hfollows : Follows draw s.reset s.desired source (s.grow draw source) :=
    rewriteTimes_follows draw s.desired s.reset source
  generalize s.grow draw source = result at hfollows ⊢
  rcases result with ⟨e | u, s', source'⟩
  · obtain ⟨k, source₁, x, hk, hs', hleads, hfail, he⟩ := hfollows
    have hgeneration : s'.generation = k := by rw [hs']; exact Nat.zero_add k
    rw [← hgeneration] at hk hleads
    refine ⟨hk, ?_, source₁, x, hleads, hfail, he⟩
    rw [hs']
    rfl
  · obtain ⟨hs', hleads⟩ := hfollows
    refine ⟨?_, hleads⟩
    rw [hs']
    simp only [reset, Nat.zero_add]

/-- Systems with the same first word, rules and count run alike on sources that
give the same numbers. -/
theorem grow_of_sameNumbers (s : System) (source : σ) :
    ∃ m, (s.grow draw source).2.2 = afterDraws draw m source ∧
      ∀ s₁ : System, s₁.initiator = s.initiator → s₁.rules = s.rules → s₁.desired = s.desired →
        ∀ {τ : Type} (draw' : τ → Float × τ) (source' : τ),
          SameNumbers draw draw' m source source' →
          s₁.grow draw' source' =
            ((s.grow draw source).1,
              { s₁ with
                state := (s.grow draw source).2.1.state
                generation := (s.grow draw source).2.1.generation },
              afterDraws draw' m source') := by
  obtain ⟨m, hm, hsame⟩ := rewriteTimes_of_sameNumbers draw s.desired s.reset source
  refine ⟨m, hm, fun s₁ hinitiator hrules hdesired τ draw' source' h => ?_⟩
  have hreset : s₁.reset = { s.reset with parameters := s₁.parameters } := by
    simp only [reset, hinitiator, hrules, hdesired]
  rw [grow, hdesired, hreset, hsame draw' source' s₁.parameters h]
  refine congrArg₂ Prod.mk rfl (congrArg₂ Prod.mk ?_ rfl)
  rw [system_rewriteTimes draw s.desired s.reset source]
  simp only [reset, grow, hinitiator, hrules]

/-- A run starts over from the first word, whatever the state was, and knows of
its source only the numbers that it draws. It ends after the desired number of
generations, or with the last one that succeeded. Where all rules are simple it
ends well, the same each time, and grows every letter by itself. -/
theorem grow_generations (s : System) (source : σ) :
    (match s.grow draw source with
      | (.ok (), s', source') =>
        s' = { s with state := s'.state, generation := s.desired } ∧
          Leads draw s.rules s.desired s.initiator source s'.state source'
      | (.error e, s', source') =>
        s'.generation < s.desired ∧
          s' = { s with state := s'.state, generation := s'.generation } ∧
          ∃ source₁ x, Leads draw s.rules s'.generation s.initiator source s'.state source₁ ∧
            successor draw s.rules s'.state source₁ = (.error x, source') ∧
            e = .noRuleMatched x) ∧
    (∃ m, (s.grow draw source).2.2 = afterDraws draw m source ∧
      ∀ s₁ : System, s₁.initiator = s.initiator → s₁.rules = s.rules → s₁.desired = s.desired →
        ∀ {τ : Type} (draw' : τ → Float × τ) (source' : τ),
          SameNumbers draw draw' m source source' →
          s₁.grow draw' source' =
            ((s.grow draw source).1,
              { s₁ with
                state := (s.grow draw source).2.1.state
                generation := (s.grow draw source).2.1.generation },
              afterDraws draw' m source')) ∧
    (AllSimple s.rules →
      (∃ s', s.grow draw source = (.ok (), s', source) ∧
        ∀ {τ : Type} (draw' : τ → Float × τ) (source' : τ),
          s'.grow draw' source' = (.ok (), s', source')) ∧
      (∀ a b, s.grown draw source (a ++ b) = s.grown draw source a ++ s.grown draw source b) ∧
      (s.grow draw source).2.1.state = s.initiator.flatMap fun l => s.grown draw source [l]) := by
  refine ⟨grow_leads draw s source, grow_of_sameNumbers draw s source,
    fun h => ⟨?_, fun a b => ?_, ?_⟩⟩
  · rw [grow_of_allSimple draw s source h]
    exact ⟨_, rfl, fun draw' source' => grow_of_allSimple draw' _ source' h⟩
  · rw [h.grown_eq, h.grown_eq, h.grown_eq, descendant_append]
  · rw [grow_of_allSimple draw s source h]
    simp only [h.grown_eq]
    exact descendant_eq_flatMap s.rules s.desired s.initiator

/-- A branch grows twice. The source counts what is drawn from it. -/
theorem grow_generations_branch :
    ∃ (s s' : System) (count : Nat → Float × Nat),
      count = (fun drawn => (0.5, drawn + 1)) ∧
      s = { System.new [⟨.forward, "F", ["1"]⟩, ⟨.rotateLeft, "+", []⟩] 2 with
        rules := [.simple ⟨none, .kind .forward,
          [⟨.forward, "F", []⟩, ⟨.pushState, "[", []⟩, ⟨.forward, "F", []⟩,
            ⟨.popState, "]", []⟩]⟩] } ∧
      AllSimple s.rules ∧
      s.grow count 0 = (.ok (), s', 0) ∧ s'.grow count 3 = (.ok (), s', 3) ∧
      s'.state.text = "F[F][F[F]]+" ∧
      s'.state = s.initiator.flatMap fun l => s.grown count 0 [l] := by
  let count : Nat → Float × Nat := fun drawn => (0.5, drawn + 1)
  let s : System := { System.new [⟨.forward, "F", ["1"]⟩, ⟨.rotateLeft, "+", []⟩] 2 with
    rules := [.simple ⟨none, .kind .forward,
      [⟨.forward, "F", []⟩, ⟨.pushState, "[", []⟩, ⟨.forward, "F", []⟩, ⟨.popState, "]", []⟩]⟩] }
  have hsimple : AllSimple s.rules := fun r hr => ⟨_, List.mem_singleton.1 hr⟩
  have htext : (s.grow count 0).2.1.state.text = "F[F][F[F]]+" := by decide +kernel
  obtain ⟨⟨s', hgrow, hagain⟩, _, hletters⟩ := (grow_generations count s 0).2.2 hsimple
  rw [hgrow] at htext hletters
  exact ⟨s, s', count, rfl, rfl, hsimple, hgrow, hagain count 3, htext, hletters⟩

end Lindenmayer.System
