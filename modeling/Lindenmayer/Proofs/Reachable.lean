import Lindenmayer.Proofs.Growth
import Mathlib.Data.List.Forall2

/-!
# Whatever is done to a system

A system can be put back to its first word, rewritten once, or grown, any number
of times and in any order, and each of the last two may fail midway. `Reaches`
covers all of that, so that what is said of every state that a system can get
into is said once: what holds of the first word and is passed on by one
generation holds of all of them (`Reaches.keeps`). A generation that fails is no
case of its own, because it leaves the word as it was.

A generation puts a word in the place of each letter, the letter itself or what
its first rule may write (`parts_of_successor`), and whatever was drawn, there is
nothing else. The first use is the alphabet. No letter is ever made up: each is
one of the first word or was written by a rule, parameters and all
(`Reaches.offers`).
-/

namespace Lindenmayer

/-- What a rule may write. -/
def Rule.replacements : Rule → List Word
  | .simple r => [r.replacement]
  | .stochastic r => r.intervals.map fun i => i.rule.replacement

namespace System

variable {σ : Type} {draw : σ → Float × σ} {s s' : System} {random random' : σ}

/-- Where a system and its source of numbers can get to. -/
inductive Reaches (draw : σ → Float × σ) (s : System) (random : σ) : System → σ → Prop
  | start : Reaches draw s random s random
  | reset {s' : System} {random' : σ} (h : Reaches draw s random s' random') :
      Reaches draw s random s'.reset random'
  | rewrite {s' : System} {random' : σ} (h : Reaches draw s random s' random') :
      Reaches draw s random (s'.rewrite draw random').2.1 (s'.rewrite draw random').2.2
  | grow {s' : System} {random' : σ} (h : Reaches draw s random s' random') :
      Reaches draw s random (s'.grow draw random').2.1 (s'.grow draw random').2.2

/-! ## What stays and what is passed on -/

/-- Rewriting once is a run of one generation. -/
theorem rewriteTimes_one (s : System) (random : σ) :
    rewriteTimes draw 1 s random = s.rewrite draw random := by
  rw [rewriteTimes]
  rcases s.rewrite draw random with ⟨e | u, s', random'⟩
  · rfl
  · rfl

/-- What a generation passes on, so many of them pass on. -/
theorem Leads.keeps {rules : List Rule} {P : Word → Prop}
    (hstep : ∀ {w v : Word} {source source' : σ}, P w →
      successor draw rules w source = (.ok v, source') → P v)
    {n : Nat} {w v : Word} {source source' : σ} (h : Leads draw rules n w source v source')
    (hw : P w) : P v := by
  induction h with
  | refl w source => exact hw
  | step hfirst _ ih => exact ih (hstep hw hfirst)

/-- And so does a run, even one that ends before its time. -/
theorem state_rewriteTimes {P : Word → Prop}
    (hstep : ∀ {w v : Word} {source source' : σ}, P w →
      successor draw s.rules w source = (.ok v, source') → P v)
    (n : Nat) (random : σ) (hstate : P s.state) : P (rewriteTimes draw n s random).2.1.state := by
  have hfollows := rewriteTimes_follows draw n s random
  generalize rewriteTimes draw n s random = result at hfollows ⊢
  rcases result with ⟨e | u, s', random'⟩
  · obtain ⟨k, source₁, x, _, _, hleads, _⟩ := hfollows
    exact hleads.keeps hstep hstate
  · obtain ⟨_, hleads⟩ := hfollows
    exact hleads.keeps hstep hstate

namespace Reaches

/-- A system keeps all but its state and its count. -/
theorem eq_with (h : Reaches draw s random s' random') :
    s' = { s with state := s'.state, generation := s'.generation } := by
  have hrun : ∀ (n : Nat) {s' : System} (source : σ),
      s' = { s with state := s'.state, generation := s'.generation } →
        (rewriteTimes draw n s' source).2.1 =
          { s with
            state := (rewriteTimes draw n s' source).2.1.state
            generation := (rewriteTimes draw n s' source).2.1.generation } := by
    intro n s' source hs'
    rw [system_rewriteTimes]
    rw [hs']
  induction h with
  | start => rfl
  | reset _ ih => rw [ih]; rfl
  | rewrite _ ih =>
      rw [← rewriteTimes_one]
      exact hrun 1 _ ih
  | @grow s' random' _ ih =>
      have hreset : s'.reset =
          { s with state := s'.reset.state, generation := s'.reset.generation } := by
        rw [ih]
        rfl
      exact hrun s'.desired random' hreset

/-- What holds of the word at the start and of the first word, and is passed on
by a generation, holds wherever the system gets to. -/
theorem keeps (h : Reaches draw s random s' random') {P : Word → Prop} (hstate : P s.state)
    (hinitiator : P s.initiator)
    (hstep : ∀ {w v : Word} {source source' : σ}, P w →
      successor draw s.rules w source = (.ok v, source') → P v) : P s'.state := by
  have hrules : ∀ {s' : System} {random' : σ}, Reaches draw s random s' random' →
      s'.rules = s.rules ∧ s'.initiator = s.initiator := by
    intro s' random' h
    rw [h.eq_with]
    exact ⟨rfl, rfl⟩
  induction h with
  | start => exact hstate
  | @reset s' random' h _ =>
      show P s'.initiator
      rw [(hrules h).2]
      exact hinitiator
  | @rewrite s' random' h ih =>
      rw [← rewriteTimes_one]
      exact state_rewriteTimes (by rw [(hrules h).1]; exact hstep) 1 random' ih
  | @grow s' random' h _ =>
      refine state_rewriteTimes (s := s'.reset) ?_ s'.desired random' ?_
      · show ∀ {w v : Word} {source source' : σ}, P w →
          successor draw s'.rules w source = (.ok v, source') → P v
        rw [(hrules h).1]
        exact hstep
      · show P s'.initiator
        rw [(hrules h).2]
        exact hinitiator

end Reaches

/-! ## The alphabet -/

/-- Whether a letter is one of the first word or of what a rule may write. -/
def Offers (s : System) (l : Letter) : Prop :=
  l ∈ s.initiator ∨ ∃ r ∈ s.rules, ∃ w ∈ Rule.replacements r, l ∈ w

/-- What may come of a letter in one generation: itself if no rule matches it,
or else something that its first rule may write. -/
inductive Writes (rules : List Rule) (l : Letter) : Word → Prop
  | kept (h : firstRule rules l = none) : Writes rules l [l]
  | rewritten {r : Rule} {u : Word} (h : firstRule rules l = some r)
    (hu : u ∈ Rule.replacements r) : Writes rules l u

theorem writes_of_contribution {rules : List Rule} {x : Float} {l : Letter} {u : Word}
    (h : contribution rules x l = some u) : Writes rules l u := by
  unfold contribution at h
  split at h
  · next hnone =>
      cases h
      exact .kept hnone
  · next r hr =>
      cases h
      exact .rewritten hr (List.mem_singleton.2 rfl)
  · next r hr =>
      obtain ⟨i, hi, rfl⟩ := Option.map_eq_some_iff.1 h
      exact .rewritten hr (List.mem_map_of_mem (List.mem_of_find?_eq_some hi))

/-- A generation that comes about is a word for each letter. -/
theorem parts_of_successor {rules : List Rule} {w v : Word} {source source' : σ}
    (h : successor draw rules w source = (.ok v, source')) :
    ∃ parts : List Word, List.Forall₂ (Writes rules) w parts ∧ v = parts.flatten := by
  induction w generalizing v source with
  | nil =>
      cases h
      exact ⟨[], .nil, rfl⟩
  | cons l w ih =>
      cases hc : contribution rules (draw source).1 l with
      | none =>
          rw [successor_cons_of_none draw rules w hc] at h
          cases h
      | some u =>
          rw [successor_cons_of_some draw rules w hc rfl] at h
          generalize hrest : successor draw rules w _ = result at h
          rcases result with ⟨x | v', source₁⟩
          · cases h
          · cases h
            obtain ⟨parts, hparts, rfl⟩ := ih hrest
            exact ⟨u :: parts, .cons (writes_of_contribution hc) hparts, rfl⟩

theorem Writes.offers {l m : Letter} {u : Word} (h : Writes s.rules l u) (hl : s.Offers l)
    (hm : m ∈ u) : s.Offers m := by
  cases h with
  | kept _ => exact List.mem_singleton.1 hm ▸ hl
  | rewritten hr hu => exact Or.inr ⟨_, List.mem_of_find?_eq_some hr, _, hu, hm⟩

theorem offers_of_parts {w : Word} {parts : List Word}
    (h : List.Forall₂ (Writes s.rules) w parts) (hw : ∀ l ∈ w, s.Offers l) :
    ∀ m ∈ parts.flatten, s.Offers m := by
  induction h with
  | nil => exact hw
  | cons hfirst _ ih =>
      intro m hm
      rcases List.mem_append.1 hm with hm | hm
      · exact hfirst.offers (hw _ List.mem_cons_self) hm
      · exact ih (fun l hl => hw l (List.mem_cons_of_mem _ hl)) m hm

/-- A system that starts out from letters on offer has no others ever after. -/
theorem Reaches.offers (h : Reaches draw s random s' random') (hstate : ∀ l ∈ s.state, s.Offers l) :
    ∀ l ∈ s'.state, s.Offers l := by
  refine h.keeps (P := fun w => ∀ l ∈ w, s.Offers l) hstate (fun l hl => Or.inl hl) ?_
  intro w v source source' hw hsuccessor
  obtain ⟨parts, hparts, rfl⟩ := parts_of_successor hsuccessor
  exact offers_of_parts hparts hw

end System

end Lindenmayer
