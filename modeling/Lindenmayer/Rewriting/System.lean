import Lindenmayer.Rewriting.Rule
import Lindenmayer.Word.Placeholder

/-!
# Lindenmayer systems

A system starts from a first word and rewrites it generation by generation. In one
generation every letter is rewritten, from left to right, each by the first rule that
matches it; a letter that no rule matches stays. Nothing of what was written is rewritten in
the same generation.

A generation that fails never happened, save for the numbers that were drawn.
-/

namespace Lindenmayer

structure System where
  /-- The word that everything starts from. -/
  initiator : Word
  state : Word
  /-- The rules, in the order in which they are tried. -/
  rules : List Rule
  /-- How often the state has been rewritten. -/
  generation : Nat
  /-- How often a whole run rewrites. -/
  desired : Nat
  parameters : Parameters

namespace System

/-- A system without rules, at its first word. -/
def new (initiator : Word) (desired : Nat) : System :=
  ⟨initiator, initiator, [], 0, desired, .empty⟩

def reset (s : System) : System := { s with state := s.initiator, generation := 0 }

/-- Adds a rule to be tried after all others. -/
def addRule (s : System) (r : Rule) : System := { s with rules := s.rules ++ [r] }

/-- Rewrites everything that is left on a tape. -/
def sweep {σ : Type} (draw : σ → Float × σ) (rules : List Rule) (t : Tape) (source : σ) :
    Except WordError Word × σ :=
  match ha : t.ahead with
  | [] => (.ok t.output, source)
  | l :: _ =>
    match rules.find? (·.accepts l) with
    | none =>
      have : (t.advance.write [l]).ahead.length < t.ahead.length := by
        simp [Tape.advance, Tape.write, ha]
      sweep draw rules (t.advance.write [l]) source
    | some r =>
      match hr : r.rewrite draw t source with
      | (.ok t', source) =>
        have : t'.ahead.length < t.ahead.length := by
          simp [Rule.ahead_rewrite hr, ha]
        sweep draw rules t' source
      | (.error e, source) => (.error e, source)
termination_by t.ahead.length

def rewrite {σ : Type} (draw : σ → Float × σ) (s : System) (source : σ) :
    Except WordError Unit × System × σ :=
  match sweep draw s.rules (.ofWord s.state) source with
  | (.ok state, source) => (.ok (), { s with state, generation := s.generation + 1 }, source)
  | (.error e, source) => (.error e, s, source)

/-- Rewrites the state a number of times, or until it fails. -/
def rewriteTimes {σ : Type} (draw : σ → Float × σ) :
    Nat → System → σ → Except WordError Unit × System × σ
  | 0, s, source => (.ok (), s, source)
  | times + 1, s, source =>
    match s.rewrite draw source with
    | (.ok (), s, source) => rewriteTimes draw times s source
    | (.error e, s, source) => (.error e, s, source)

/-- Rewrites the first word as often as is desired. -/
def grow {σ : Type} (draw : σ → Float × σ) (s : System) (source : σ) :
    Except WordError Unit × System × σ :=
  rewriteTimes draw s.desired s.reset source

def resolvedState (s : System) : Except WordError String := s.state.resolve s.parameters

/-- A parameter of a letter with its placeholders filled in. -/
def resolve (s : System) (l : Letter) (index : Nat) : Except WordError String :=
  l.parameter index s.parameters

end System

end Lindenmayer
