import Lindenmayer.Text.Quoted
import Lindenmayer.Word.Basic
import Lindenmayer.Word.Error

/-!
# Rewriting rules

A rule says which letters it matches and what word comes in their place. A simple rule has
one replacement. A stochastic rule has several, each with an interval of the numbers that
might be drawn; it draws one and takes the first alternative whose interval it lies in.
Intervals begin at zero and follow on each other, each as wide as its alternative is
likely.

Rules work on a `Tape`: the letters still to be rewritten on one side, what they were
rewritten to on the other. A rule that fails leaves the tape alone, though the number is
drawn.
-/

namespace Lindenmayer

inductive Expected where
  /-- All of a kind. -/
  | kind (k : LetterKind)
  /-- Those written in one way. -/
  | literal (s : String)
  deriving DecidableEq, Repr

structure SimpleRule where
  name : Option String
  expected : Expected
  replacement : Word
  deriving DecidableEq, Repr

/-- An alternative of a stochastic rule: the numbers from `start` up to but not including
`stop` lead to `rule`. -/
structure Interval where
  start : Float
  stop : Float
  rule : SimpleRule
  deriving Repr

structure StochasticRule where
  name : Option String
  expected : LetterKind
  intervals : List Interval
  deriving Repr

inductive Rule where
  | simple (rule : SimpleRule)
  | stochastic (rule : StochasticRule)
  deriving Repr

/-- A word in the course of being rewritten. -/
structure Tape where
  /-- What is still to be rewritten. -/
  ahead : Word
  /-- What was written, the last letter first. -/
  behind : Word
  deriving DecidableEq, Repr

namespace Expected

def accepts : Expected → Letter → Bool
  | kind k, l => l.kind == k
  | literal s, l => l.literal == s

def text : Expected → String
  | kind k => k.name
  | literal s => Text.quoted s

end Expected

namespace Tape

def ofWord (w : Word) : Tape := ⟨w, []⟩

def atEnd (t : Tape) : Bool := t.ahead.isEmpty

def peek (t : Tape) : Option Letter := t.ahead.head?

def advance (t : Tape) : Tape := { t with ahead := t.ahead.tail }

/-- Writes a word behind what was written. -/
def write (t : Tape) (w : Word) : Tape := { t with behind := w.reverse ++ t.behind }

def output (t : Tape) : Word := t.behind.reverse

@[simp] theorem output_ofWord (w : Word) : (ofWord w).output = [] := rfl

@[simp] theorem output_advance (t : Tape) : t.advance.output = t.output := rfl

@[simp] theorem output_write (t : Tape) (w : Word) : (t.write w).output = t.output ++ w := by
  simp [output, write]

end Tape

namespace SimpleRule

def accepts (r : SimpleRule) (l : Letter) : Bool := r.expected.accepts l

/-- Puts the replacement in the place of the next letter. -/
def rewrite (r : SimpleRule) (t : Tape) : Tape := t.advance.write r.replacement

/-- A name in front of a rule, if it has one. -/
def lead : Option String → String
  | none => ""
  | some name => name ++ ": "

def text (r : SimpleRule) : String :=
  lead r.name ++ r.expected.text ++ " -> " ++ r.replacement.text

end SimpleRule

namespace StochasticRule

/-- Alternatives laid out one after the other. -/
def layOut (start : Float) : List (SimpleRule × Float) → List Interval
  | [] => []
  | (rule, probability) :: more =>
    ⟨start, start + probability, rule⟩ :: layOut (start + probability) more

/-- A rule with the given alternatives, of which the `i`-th has the `i`-th probability. -/
def ofProbabilities (name : Option String) (expected : LetterKind) (rules : List SimpleRule)
    (probabilities : List Float) : Except WordError StochasticRule :=
  if rules.isEmpty || rules.length != probabilities.length then
    .error (.invalidProbabilities rules.length probabilities.length)
  else .ok ⟨name, expected, layOut 0.0 (rules.zip probabilities)⟩

/-- Lets the last interval end at one, so that sums that were rounded leave no gap. -/
def closeLast : List Interval → List Interval
  | [] => []
  | [last] => [{ last with stop := 1.0 }]
  | first :: more => first :: closeLast more

def uniform (name : Option String) (expected : LetterKind) (rules : List SimpleRule) :
    Except WordError StochasticRule :=
  let probability := 1.0 / Float.ofNat rules.length
  match ofProbabilities name expected rules (List.replicate rules.length probability) with
  | .ok r => .ok { r with intervals := closeLast r.intervals }
  | .error e => .error e

def accepts (r : StochasticRule) (l : Letter) : Bool := l.kind == r.expected

def pick (r : StochasticRule) (x : Float) : Option SimpleRule :=
  (r.intervals.find? fun i => i.start <= x && x < i.stop).map Interval.rule

/-- Draws a number and rewrites the next letter by the alternative it leads to. A number that
leads to none is drawn all the same. -/
def rewrite {σ : Type} (draw : σ → Float × σ) (r : StochasticRule) (t : Tape) (source : σ) :
    Except WordError Unit × Tape × σ :=
  let (x, source) := draw source
  match r.pick x with
  | some rule => (.ok (), rule.rewrite t, source)
  | none => (.error (.noRuleMatched x), t, source)

def intervalText (i : Interval) : String :=
  "[" ++ FloatStyle.plain.write i.start ++ ", " ++ FloatStyle.plain.write i.stop ++ ") " ++
    i.rule.replacement.text

def text (r : StochasticRule) : String :=
  SimpleRule.lead r.name ++ r.expected.name ++ " -> " ++
    " | ".intercalate (r.intervals.map intervalText)

end StochasticRule

namespace Rule

def name : Rule → Option String
  | simple r => r.name
  | stochastic r => r.name

def accepts : Rule → Letter → Bool
  | simple r, l => r.accepts l
  | stochastic r, l => r.accepts l

def text : Rule → String
  | simple r => r.text
  | stochastic r => r.text

/-- Rewrites the next letter and answers the new tape, if there is one. Only a stochastic rule
draws a number. -/
def rewrite {σ : Type} (draw : σ → Float × σ) (r : Rule) (t : Tape) (source : σ) :
    Except WordError Tape × σ :=
  match r with
  | simple r => (.ok (r.rewrite t), source)
  | stochastic r =>
    match r.rewrite draw t source with
    | (.ok (), t, source) => (.ok t, source)
    | (.error e, _, source) => (.error e, source)

/-- Rewriting takes exactly the next letter away. -/
theorem ahead_rewrite {σ : Type} {draw : σ → Float × σ} {r : Rule} {t t' : Tape}
    {source source' : σ} (h : r.rewrite draw t source = (.ok t', source')) :
    t'.ahead = t.ahead.tail := by
  unfold rewrite at h
  split at h
  · cases h; rfl
  · unfold StochasticRule.rewrite at h
    dsimp only at h
    split at h
    · next hr =>
        split at hr
        · cases hr; cases h; rfl
        · cases hr
    · cases h

end Rule

end Lindenmayer
