import Lindenmayer.Source.Expression
import Lindenmayer.Source.TokenStream

/-!
# Reading statements

A source text is a sequence of statements, and a block is a statement that holds a sequence
of statements. Between the parts of a statement blanks are skipped. Expressions and the two
operands of a rule are the exceptions: an expression ends at the end of its line, and an
operand of a rule is an unbroken run, taken as it stands whatever tokens are in it.

Each statement takes at least one token, so sequences of statements and nested blocks end
with the source.
-/

namespace Lindenmayer

namespace Statement

/-- Takes a token of the given kind, or fails. -/
def expect (kind : TokenKind) (s : TokenStream) : Except SyntaxError (Token × TokenStream) :=
  match s.nextKind kind with
  | (.ok t, s') => .ok (t, s')
  | (.error e, _) => .error e

theorem remaining_expect_lt {kind : TokenKind} {s s' : TokenStream} {t : Token}
    (h : expect kind s = .ok (t, s')) : s'.remaining < s.remaining := by
  unfold expect at h
  split at h
  · next hn =>
    cases h
    exact TokenStream.remaining_nextKind_lt hn
  · cases h

/-- Reads the expression that starts with the next token. -/
def readValue (s : TokenStream) : Except SyntaxError (Expression × TokenStream) :=
  match readExpression s.stop s.rest with
  | .ok (e, rest) => .ok (e, { s with rest, buffered := false })
  | .error e => .error e

theorem remaining_readValue_lt {s s' : TokenStream} {e : Expression}
    (h : readValue s = .ok (e, s')) : s'.remaining < s.remaining := by
  unfold readValue at h
  split at h
  · next hread =>
    cases h
    exact remaining_readExpression hread
  · cases h

/-- The text and the region of adjacent tokens. -/
def joinRun (first : Token) (more : List Token) : String × Region :=
  more.foldl (fun (text, region) t => (text ++ t.text, region.merge t.region))
    (first.text, first.region)

/-- Reads the text up to the next blank, whatever it consists of. -/
def unbrokenRun (s : TokenStream) : Except SyntaxError ((String × Region) × TokenStream) :=
  match s.next with
  | (.error e, _) => .error e
  | (.ok first, s) =>
    .ok (joinRun first (s.rest.takeWhile (!·.isBlank)),
      { s with rest := s.rest.dropWhile (!·.isBlank) })

theorem remaining_unbrokenRun_lt {s s' : TokenStream} {run : String × Region}
    (h : unbrokenRun s = .ok (run, s')) : s'.remaining < s.remaining := by
  unfold unbrokenRun at h
  split at h
  · cases h
  · next first s₁ hn =>
    cases h
    have hlt := TokenStream.remaining_next_lt hn
    have hle := (List.dropWhile_suffix (l := s₁.rest) (!·.isBlank)).length_le
    simp only [TokenStream.remaining] at hlt ⊢
    omega

/-- `set name = value`. -/
def readAssignment (s : TokenStream) : Except SyntaxError (Statement × TokenStream) :=
  match expect .setWord s with
  | .error e => .error e
  | .ok (set, s) =>
    match expect .identifier s with
    | .error e => .error e
    | .ok (name, s) =>
      match expect .assignment s with
      | .error e => .error e
      | .ok (equals, s) =>
        match readValue s with
        | .error e => .error e
        | .ok (value, s) =>
          .ok (.assignment name.text (set.region.merge equals.region) value, s)

theorem remaining_readAssignment_lt {s s' : TokenStream} {st : Statement}
    (h : readAssignment s = .ok (st, s')) : s'.remaining < s.remaining := by
  unfold readAssignment at h
  split at h
  · cases h
  · next h₁ =>
    split at h
    · cases h
    · next h₂ =>
      split at h
      · cases h
      · next h₃ =>
        split at h
        · cases h
        · next h₄ =>
          cases h
          have := remaining_expect_lt h₁
          have := remaining_expect_lt h₂
          have := remaining_expect_lt h₃
          have := remaining_readValue_lt h₄
          omega

/-- The name of a rule, which may be missing. -/
def readRuleName (s : TokenStream) : Option String × TokenStream :=
  match s.next with
  | (.ok t, s') => if t.kind = .identifier then (some t.text, s') else (none, s)
  | (.error _, _) => (none, s)

theorem remaining_readRuleName_le (s : TokenStream) :
    (readRuleName s).2.remaining ≤ s.remaining := by
  unfold readRuleName
  split
  · next hn =>
    split
    · exact Nat.le_of_lt (TokenStream.remaining_next_lt hn)
    · exact Nat.le_refl _
  · exact Nat.le_refl _

/-- `rule name: expected -> replacement`. -/
def readRule (s : TokenStream) : Except SyntaxError (Statement × TokenStream) :=
  match expect .ruleWord s with
  | .error e => .error e
  | .ok (word, s) =>
    match readRuleName s with
    | (name, s) =>
      match expect .colon s with
      | .error e => .error e
      | .ok (_, s) =>
        match unbrokenRun s with
        | .error e => .error e
        | .ok ((expected, _), s) =>
          match expect .arrow s with
          | .error e => .error e
          | .ok (_, s) =>
            match unbrokenRun s with
            | .error e => .error e
            | .ok ((replacement, last), s) =>
              .ok (.rule name expected replacement (word.region.merge last), s)

theorem remaining_readRule_lt {s s' : TokenStream} {st : Statement}
    (h : readRule s = .ok (st, s')) : s'.remaining < s.remaining := by
  unfold readRule at h
  split at h
  · cases h
  · next s₁ h₁ =>
    have hname := remaining_readRuleName_le s₁
    split at h
    next name s₂ h₂ =>
    rw [h₂] at hname
    split at h
    · cases h
    · next h₃ =>
      split at h
      · cases h
      · next h₄ =>
        split at h
        · cases h
        · next h₅ =>
          split at h
          · cases h
          · next h₆ =>
            cases h
            have := remaining_expect_lt h₁
            have := remaining_expect_lt h₃
            have := remaining_unbrokenRun_lt h₄
            have := remaining_expect_lt h₅
            have := remaining_unbrokenRun_lt h₆
            simp only at hname
            omega

/-- What was read from a stream, and a stream with fewer tokens left. -/
abbrev Taken (s : TokenStream) (α : Type) := { r : α × TokenStream // r.2.remaining < s.remaining }

mutual

def read (s : TokenStream) : Except SyntaxError (Taken s Statement) :=
  match hn : s.next with
  | (.error e, _) => .error e
  | (.ok t, after) =>
    have hafter := TokenStream.remaining_next_lt hn
    match t.kind with
    | .curlyOpen =>
      match readBody after with
      | .error e => .error e
      | .ok ⟨((body, close), s'), hs'⟩ =>
        .ok ⟨(.block (t.region.merge close.region) body, s'), Nat.lt_trans hs' hafter⟩
    | .ruleWord =>
      match h : readRule s with
      | .error e => .error e
      | .ok r => .ok ⟨r, remaining_readRule_lt h⟩
    | .setWord =>
      match h : readAssignment s with
      | .error e => .error e
      | .ok r => .ok ⟨r, remaining_readAssignment_lt h⟩
    | .curlyClose => .error (.malformed .strayClosingBrace t.region)
    | _ =>
      match h : readValue s.settle with
      | .error e => .error e
      | .ok (e, s') =>
        .ok ⟨(.expression e, s'),
          Nat.lt_of_lt_of_le (remaining_readValue_lt h) (TokenStream.remaining_settle_le s)⟩
termination_by 2 * s.remaining

/-- Reads statements up to the brace that closes their block. -/
def readBody (s : TokenStream) : Except SyntaxError (Taken s (List Statement × Token)) :=
  match hn : s.next with
  | (.error e, _) => .error e
  | (.ok t, after) =>
    have hafter := TokenStream.remaining_next_lt hn
    if t.kind = .curlyClose then .ok ⟨(([], t), after), hafter⟩
    else
      match read s with
      | .error e => .error e
      | .ok ⟨(first, s₁), h₁⟩ =>
        match readBody s₁ with
        | .error e => .error e
        | .ok ⟨((more, close), s₂), h₂⟩ =>
          .ok ⟨((first :: more, close), s₂), Nat.lt_trans h₂ h₁⟩
termination_by 2 * s.remaining + 1

end

def readAll (s : TokenStream) : Except SyntaxError (List Statement) :=
  if s.atEnd.1 then .ok []
  else
    match read s with
    | .error e => .error e
    | .ok ⟨(first, s'), _⟩ =>
      match readAll s' with
      | .error e => .error e
      | .ok more => .ok (first :: more)
termination_by s.remaining

def ofSource (source : String) : Except SyntaxError (List Statement) :=
  readAll (.ofSource source)

end Statement

end Lindenmayer
