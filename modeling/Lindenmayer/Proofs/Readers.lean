import Lindenmayer.Source.Parser

/-!
# Readers of statements, opened once

A reader answers its result together with the fact that tokens were taken, and
takes its input apart by the next token. `read_of_next` and `readBody_of_next`
say what it does in terms of that token and forget the fact about lengths; what
is proved about reading elsewhere goes through them.
-/

namespace Lindenmayer.Statement

variable {s s' after : TokenStream} {t : Token} {kind : TokenKind} {α : Type}

theorem next_of_expect (h : expect kind s = .ok (t, after)) :
    s.next = (.ok t, after) ∧ t.kind = kind := by
  unfold expect TokenStream.nextKind at h
  split at h
  · next hk =>
      split at hk
      · next hn =>
          split at hk
          · next hkind =>
              cases hk
              cases h
              exact ⟨hn, hkind⟩
          · cases hk
      · cases hk
  · cases h

theorem exists_of_map_val {x : Except SyntaxError (Taken s α)} {r : α × TokenStream}
    (h : x.map Subtype.val = .ok r) : ∃ r', x = .ok r' ∧ r'.1 = r := by
  cases x with
  | error e => cases h
  | ok r' =>
      cases h
      exact ⟨r', rfl, rfl⟩

/-- Reading a statement, by the token that it starts with. -/
theorem read_of_next (hn : s.next = (.ok t, after)) :
    (read s).map Subtype.val = match t.kind with
      | .curlyOpen => (readBody after).map fun r =>
          (.block (t.region.merge r.1.1.2.region) r.1.1.1, r.1.2)
      | .ruleWord => readRule s
      | .setWord => readAssignment s
      | .curlyClose => .error (.malformed .strayClosingBrace t.region)
      | _ => (readValue s.settle).map fun r => (.expression r.1, r.2) := by
  rw [read]
  split
  · next hn' =>
      rw [hn] at hn'
      cases hn'
  · next hn' =>
      rw [hn] at hn'
      cases hn'
      cases t.kind with
      | curlyOpen =>
          dsimp only
          cases readBody after with
          | error e => rfl
          | ok r => rfl
      | ruleWord =>
          dsimp only
          split
          · next h => exact h.symm
          · next h => exact h.symm
      | setWord =>
          dsimp only
          split
          · next h => exact h.symm
          · next h => exact h.symm
      | curlyClose => rfl
      | _ =>
          dsimp only
          split
          · next h =>
              exact (congrArg (Except.map fun r => (Statement.expression r.1, r.2)) h).symm
          · next h =>
              exact (congrArg (Except.map fun r => (Statement.expression r.1, r.2)) h).symm

theorem read_of_end {e : SyntaxError} (hn : s.next = (.error e, after)) : read s = .error e := by
  rw [read]
  split
  · next hn' =>
      rw [hn] at hn'
      cases hn'
      rfl
  · next hn' =>
      rw [hn] at hn'
      cases hn'

theorem readBody_of_end {e : SyntaxError} (hn : s.next = (.error e, after)) :
    readBody s = .error e := by
  rw [readBody]
  split
  · next hn' =>
      rw [hn] at hn'
      cases hn'
      rfl
  · next hn' =>
      rw [hn] at hn'
      cases hn'

theorem readBody_of_next (hn : s.next = (.ok t, after)) :
    (readBody s).map Subtype.val =
      if t.kind = .curlyClose then .ok (([], t), after)
      else match read s with
        | .error e => .error e
        | .ok r => (readBody r.1.2).map fun r' => ((r.1.1 :: r'.1.1.1, r'.1.1.2), r'.1.2) := by
  rw [readBody]
  split
  · next hn' =>
      rw [hn] at hn'
      cases hn'
  · next hn' =>
      rw [hn] at hn'
      cases hn'
      dsimp only
      split
      · rfl
      · cases read s with
        | error e => rfl
        | ok r =>
            dsimp only
            cases readBody r.1.2 with
            | error e => rfl
            | ok r' => rfl

/-! ## What was read -/

/-- A statement that was read is of one of four forms, and so was its reading. -/
theorem read_cases {r : Taken s Statement} (h : read s = .ok r) :
    (∃ t after r', s.next = (.ok t, after) ∧ readBody after = .ok r' ∧
      r.1 = (.block (t.region.merge r'.1.1.2.region) r'.1.1.1, r'.1.2)) ∨
    readRule s = .ok r.1 ∨ readAssignment s = .ok r.1 ∨
    ∃ e s', readValue s.settle = .ok (e, s') ∧ r.1 = (.expression e, s') := by
  cases hn : s.next with
  | mk result after =>
      cases result with
      | error e =>
          rw [read] at h
          split at h
          · cases h
          · next hn' =>
              rw [hn] at hn'
              cases hn'
      | ok t =>
          have hread := read_of_next hn
          rw [h] at hread
          split at hread
          · cases hbody : readBody after with
            | error e =>
                rw [hbody] at hread
                cases hread
            | ok r' =>
                rw [hbody] at hread
                exact .inl ⟨t, after, r', rfl, hbody, Except.ok.inj hread⟩
          · exact .inr (.inl hread.symm)
          · exact .inr (.inr (.inl hread.symm))
          · cases hread
          · cases hvalue : readValue s.settle with
            | error e =>
                rw [hvalue] at hread
                cases hread
            | ok r' =>
                rw [hvalue] at hread
                exact .inr (.inr (.inr ⟨r'.1, r'.2, rfl, Except.ok.inj hread⟩))

theorem readBody_cases {r : Taken s (List Statement × Token)} (h : readBody s = .ok r) :
    (∃ t after, s.next = (.ok t, after) ∧ r.1 = (([], t), after)) ∨
    ∃ r₁ r₂, read s = .ok r₁ ∧ readBody r₁.1.2 = .ok r₂ ∧
      r.1 = ((r₁.1.1 :: r₂.1.1.1, r₂.1.1.2), r₂.1.2) := by
  cases hn : s.next with
  | mk result after =>
      cases result with
      | error e =>
          rw [readBody] at h
          split at h
          · cases h
          · next hn' =>
              rw [hn] at hn'
              cases hn'
      | ok t =>
          have hread := readBody_of_next hn
          rw [h] at hread
          split at hread
          · exact .inl ⟨t, after, rfl, Except.ok.inj hread⟩
          · cases hfirst : read s with
            | error e =>
                rw [hfirst] at hread
                cases hread
            | ok r₁ =>
                rw [hfirst] at hread
                dsimp only at hread
                cases hmore : readBody r₁.1.2 with
                | error e =>
                    rw [hmore] at hread
                    cases hread
                | ok r₂ =>
                    rw [hmore] at hread
                    exact .inr ⟨r₁, r₂, rfl, hmore, Except.ok.inj hread⟩

end Lindenmayer.Statement
