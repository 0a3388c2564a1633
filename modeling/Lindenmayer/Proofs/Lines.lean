import Lindenmayer.Proofs.CharReader
import Lindenmayer.Proofs.Shifting

/-!
# Reading line by line

A statement is never taken up again once its line has ended. So a text that can be
read by itself is read the same when a line end and another text stand behind it,
and that text then is read as if it began there (`ofSource_newline`).

Nearly all of the work is to say what the two readings have in common. Their
streams hold the same tokens up to a `Seam`, where the first has nothing left, or a
carriage return, and the second has a line end and what follows it. Every reader
that succeeds on the first stream does the same on the second, and stops in front
of the seam there, too (`Carries`). It is only success that carries over: a text
that cannot be read may be made readable by more lines, as a block that is not
closed.
-/

namespace Lindenmayer

open Lindenmayer.Text
open Shift (shift)

/-! ## Where two texts meet -/

namespace Token

/-- A line end goes on no token, unless that is a carriage return. -/
theorem lexeme_newline {c : Char} {cs : List Char} (h : c ≠ '\r' ∨ cs ≠ []) (rest : List Char) :
    lexeme c (cs ++ '\n' :: rest) = lexeme c cs := by
  cases hblank : Text.isBlank c with
  | false =>
      refine lexeme_append (fun d hd => .inl ?_) cs
      rw [← Option.some.inj hd, hblank]
      decide
  | true =>
      -- Blanks go on with blanks, of which a line end is one; only they stop at it.
      rcases start_cases c with rfl | ⟨hdelimiter, _⟩ | rfl | rfl | ⟨hdelimiter, hn, hr⟩
      · cases hblank
      · rw [isBlank_of_isDelimiter hdelimiter] at hblank
        cases hblank
      · rfl
      · rw [lexeme_return, lexeme_return]
        cases cs with
        | nil => rcases h with h | h <;> exact absurd rfl h
        | cons d cs => rfl
      · rw [lexeme_of_run hdelimiter hn hr, lexeme_of_run hdelimiter hn hr, if_pos hblank,
          if_pos hblank, takeWhile_append_of_head]
        intro d hd
        rw [← Option.some.inj hd]
        decide

/-- What stands at the end of one text, and what there is in its place in a longer
one, where a line end and more text follow. -/
structure Seam where
  tail : List Token
  eol : Token
  past : List Token
  /-- The length of the longer text in bytes. -/
  stop : Nat
  kind_tail : ∀ t ∈ tail, t.kind = .lineEnd
  kind_eol : eol.kind = .lineEnd

namespace Seam

variable (seam : Seam)

def more : List Token := seam.eol :: seam.past

/-- The stream that starts behind the seam. -/
def stream : TokenStream := ⟨seam.past, seam.stop, true, false⟩

theorem isBlank_tail (t : Token) (ht : t ∈ seam.tail) : t.isBlank = true := by
  rw [isBlank, seam.kind_tail t ht]
  rfl

theorem isBlank_eol : seam.eol.isBlank = true := by
  rw [isBlank, seam.kind_eol]
  rfl

theorem stops_tail : ∀ t ∈ seam.tail.head?, (!t.isBlank) = false := by
  intro t ht
  rw [seam.isBlank_tail t (List.mem_of_mem_head? ht)]
  rfl

theorem stops_more : ∀ t ∈ seam.more.head?, (!t.isBlank) = false := by
  intro t ht
  rw [← Option.some.inj ht, seam.isBlank_eol]
  rfl

/-- What does not end a line stands in front of the seam. -/
theorem exists_front {front ts : List Token} {t : Token} (hfront : front ++ seam.tail = t :: ts)
    (ht : t.kind ≠ .lineEnd) : ∃ front', front = t :: front' ∧ ts = front' ++ seam.tail := by
  rcases List.append_eq_cons_iff.1 hfront with ⟨_, htail⟩ | ⟨front', rfl, rfl⟩
  · exact absurd (seam.kind_tail t (by rw [htail]; exact List.mem_cons_self)) ht
  · exact ⟨front', rfl, rfl⟩

end Seam

/-- A text has the tokens it has by itself up to the seam, and the text behind
the line end has its own. -/
theorem scanFrom_newline (stop offset : Nat) (cs rest : List Char) :
    ∃ seam : Seam, seam.stop = stop ∧
      seam.past = scanFrom (offset + byteLength cs + 1) rest ∧
      ∃ front, scanFrom offset cs = front ++ seam.tail ∧
        scanFrom offset (cs ++ '\n' :: rest) = front ++ seam.more := by
  fun_induction scanFrom offset cs with
  | case1 offset =>
      refine ⟨⟨[], ⟨.lineEnd, "\n", offset⟩, _, stop, fun _ ht => absurd ht List.not_mem_nil, rfl⟩,
        rfl, rfl, [], rfl, ?_⟩
      rw [List.nil_append, scanFrom_cons]
      rfl
  | case2 offset c cs more ih =>
      by_cases hreturn : c = '\r' ∧ cs = []
      · -- The line end that follows makes one token of the carriage return and itself.
        obtain ⟨rfl, rfl⟩ := hreturn
        refine ⟨⟨[⟨.lineEnd, "\r", offset⟩], ⟨.lineEnd, "\r\n", offset⟩, _, stop, ?_, rfl⟩, rfl,
          rfl, [], ?_, ?_⟩
        · intro t ht
          rw [List.mem_singleton.1 ht]
        · show _ :: scanFrom _ [] = _
          rw [scanFrom]
          rfl
        · rw [List.singleton_append, scanFrom_cons]
          rfl
      · have hmore : lexeme c (cs ++ '\n' :: rest) = lexeme c cs :=
          lexeme_newline (Decidable.not_and_iff_not_or_not.1 hreturn) rest
        have hle : (lexeme c cs).2.length ≤ cs.length := (prefix_lexeme c cs).length_le
        have hbytes : offset + byteLength (c :: (lexeme c cs).2) +
            byteLength (cs.drop (lexeme c cs).2.length) = offset + byteLength (c :: cs) := by
          rw [Nat.add_assoc, ← byteLength_append, List.cons_append, lexeme_append_drop]
        obtain ⟨seam, hstop, hpast, front, hfront, hall⟩ := ih
        rw [hbytes] at hpast
        refine ⟨seam, hstop, hpast, _ :: front, congrArg _ hfront, ?_⟩
        rw [List.cons_append, scanFrom_cons, hmore, List.drop_append_of_le_length hle, hall]
        rfl

end Token

/-! ## Expressions -/

namespace ShuntingYard

theorem Step.isSome_region {ts us : List Token} {y z : ShuntingYard} (h : Step ts y us z) :
    z = y ∨ z.region.isSome = true := by
  cases h with
  | blank => exact .inl rfl
  | operand | parensOpen | parensClose | operator => exact .inr rfl

/-- What reading consumes, it covers. -/
theorem isSome_region_of_steps {ts rest : List Token} {y y' : ShuntingYard}
    (h : Steps ts y rest y') : y' = y ∨ y'.region.isSome = true := by
  induction h with
  | refl => exact .inl rfl
  | head hstep _ ih =>
      rcases ih with rfl | hsome
      · exact hstep.isSome_region
      · exact .inr hsome

/-- Where reading ended is told of nothing but an expression that is not there. -/
theorem finish_congr {y : ShuntingYard} (h : y = .empty ∨ y.region.isSome = true) {offset : Nat}
    {e : Expression} (he : y.finish offset = .ok e) (offset' : Nat) : y.finish offset' = .ok e := by
  rcases h with rfl | hsome
  · cases he
  · obtain ⟨r, hr⟩ := Option.isSome_iff_exists.1 hsome
    rw [finish, hr] at he
    rw [finish, hr]
    exact he

end ShuntingYard

section Expressions

variable (seam : Token.Seam)

theorem readString_goesOn {quote content : String} {close : Token} {front rest : List Token}
    (h : readString quote (front ++ seam.tail) = some (content, close, rest)) :
    ∃ front', rest = front' ++ seam.tail ∧
      readString quote (front ++ seam.more) = some (content, close, front' ++ seam.more) := by
  induction front generalizing content close rest with
  | nil =>
      have hnone : readString quote seam.tail = none := readString_eq_none fun t ht hquote =>
        absurd ((seam.kind_tail t ht).symm.trans hquote.1) (by decide)
      rw [List.nil_append, hnone] at h
      cases h
  | cons t front ih =>
      rw [List.cons_append, readString] at h
      rw [List.cons_append, readString]
      split at h
      · next hquote =>
          cases h
          exact ⟨front, rfl, if_pos hquote⟩
      · next hquote =>
          obtain ⟨⟨content', close', rest'⟩, hread, heq⟩ := Option.map_eq_some_iff.1 h
          obtain ⟨front', hrest, hread'⟩ := ih hread
          cases heq
          exact ⟨front', hrest, by rw [if_neg hquote, hread']; rfl⟩

namespace ShuntingYard

variable {t : Token} {front us rest : List Token} {y y' z : ShuntingYard}

theorem Operand.goesOn {e : Expr} {region : Region}
    (h : Operand t (front ++ seam.tail) e region rest) :
    ∃ front', rest = front' ++ seam.tail ∧
      Operand t (front ++ seam.more) e region (front' ++ seam.more) := by
  cases h with
  | identifier hkind => exact ⟨front, rfl, .identifier hkind⟩
  | number hkind hvalue => exact ⟨front, rfl, .number hkind hvalue⟩
  | string hkind hs =>
      obtain ⟨front', rfl, hs'⟩ := readString_goesOn seam hs
      exact ⟨front', rfl, .string hkind hs'⟩

/-- What can be done in front of the seam is done with either of its sides behind. -/
theorem Step.goesOn (h : Step (front ++ seam.tail) y us z) :
    ∃ front', us = front' ++ seam.tail ∧
      Step (front ++ seam.more) y (front' ++ seam.more) z := by
  generalize hts : front ++ seam.tail = ts at h
  cases h with
  | blank hkind =>
      obtain ⟨front, rfl, rfl⟩ := seam.exists_front hts (by rw [hkind]; decide)
      exact ⟨front, rfl, .blank hkind⟩
  | operand he =>
      obtain ⟨front, rfl, rfl⟩ := seam.exists_front hts fun hkind => by
        have hblank := he.isBlank_eq
        rw [Token.isBlank, hkind] at hblank
        cases hblank
      obtain ⟨front', rfl, he'⟩ := he.goesOn
      exact ⟨front', rfl, .operand he'⟩
  | parensOpen hkind =>
      obtain ⟨front, rfl, rfl⟩ := seam.exists_front hts (by rw [hkind]; decide)
      exact ⟨front, rfl, .parensOpen hkind⟩
  | parensClose hkind hclose =>
      obtain ⟨front, rfl, rfl⟩ := seam.exists_front hts (by rw [hkind]; decide)
      exact ⟨front, rfl, .parensClose hkind hclose⟩
  | operator hsign hyield =>
      obtain ⟨front, rfl, rfl⟩ := seam.exists_front hts (by rw [hsign.1]; decide)
      exact ⟨front, rfl, .operator hsign hyield⟩

theorem Steps.goesOn (h : Steps (front ++ seam.tail) y rest y') :
    ∃ front', rest = front' ++ seam.tail ∧
      Steps (front ++ seam.more) y (front' ++ seam.more) y' := by
  generalize hts : front ++ seam.tail = ts at h
  induction h generalizing front with
  | refl => exact ⟨front, hts.symm, .refl⟩
  | head hstep _ ih =>
      subst hts
      obtain ⟨middle, rfl, hstep'⟩ := hstep.goesOn
      obtain ⟨front', rfl, hsteps⟩ := ih rfl
      exact ⟨front', rfl, .head hstep' hsteps⟩

end ShuntingYard

/-- An expression ends in front of the seam, if not before. -/
theorem read_goesOn (stop' : Nat) {stop : Nat} {front rest : List Token} {y y' : ShuntingYard}
    (h : ShuntingYard.read stop (front ++ seam.tail) y = .ok (y', rest)) :
    ∃ front', rest = front' ++ seam.tail ∧
      ShuntingYard.read stop' (front ++ seam.more) y = .ok (y', front' ++ seam.more) := by
  obtain ⟨hsteps, hend⟩ := ShuntingYard.steps_of_read h
  obtain ⟨front', rfl, hsteps'⟩ := hsteps.goesOn
  refine ⟨front', rfl, (ShuntingYard.read_of_steps hsteps').trans (ShuntingYard.read_end ?_)⟩
  cases front' with
  | nil => exact .inl seam.kind_eol
  | cons t front' => exact hend

theorem readExpression_goesOn (stop' : Nat) {stop : Nat} {front rest : List Token} {e : Expression}
    (h : readExpression stop (front ++ seam.tail) = .ok (e, rest)) :
    ∃ front', rest = front' ++ seam.tail ∧
      readExpression stop' (front ++ seam.more) = .ok (e, front' ++ seam.more) := by
  rw [readExpression] at h
  split at h
  · cases h
  · next y rest' hread =>
      split at h
      · cases h
      · next hfinish =>
          cases h
          obtain ⟨front', hrest, hread'⟩ := read_goesOn seam stop' hread
          have hcovered := ShuntingYard.isSome_region_of_steps (ShuntingYard.steps_of_read hread).1
          refine ⟨front', hrest, ?_⟩
          rw [readExpression, hread']
          dsimp only
          rw [ShuntingYard.finish_congr hcovered hfinish]

end Expressions

/-! ## Statements -/

namespace TokenStream

variable {seam : Token.Seam} {s s' after : TokenStream} {t : Token}

/-- Whether one stream goes on behind a seam where the other one ends, and has
the same left up to there. -/
def GoesOn (seam : Token.Seam) (s s' : TokenStream) : Prop :=
  ∃ front stop, s = ⟨front ++ seam.tail, stop, true, false⟩ ∧
    s' = ⟨front ++ seam.more, seam.stop, true, false⟩

/-- Either nothing is left in front of the seam but blanks, or there is a token
that is next for both. -/
theorem GoesOn.settle_cases (h : s.GoesOn seam s') :
    (s.settle.rest = [] ∧ s'.settle = seam.stream.settle) ∨
      ∃ t front, s.settle = ⟨t :: (front ++ seam.tail), s.stop, true, false⟩ ∧
        s'.settle = ⟨t :: (front ++ seam.more), seam.stop, true, false⟩ := by
  obtain ⟨front, stop, rfl, rfl⟩ := h
  have hdrop : ∀ ts : List Token, (front ++ ts).dropWhile Token.isBlank =
      if (front.dropWhile Token.isBlank).isEmpty then ts.dropWhile Token.isBlank
      else front.dropWhile Token.isBlank ++ ts := fun ts => List.dropWhile_append ..
  have hsettle : ∀ (ts : List Token) (stop : Nat),
      (⟨front ++ ts, stop, true, false⟩ : TokenStream).settle =
        ⟨(front ++ ts).dropWhile Token.isBlank, stop, true, false⟩ := fun _ _ => rfl
  rw [hsettle, hsettle, hdrop, hdrop]
  cases front.dropWhile Token.isBlank with
  | nil =>
      refine .inl ⟨List.dropWhile_eq_nil_iff.2 seam.isBlank_tail, ?_⟩
      have heol : seam.more.dropWhile Token.isBlank = seam.past.dropWhile Token.isBlank :=
        List.dropWhile_cons_of_pos seam.isBlank_eol
      exact congrArg (fun ts => (⟨ts, seam.stop, true, false⟩ : TokenStream)) heol
  | cons t front => exact .inr ⟨t, front, rfl, rfl⟩

theorem GoesOn.next (h : s.GoesOn seam s') (hn : s.next = (.ok t, after)) :
    ∃ after', s'.next = (.ok t, after') ∧ after.GoesOn seam after' ∧
      s.settle.GoesOn seam s'.settle := by
  rcases h.settle_cases with ⟨hrest, _⟩ | ⟨u, front, hsettle, hsettle'⟩
  · rw [next_of_nil hrest] at hn
    cases hn
  · rw [TokenStream.next, hsettle] at hn
    cases hn
    refine ⟨⟨front ++ seam.more, seam.stop, true, false⟩, ?_, ⟨front, s.stop, rfl, rfl⟩,
      t :: front, s.stop, hsettle, hsettle'⟩
    rw [TokenStream.next, hsettle']

theorem next_congr (h : s.settle = s'.settle) : s.next = s'.next := by
  have hstop : s.stop = s'.stop := by rw [← s.settle_stop, h, s'.settle_stop]
  rw [TokenStream.next, TokenStream.next, h, hstop]

end TokenStream

namespace Statement

/-- Whether what was read from one stream is read from the other as well, with
streams left that are still alike up to the seam. -/
def Carries {α : Type} (seam : Token.Seam) (x x' : Except SyntaxError (α × TokenStream)) :
    Prop :=
  ∀ a s, x = .ok (a, s) → ∃ s', x' = .ok (a, s') ∧ s.GoesOn seam s'

section Readers

variable {seam : Token.Seam} {s s' : TokenStream} {α β : Type}

theorem Carries.error {e : SyntaxError} {x : Except SyntaxError (α × TokenStream)} :
    Carries seam (.error e) x := nofun

theorem Carries.cases {x x' : Except SyntaxError (α × TokenStream)} (h : Carries seam x x') :
    (∃ e, x = .error e) ∨
      ∃ a s s', x = .ok (a, s) ∧ x' = .ok (a, s') ∧ s.GoesOn seam s' := by
  cases x with
  | error e => exact .inl ⟨e, rfl⟩
  | ok r =>
      obtain ⟨s', hx', hs⟩ := h r.1 r.2 rfl
      exact .inr ⟨r.1, r.2, s', rfl, hx', hs⟩

theorem Carries.map (f : α → β) {x x' : Except SyntaxError (α × TokenStream)}
    (h : Carries seam x x') :
    Carries seam (x.map fun r => (f r.1, r.2)) (x'.map fun r => (f r.1, r.2)) := by
  rcases h.cases with ⟨e, rfl⟩ | ⟨a, s, s', rfl, rfl, hs⟩
  · exact .error
  · rintro _ _ heq
    cases heq
    exact ⟨s', rfl, hs⟩

variable (h : s.GoesOn seam s')

include h

theorem carries_expect (kind : TokenKind) : Carries seam (expect kind s) (expect kind s') := by
  intro t after he
  obtain ⟨hn, hkind⟩ := next_of_expect he
  obtain ⟨after', hn', hafter, _⟩ := h.next hn
  refine ⟨after', ?_, hafter⟩
  simp only [expect, TokenStream.nextKind, hn', if_pos hkind]

theorem carries_readValue : Carries seam (readValue s) (readValue s') := by
  obtain ⟨front, stop, rfl, rfl⟩ := h
  intro e after hread
  rw [readValue] at hread
  split at hread
  · next hvalue =>
      cases hread
      obtain ⟨front', rfl, hvalue'⟩ := readExpression_goesOn seam seam.stop hvalue
      refine ⟨⟨front' ++ seam.more, seam.stop, true, false⟩, ?_, front', stop, rfl, rfl⟩
      rw [readValue, hvalue']
  · cases hread

theorem carries_unbrokenRun : Carries seam (unbrokenRun s) (unbrokenRun s') := by
  intro run after hread
  rw [unbrokenRun] at hread
  split at hread
  · cases hread
  · next first s₁ hn =>
      obtain ⟨s₁', hn', ⟨front, stop, rfl, rfl⟩, _⟩ := h.next hn
      cases hread
      rw [unbrokenRun, hn']
      dsimp only
      rw [Token.takeWhile_append_of_head seam.stops_tail,
        Token.takeWhile_append_of_head seam.stops_more,
        Token.dropWhile_append_of_head seam.stops_tail,
        Token.dropWhile_append_of_head seam.stops_more]
      exact ⟨_, rfl, front.dropWhile (!·.isBlank), stop, rfl, rfl⟩

/-- A rule is called the same, or it ends before its colon. -/
theorem carries_readRuleName :
    (readRuleName s').1 = (readRuleName s).1 ∧
        (readRuleName s).2.GoesOn seam (readRuleName s').2 ∨
      ∃ e, expect .colon (readRuleName s).2 = .error e := by
  cases hn : s.next with
  | mk result after =>
      cases result with
      | error e =>
          -- What stands behind the seam may be taken for a name, but not by itself.
          refine .inr ⟨e, ?_⟩
          simp only [readRuleName, hn, expect, TokenStream.nextKind]
      | ok t =>
          obtain ⟨after', hn', hafter, _⟩ := h.next hn
          simp only [readRuleName, hn, hn']
          split
          · exact .inl ⟨rfl, hafter⟩
          · exact .inl ⟨rfl, h⟩

theorem carries_readAssignment : Carries seam (readAssignment s) (readAssignment s') := by
  rw [readAssignment, readAssignment]
  rcases (carries_expect h .setWord).cases with ⟨e, heq⟩ | ⟨set, s₁, s₁', heq, heq', h₁⟩
  · rw [heq]
    exact .error
  rw [heq, heq']
  rcases (carries_expect h₁ .identifier).cases with
    ⟨e, heq⟩ | ⟨name, s₂, s₂', heq, heq', h₂⟩
  · simp only [heq]
    exact .error
  simp only [heq, heq']
  rcases (carries_expect h₂ .assignment).cases with
    ⟨e, heq⟩ | ⟨equals, s₃, s₃', heq, heq', h₃⟩
  · rw [heq]
    exact .error
  rw [heq, heq']
  rcases (carries_readValue h₃).cases with ⟨e, heq⟩ | ⟨value, s₄, s₄', heq, heq', h₄⟩
  · simp only [heq]
    exact .error
  simp only [heq, heq']
  intro st after hst
  cases hst
  exact ⟨s₄', rfl, h₄⟩

theorem carries_readRule : Carries seam (readRule s) (readRule s') := by
  rw [readRule, readRule]
  rcases (carries_expect h .ruleWord).cases with ⟨e, heq⟩ | ⟨word, s₁, s₁', heq, heq', h₁⟩
  · rw [heq]
    exact .error
  rw [heq, heq']
  dsimp only
  rcases carries_readRuleName h₁ with ⟨hname, h₂⟩ | ⟨e, heq⟩
  swap
  · rw [heq]
    exact .error
  rcases (carries_expect h₂ .colon).cases with ⟨e, heq⟩ | ⟨colon, s₃, s₃', heq, heq', h₃⟩
  · rw [heq]
    exact .error
  rw [heq, heq', hname]
  dsimp only
  rcases (carries_unbrokenRun h₃).cases with
    ⟨e, heq⟩ | ⟨expected, s₄, s₄', heq, heq', h₄⟩
  · rw [heq]
    exact .error
  rw [heq, heq']
  dsimp only
  rcases (carries_expect h₄ .arrow).cases with ⟨e, heq⟩ | ⟨arrow, s₅, s₅', heq, heq', h₅⟩
  · rw [heq]
    exact .error
  rw [heq, heq']
  dsimp only
  rcases (carries_unbrokenRun h₅).cases with
    ⟨e, heq⟩ | ⟨replacement, s₆, s₆', heq, heq', h₆⟩
  · rw [heq]
    exact .error
  rw [heq, heq']
  intro st after hst
  cases hst
  exact ⟨s₆', rfl, h₆⟩

end Readers

section Sequences

variable (seam : Token.Seam)

mutual

theorem carries_read {s s' : TokenStream} (h : s.GoesOn seam s') :
    Carries seam ((read s).map Subtype.val) ((read s').map Subtype.val) := by
  cases hn : s.next with
  | mk result after =>
      cases result with
      | error e =>
          rw [read_of_end hn]
          exact .error
      | ok t =>
          have hlt := TokenStream.remaining_next_lt hn
          obtain ⟨after', hn', hafter, hsettle⟩ := h.next hn
          rw [read_of_next hn, read_of_next hn']
          cases hkind : t.kind with
          | curlyOpen =>
              let block (r : List Statement × Token) :=
                Statement.block (t.region.merge r.2.region) r.1
              have hbody := (carries_readBody hafter).map block
              rw [← map_map_val, ← map_map_val] at hbody
              exact hbody
          | ruleWord => exact carries_readRule h
          | setWord => exact carries_readAssignment h
          | curlyClose => exact .error
          | _ => exact (carries_readValue hsettle).map Statement.expression
termination_by 2 * s.remaining

theorem carries_readBody {s s' : TokenStream} (h : s.GoesOn seam s') :
    Carries seam ((readBody s).map Subtype.val) ((readBody s').map Subtype.val) := by
  cases hn : s.next with
  | mk result after =>
      cases result with
      | error e =>
          rw [readBody_of_end hn]
          exact .error
      | ok t =>
          obtain ⟨after', hn', hafter, _⟩ := h.next hn
          rw [readBody_of_next hn, readBody_of_next hn']
          split
          · intro r s₁ heq
            cases heq
            exact ⟨after', rfl, hafter⟩
          · have hfirst := carries_read h
            cases hread : read s with
            | error e => exact .error
            | ok r =>
                rw [hread] at hfirst
                obtain ⟨s₁', hread', h₁⟩ := hfirst r.1.1 r.1.2 rfl
                obtain ⟨r', hr', heq⟩ := exists_of_map_val hread'
                have hlt := r.2
                let onto (first : Statement) (body : List Statement × Token) :=
                  (first :: body.1, body.2)
                have hmore := (carries_readBody h₁).map (onto r.1.1)
                rw [← map_map_val, ← map_map_val] at hmore
                rw [hr']
                dsimp only
                rw [heq]
                exact hmore
termination_by 2 * s.remaining + 1

end

end Sequences

section Congruence

variable {s s' : TokenStream} (h : s.settle = s'.settle)

include h

theorem expect_congr (kind : TokenKind) : expect kind s = expect kind s' := by
  rw [expect, expect, TokenStream.nextKind, TokenStream.nextKind, TokenStream.next_congr h]

theorem read_congr : (read s).map Subtype.val = (read s').map Subtype.val := by
  have hnext := TokenStream.next_congr h
  cases hn : s.next with
  | mk result after =>
      rw [hn] at hnext
      cases result with
      | error e =>
          rw [read_of_end hn, read_of_end hnext.symm]
          rfl
      | ok t =>
          rw [read_of_next hn, read_of_next hnext.symm, readRule, readRule, readAssignment,
            readAssignment, expect_congr h, expect_congr h, h]

/-- Blanks in front of a sequence of statements make no difference to it. -/
theorem readAll_congr : readAll s = readAll s' := by
  have hatEnd : s.atEnd = s'.atEnd := by rw [TokenStream.atEnd, TokenStream.atEnd, h]
  by_cases hend : s.atEnd.1 = true
  · rw [readAll_nil hend, readAll_nil (hatEnd ▸ hend)]
  · rw [readAll_of_not_atEnd hend, readAll_of_not_atEnd (hatEnd ▸ hend), read_congr h]

end Congruence

/-- What is read up to the seam is followed by what is read behind it. -/
theorem readAll_goesOn {seam : Token.Seam} {s s' : TokenStream} (h : s.GoesOn seam s')
    {sts : List Statement} (hread : readAll s = .ok sts) :
    readAll s' = (readAll seam.stream).map (sts ++ ·) := by
  rcases h.settle_cases with ⟨hrest, hsettle⟩ | ⟨t, front, hsettle, hsettle'⟩
  · rw [readAll_nil (congrArg Prod.fst (TokenStream.atEnd_of_nil hrest))] at hread
    cases hread
    rw [readAll_congr hsettle]
    cases readAll seam.stream <;> rfl
  · have hend : ¬ s.atEnd.1 = true := by
      rw [TokenStream.atEnd, hsettle]
      exact Bool.false_ne_true
    have hend' : ¬ s'.atEnd.1 = true := by
      rw [TokenStream.atEnd, hsettle']
      exact Bool.false_ne_true
    have hfirst := carries_read seam h
    rw [readAll_of_not_atEnd hend] at hread
    rw [readAll_of_not_atEnd hend']
    cases hr : read s with
    | error e =>
        rw [hr] at hread
        cases hread
    | ok r =>
        rw [hr] at hfirst hread
        obtain ⟨s₁', hfirst', h₁⟩ := hfirst r.1.1 r.1.2 rfl
        have hlt := r.2
        rw [hfirst']
        change (readAll r.1.2).map (r.1.1 :: ·) = .ok sts at hread
        show (readAll s₁').map (r.1.1 :: ·) = _
        cases hmore : readAll r.1.2 with
        | error e =>
            rw [hmore] at hread
            cases hread
        | ok more =>
            rw [hmore] at hread
            cases hread
            rw [readAll_goesOn h₁ hmore]
            cases readAll seam.stream <;> rfl
termination_by s.remaining

/-- A text that can be read is read the same in front of a line end and another
text, which is read as it is by itself but further down. -/
theorem ofSource_newline {source : String} {program : List Statement}
    (h : ofSource source = .ok program) (other : String) :
    ofSource (source ++ "\n" ++ other) =
      (shift (source.utf8ByteSize + 1) (ofSource other)).map (program ++ ·) := by
  have htext : (source ++ "\n" ++ other).toList = source.toList ++ '\n' :: other.toList := by
    rw [String.toList_append, String.toList_append, List.append_assoc]
    rfl
  have hsize : (source ++ "\n" ++ other).utf8ByteSize =
      other.utf8ByteSize + (source.utf8ByteSize + 1) := by
    rw [String.utf8ByteSize_append, String.utf8ByteSize_append, Nat.add_comm]
    rfl
  obtain ⟨seam, hstop, hpast, front, hfront, hall⟩ := Token.scanFrom_newline
    (source ++ "\n" ++ other).utf8ByteSize 0 source.toList other.toList
  have hgoes : (TokenStream.ofSource source).GoesOn seam
      (TokenStream.ofSource (source ++ "\n" ++ other)) := by
    refine ⟨front, source.utf8ByteSize, ?_, ?_⟩
    · rw [TokenStream.ofSource, Token.scan, hfront]
    · rw [TokenStream.ofSource, Token.scan, htext, hall, hstop]
  have hstream : seam.stream = shift (source.utf8ByteSize + 1) (TokenStream.ofSource other) := by
    rw [← utf8ByteSize_eq, Nat.add_assoc, Token.scanFrom_shift] at hpast
    rw [Token.Seam.stream, hpast, hstop, hsize]
    rfl
  rw [ofSource, readAll_goesOn hgoes h, hstream, readAll_shift]
  rfl

end Statement

end Lindenmayer
