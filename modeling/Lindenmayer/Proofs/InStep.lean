import Lindenmayer.Proofs.Links
import Lindenmayer.Proofs.OnePass
import Lindenmayer.Proofs.Readers
import Lindenmayer.Proofs.YardSteps

/-!
# Reading and planting at once

`Parser` does in one pass what readers and planting do one after the other. A
reader's stream and the stream that a model of it is left with need not be the
same: the one has looked ahead, and has dropped blanks that the other has kept.
They are `Alike`, which is all that the next reader goes by. Where blanks are
significant nothing is dropped, and the tokens that are left say all, as `At` has
it.

Each part of the parser is followed by the reader it does the work of, in the
order of the source: `Follows` for those that make no nodes, `Gives` for those
that do. What they make is what planting makes of what was read, since both go
through operands before operators and through statements before their block. Each
result is about what the parser comes to, so it says too that the fuel there was
lasts: a loop takes a token in each round, and statements in blocks take a token
in every third.
-/

namespace Lindenmayer

namespace TokenStream

variable {s s' : TokenStream}

/-! ## Streams that come to the same -/

/-- Whether two streams have the same tokens left once blanks are out of the way. -/
structure Alike (s s' : TokenStream) : Prop where
  rest : s.settle.rest = s'.settle.rest
  stop : s.stop = s'.stop
  skipping : s.skipping = s'.skipping

namespace Alike

theorem refl (s : TokenStream) : s.Alike s := ⟨rfl, rfl, rfl⟩

/-- A token that is looked at stays the next one. -/
theorem buffered (h : s.Alike s') : ({ s.settle with buffered := true } : TokenStream).Alike s' :=
  ⟨by rw [settle_of_buffered rfl]; exact h.rest, (settle_stop s).trans h.stop,
    (settle_skipping s).trans h.skipping⟩

theorem settle (h : s.Alike s') : s.settle.Alike s' :=
  ⟨by rw [settle_settle]; exact h.rest, (settle_stop s).trans h.stop,
    (settle_skipping s).trans h.skipping⟩

/-- Taking the next token makes up for all difference. -/
theorem next_eq {t : Token} {rest : List Token} (h : s.Alike s')
    (hrest : s.settle.rest = t :: rest) : s.next = s'.next := by
  rw [next_of_cons hrest, next_of_cons (h.rest.symm.trans hrest)]
  simp only [TokenStream.mk.injEq, Prod.mk.injEq, true_and, and_true, settle_stop, settle_skipping]
  exact ⟨h.stop, h.skipping⟩

end Alike

theorem settle_of_not_skipping (h : s.skipping = false) : s.settle = s := by
  simp [settle, h]

theorem setSkipping_false (s : TokenStream) :
    s.setSkipping false = { s with skipping := false } := by
  unfold setSkipping
  split <;> rfl

/-- Switching back drops the blank that was looked at last, and so comes to the
same as not to have looked. -/
theorem setSkipping_alike (s : TokenStream) (b : Bool) :
    (s.setSkipping b).Alike ⟨s.rest, s.stop, b, false⟩ := by
  obtain ⟨rest, stop, skipping, buffered⟩ := s
  cases rest with
  | nil => cases b <;> cases buffered <;> exact ⟨rfl, rfl, rfl⟩
  | cons t rest =>
      cases hblank : t.isBlank <;> cases b <;> cases buffered <;>
        exact ⟨by simp [setSkipping, TokenStream.settle, hblank], by simp [setSkipping, hblank],
          by simp [setSkipping, hblank]⟩

end TokenStream

namespace Parser

variable {α β : Type} {p q : Parser} {s : TokenStream} {t : Token} {rest ts : List Token}

/-! ## Asking the reader -/

theorem ask_ok {f : CharReader → Except SyntaxError α × CharReader} {a : α} {r : CharReader}
    (h : f p.reader = (.ok a, r)) : ask f p = some (.ok (a, { p with reader := r })) := by
  rw [ask, h]

theorem ask_error {f : CharReader → Except SyntaxError α × CharReader} {e : SyntaxError}
    {r : CharReader} (h : f p.reader = (.error e, r)) : ask f p = some (.error e) := by
  rw [ask, h]

theorem atEnd_of_nil (h : p.reader.stream.settle.rest = []) :
    ∃ r, atEnd p = some (.ok (true, { p with reader := r })) ∧
      r.stream = p.reader.stream.settle := by
  obtain ⟨r, hstream, ⟨_, hend⟩ | ⟨t, rest, hrest, _⟩⟩ := CharReader.atEnd_cases p.reader
  · exact ⟨r, by rw [atEnd, test, hend], hstream⟩
  · rw [h] at hrest
    cases hrest

theorem atEnd_of_cons (h : p.reader.stream.settle.rest = t :: rest) :
    ∃ r, atEnd p = some (.ok (false, { p with reader := r })) ∧
      r.stream = p.reader.stream.settle := by
  obtain ⟨r, hstream, ⟨hrest, _⟩ | ⟨_, _, _, hend⟩⟩ := CharReader.atEnd_cases p.reader
  · rw [h] at hrest
    cases hrest
  · exact ⟨r, by rw [atEnd, test, hend], hstream⟩

theorem peek_of_nil (h : p.reader.stream.settle.rest = []) :
    peek p = some (.error (.prematureEnd p.reader.stream.stop)) := by
  have hpeek := CharReader.stream_peek p.reader
  rw [TokenStream.peek_of_nil h] at hpeek
  exact ask_error (Prod.ext (congrArg Prod.fst hpeek).symm rfl)

theorem peek_of_cons (h : p.reader.stream.settle.rest = t :: rest) :
    ∃ r, peek p = some (.ok (t, { p with reader := r })) ∧
      r.stream = { p.reader.stream.settle with buffered := true } := by
  obtain ⟨r, hpeek, hstream⟩ := CharReader.exists_peek h
  exact ⟨r, ask_ok hpeek, hstream⟩

theorem peekKind_of_nil (kind : TokenKind) (h : p.reader.stream.settle.rest = []) :
    ∃ r, peekKind kind p = some (.ok (false, { p with reader := r })) ∧
      r.stream = p.reader.stream.settle := by
  have hpeek := CharReader.stream_peekKind kind p.reader
  rw [TokenStream.peekKind, TokenStream.peek_of_nil h] at hpeek
  obtain ⟨hanswer, hstream⟩ := Prod.mk.inj hpeek
  exact ⟨_, by rw [peekKind, test, ← hanswer], hstream.symm⟩

theorem peekKind_of_cons (kind : TokenKind) (h : p.reader.stream.settle.rest = t :: rest) :
    ∃ r, peekKind kind p = some (.ok (t.kind == kind, { p with reader := r })) ∧
      r.stream = { p.reader.stream.settle with buffered := true } := by
  have hpeek := CharReader.stream_peekKind kind p.reader
  rw [TokenStream.peekKind, TokenStream.peek_of_cons h] at hpeek
  obtain ⟨hanswer, hstream⟩ := Prod.mk.inj hpeek
  exact ⟨_, by rw [peekKind, test, ← hanswer], hstream.symm⟩

theorem next_of_cons (h : p.reader.stream.settle.rest = t :: rest) :
    ∃ r, next p = some (.ok (t, { p with reader := r })) ∧
      r.stream = { p.reader.stream.settle with rest, buffered := false } := by
  obtain ⟨r, hnext, hstream⟩ := CharReader.exists_next h
  exact ⟨r, ask_ok hnext, hstream⟩

theorem get_run (p : Parser) : (get : Parsing Parser) p = some (.ok (p, p)) := rfl

theorem skipping_run (p : Parser) : skipping p = some (.ok (p.reader.skipping, p)) := rfl

theorem setSkipping_run (b : Bool) (p : Parser) :
    setSkipping b p = some (.ok ((), { p with reader := p.reader.setSkipping b })) := rfl

theorem make_run (kind : NodeKind) (region : Region) (children : List NodeId) (p : Parser) :
    make kind region children p = some (.ok (⟨p.tree.size⟩,
      { p with tree := (p.tree.newNode kind region).2.addChildren ⟨p.tree.size⟩ children })) :=
  rfl

/-- The place of the end, for whoever has got there. -/
theorem offset_of_nil (h : p.reader.stream.rest = []) :
    offset p = some (.ok (p.reader.stream.stop, p)) := by
  show some (Except.ok (p.reader.offset, p)) = _
  rw [← CharReader.stream_offset, TokenStream.offset, h]

end Parser

/-! ## Readers that mind blanks -/

namespace CharReader

variable {r r' : CharReader} {stop : Nat} {ts rest : List Token}

/-- Whether a reader that hands out blanks has the tokens `ts` left of a source of
`stop` bytes. -/
structure At (r : CharReader) (stop : Nat) (ts : List Token) : Prop where
  rest : r.stream.rest = ts
  stop : r.stream.stop = stop
  skipping : r.stream.skipping = false

namespace At

theorem settle_eq (h : r.At stop ts) : r.stream.settle = r.stream :=
  TokenStream.settle_of_not_skipping h.skipping

theorem settle_rest (h : r.At stop ts) : r.stream.settle.rest = ts := by
  rw [h.settle_eq, h.rest]

theorem of_stream {buffered : Bool} (h : r.At stop ts)
    (hr : r'.stream = { r.stream with rest, buffered }) : r'.At stop rest := by
  refine ⟨?_, ?_, ?_⟩
  · rw [hr]
  · rw [hr]
    exact h.stop
  · rw [hr]
    exact h.skipping

end At

/-- Switching to significant blanks drops nothing. -/
theorem at_setSkipping (r : CharReader) : (r.setSkipping false).At r.stream.stop r.stream.rest := by
  refine ⟨?_, ?_, ?_⟩
  all_goals rw [← stream_setSkipping, TokenStream.setSkipping_false]

theorem At.setSkipping (h : r.At stop ts) : (r.setSkipping false).At stop ts := by
  have hat := r.at_setSkipping
  rwa [h.rest, h.stop] at hat

end CharReader

namespace Parser

variable {p : Parser} {stop : Nat} {t : Token} {ts rest : List Token}

theorem atEnd_at_nil (h : p.reader.At stop []) :
    ∃ r, atEnd p = some (.ok (true, { p with reader := r })) ∧ r.At stop [] := by
  obtain ⟨r, hend, hr⟩ := atEnd_of_nil h.settle_rest
  rw [h.settle_eq] at hr
  exact ⟨r, hend, by rw [hr]; exact h.rest, by rw [hr]; exact h.stop, by rw [hr]; exact h.skipping⟩

theorem atEnd_at_cons (h : p.reader.At stop (t :: ts)) :
    ∃ r, atEnd p = some (.ok (false, { p with reader := r })) ∧ r.At stop (t :: ts) := by
  obtain ⟨r, hend, hr⟩ := atEnd_of_cons h.settle_rest
  rw [h.settle_eq] at hr
  exact ⟨r, hend, by rw [hr]; exact h.rest, by rw [hr]; exact h.stop, by rw [hr]; exact h.skipping⟩

theorem peek_at (h : p.reader.At stop (t :: ts)) :
    ∃ r, peek p = some (.ok (t, { p with reader := r })) ∧ r.At stop (t :: ts) := by
  obtain ⟨r, hpeek, hr⟩ := peek_of_cons h.settle_rest
  rw [h.settle_eq] at hr
  have hsame : r.stream = { p.reader.stream with rest := t :: ts, buffered := true } := by
    rw [hr, ← h.rest]
  exact ⟨r, hpeek, h.of_stream hsame⟩

theorem next_at (h : p.reader.At stop (t :: ts)) :
    ∃ r, next p = some (.ok (t, { p with reader := r })) ∧ r.At stop ts := by
  obtain ⟨r, hnext, hr⟩ := next_of_cons h.settle_rest
  rw [h.settle_eq] at hr
  exact ⟨r, hnext, h.of_stream hr⟩

theorem offset_at (h : p.reader.At stop ts) :
    offset p = some (.ok ((ts.head?.map Token.offset).getD stop, p)) := by
  show some (Except.ok (p.reader.offset, p)) = _
  rw [← CharReader.stream_offset, TokenStream.offset, h.rest, h.stop]
  cases ts with
  | nil => rfl
  | cons t ts => rfl

/-- Where a token is left, whoever asks for the end first and then looks at a token
is shown that one. -/
theorem look_at (h : p.reader.At stop (t :: ts)) :
    ∃ r, r.At stop (t :: ts) ∧ ∀ {α : Type} (done : Parsing α) (f : Token → Parsing α),
      (atEnd >>= fun b => if b = true then done else peek >>= f) p =
        f t { p with reader := r } := by
  obtain ⟨r₁, hend, hr₁⟩ := atEnd_at_cons h
  obtain ⟨r₂, hpeek, hr₂⟩ := peek_at (p := { p with reader := r₁ }) hr₁
  refine ⟨r₂, hr₂, fun done f => ?_⟩
  rw [bind_ok hend, if_neg Bool.false_ne_true, bind_ok hpeek]

/-- Reading on up to the next blank. -/
theorem runOn_at {fuel : Nat} (h : p.reader.At stop ts) (hfuel : ts.length < fuel)
    (run : String × Region) :
    ∃ r, runOn fuel run p = some (.ok ((ts.takeWhile (!·.isBlank)).foldl
        (fun run t => (run.1 ++ t.text, run.2.merge t.region)) run, { p with reader := r })) ∧
      r.At stop (ts.dropWhile (!·.isBlank)) := by
  induction fuel generalizing p ts run with
  | zero => exact absurd hfuel (Nat.not_lt_zero _)
  | succ fuel ih =>
    cases ts with
    | nil =>
        obtain ⟨r, hend, hr⟩ := atEnd_at_nil h
        rw [runOn, bind_ok hend]
        exact ⟨r, rfl, hr⟩
    | cons t ts =>
        obtain ⟨r, hr, hlook⟩ := look_at h
        rw [runOn, hlook]
        cases hblank : t.isBlank with
        | true =>
            rw [if_pos rfl, List.takeWhile_cons_of_neg (by simp [hblank]),
              List.dropWhile_cons_of_neg (by simp [hblank])]
            exact ⟨r, rfl, hr⟩
        | false =>
            obtain ⟨r', hnext, hr'⟩ := next_at (p := { p with reader := r }) hr
            obtain ⟨r'', hrun, hr''⟩ := ih (p := { p with reader := r' }) hr'
              (Nat.lt_of_succ_lt_succ hfuel) (run.1 ++ t.text, run.2.merge t.region)
            rw [if_neg Bool.false_ne_true, bind_ok hnext,
              List.takeWhile_cons_of_pos (by simp [hblank]),
              List.dropWhile_cons_of_pos (by simp [hblank])]
            exact ⟨r'', hrun, hr''⟩

/-! ## The parts of statements -/

/-- Whether it came to what a result says: to the same error, or to an answer and
a state as `Q` says. -/
def Gives {α β : Type} (outcome : Option (Except SyntaxError (α × Parser)))
    (Q : β → α → Parser → Prop) : Except SyntaxError β → Prop
  | .error e => outcome = some (.error e)
  | .ok b => ∃ a q, outcome = some (.ok (a, q)) ∧ Q b a q

theorem Gives.cases {α β : Type} {outcome : Option (Except SyntaxError (α × Parser))}
    {Q : β → α → Parser → Prop} {y : Except SyntaxError β} (h : Gives outcome Q y) :
    (∃ e, y = .error e ∧ outcome = some (.error e)) ∨
    ∃ b a q, y = .ok b ∧ outcome = some (.ok (a, q)) ∧ Q b a q := by
  cases y with
  | error e => exact .inl ⟨e, rfl, h⟩
  | ok b =>
      obtain ⟨a, q, hrun, hq⟩ := h
      exact .inr ⟨b, a, q, rfl, hrun, hq⟩

/-- The same with another reading of what there is in the result. -/
theorem Gives.remap {α β γ δ : Type} {outcome : Option (Except SyntaxError (α × Parser))}
    {Q : β → α → Parser → Prop} {Q' : γ → α → Parser → Prop} {f : δ → β} {g : δ → γ}
    {y : Except SyntaxError δ} (h : Gives outcome Q (y.map f))
    (hg : ∀ d a q, Q (f d) a q → Q' (g d) a q) : Gives outcome Q' (y.map g) := by
  cases y with
  | error e => exact h
  | ok d =>
      obtain ⟨a, q, hrun, hq⟩ := h
      exact ⟨a, q, hrun, hg d a q hq⟩

/-- Whether a parser goes by its reader alone, and gets to the answer of a reader
with as much left as `R` says. -/
def Follows {α : Type} (x : Parsing α) (p : Parser) (R : TokenStream → TokenStream → Prop) :
    Except SyntaxError (α × TokenStream) → Prop :=
  Gives (x p) fun b a q => a = b.1 ∧ ∃ r, q = { p with reader := r } ∧ R r.stream b.2

variable {s : TokenStream}

theorem expect_congr (kind : TokenKind) {s s' : TokenStream} (h : s.Alike s') :
    Statement.expect kind s = Statement.expect kind s' := by
  cases hrest : s.settle.rest with
  | nil =>
      simp only [Statement.expect, TokenStream.nextKind, TokenStream.next_of_nil hrest,
        TokenStream.next_of_nil (h.rest.symm.trans hrest), h.stop]
  | cons t rest =>
      simp only [Statement.expect, TokenStream.nextKind, h.next_eq hrest]

theorem follows_nextKind (kind : TokenKind) (h : p.reader.stream.Alike s) :
    Follows (nextKind kind) p Eq (Statement.expect kind s) := by
  rw [← expect_congr kind h, Statement.expect, CharReader.stream_nextKind]
  cases hnext : p.reader.nextKind kind with
  | mk result r =>
      cases result with
      | error e => exact ask_error hnext
      | ok t => exact ⟨t, _, ask_ok hnext, rfl, r, rfl, rfl⟩

theorem follows_unbrokenRun {fuel : Nat} (h : p.reader.stream.Alike s)
    (hfuel : s.remaining ≤ fuel) :
    Follows (unbrokenRun fuel) p TokenStream.Alike (Statement.unbrokenRun s) := by
  cases hrest : p.reader.stream.settle.rest with
  | nil =>
      obtain ⟨r, hend, hr⟩ := atEnd_of_nil hrest
      have hleft : r.stream.rest = [] := by rw [hr, hrest]
      have hstop : r.stream.stop = s.stop := by rw [hr, TokenStream.settle_stop, h.stop]
      have hoffset := offset_of_nil (p := { p with reader := r }) hleft
      rw [hstop] at hoffset
      rw [Statement.unbrokenRun, TokenStream.next_of_nil (h.rest.symm.trans hrest)]
      show unbrokenRun fuel p = _
      rw [unbrokenRun, bind_ok hend, if_pos rfl, bind_ok hoffset]
      rfl
  | cons t rest =>
      obtain ⟨r₁, hend, hr₁⟩ := atEnd_of_cons hrest
      have hrest₁ : r₁.stream.settle.rest = t :: rest := by
        rw [hr₁, TokenStream.settle_settle, hrest]
      obtain ⟨r₂, hnext, hr₂⟩ := next_of_cons (p := { p with reader := r₁ }) hrest₁
      have hr₂' : r₂.stream = { s.settle with rest, buffered := false } := by
        rw [hr₂, hr₁, TokenStream.settle_settle]
        simp only [TokenStream.mk.injEq, true_and, and_true, TokenStream.settle_stop,
          TokenStream.settle_skipping]
        exact ⟨h.stop, h.skipping⟩
      have hat : (r₂.setSkipping false).At s.stop rest := by
        have hat := r₂.at_setSkipping
        rwa [hr₂', TokenStream.settle_stop] at hat
      have hlt : rest.length < fuel := Nat.lt_of_lt_of_le
        (TokenStream.remaining_next_lt (TokenStream.next_of_cons (h.rest.symm.trans hrest))) hfuel
      obtain ⟨r₃, hrun, hr₃⟩ := runOn_at (p := { p with reader := r₂.setSkipping false }) hat hlt
        (t.text, t.region)
      have hbefore : r₁.skipping = s.skipping := by
        show r₁.stream.skipping = s.skipping
        rw [hr₁, TokenStream.settle_skipping, h.skipping]
      rw [Statement.unbrokenRun, TokenStream.next_of_cons (h.rest.symm.trans hrest)]
      refine ⟨_, { p with reader := r₃.setSkipping s.skipping }, ?_, rfl, _, rfl, ?_⟩
      · rw [unbrokenRun, bind_ok hend, if_neg Bool.false_ne_true, bind_ok (skipping_run _),
          bind_ok hnext, bind_ok (setSkipping_run _ _), bind_ok hrun, hbefore,
          bind_ok (setSkipping_run _ _)]
        rfl
      · have hsame := TokenStream.setSkipping_alike r₃.stream s.skipping
        rw [hr₃.rest, hr₃.stop, CharReader.stream_setSkipping] at hsame
        rw [TokenStream.settle_stop, TokenStream.settle_skipping]
        exact hsame

theorem follows_ruleName (h : p.reader.stream.Alike s) :
    Follows ruleName p TokenStream.Alike (.ok (Statement.readRuleName s)) := by
  cases hrest : p.reader.stream.settle.rest with
  | nil =>
      obtain ⟨r, hpeek, hr⟩ := peekKind_of_nil .identifier hrest
      rw [Statement.readRuleName, TokenStream.next_of_nil (h.rest.symm.trans hrest)]
      refine ⟨none, { p with reader := r }, ?_, rfl, r, rfl, ?_⟩
      · rw [ruleName, bind_ok hpeek]
        rfl
      · rw [hr]
        exact h.settle
  | cons t rest =>
      obtain ⟨r, hpeek, hr⟩ := peekKind_of_cons .identifier hrest
      rw [Statement.readRuleName, ← h.next_eq hrest, TokenStream.next_of_cons hrest]
      by_cases hkind : t.kind = .identifier
      · have hleft : r.stream.settle.rest = t :: rest := by
          rw [hr, TokenStream.settle_of_buffered rfl]
          exact hrest
        obtain ⟨r', hnext, hr'⟩ := next_of_cons (p := { p with reader := r }) hleft
        simp only [if_pos hkind]
        refine ⟨some t.text, { p with reader := r' }, ?_, rfl, r', rfl, ?_⟩
        · rw [ruleName, bind_ok hpeek, if_pos (by simp [hkind]), bind_ok hnext]
          rfl
        · rw [hr', hr, TokenStream.settle_of_buffered rfl]
          exact .refl _
      · simp only [if_neg hkind]
        refine ⟨none, { p with reader := r }, ?_, rfl, r, rfl, ?_⟩
        · rw [ruleName, bind_ok hpeek, if_neg (by simp [hkind])]
          rfl
        · rw [hr]
          exact h.buffered

/-! ## Strings -/

theorem nextKind_at {kind : TokenKind} (h : p.reader.At stop (t :: ts)) (hkind : t.kind = kind) :
    ∃ r, nextKind kind p = some (.ok (t, { p with reader := r })) ∧ r.At stop ts := by
  have hnext := follows_nextKind kind (.refl p.reader.stream)
  rw [Statement.expect, TokenStream.nextKind, TokenStream.next_of_cons h.settle_rest] at hnext
  simp only [if_pos hkind] at hnext
  obtain ⟨_, _, hrun, rfl, r, rfl, hr⟩ := hnext
  rw [h.settle_eq] at hr
  exact ⟨r, hrun, h.of_stream hr⟩

theorem stringContent_none {fuel : Nat} {quote : String} (hs : readString quote ts = none)
    (h : p.reader.At stop ts) (hfuel : ts.length < fuel) (content : String) :
    stringContent quote fuel content p = some (.error (.prematureEnd stop)) := by
  induction fuel generalizing p ts content with
  | zero => exact absurd hfuel (Nat.not_lt_zero _)
  | succ fuel ih =>
    cases ts with
    | nil =>
        obtain ⟨r, hend, hr⟩ := atEnd_at_nil h
        have hoffset := offset_at (p := { p with reader := r }) hr
        rw [stringContent, bind_ok hend, if_pos rfl, bind_ok hoffset]
        rfl
    | cons t ts =>
        obtain ⟨r₁, hend, hr₁⟩ := atEnd_at_cons h
        obtain ⟨r₂, hnext, hr₂⟩ := next_at (p := { p with reader := r₁ }) hr₁
        have hmore := Nat.lt_of_succ_lt_succ hfuel
        rw [readString] at hs
        rw [stringContent, bind_ok hend, if_neg Bool.false_ne_true, bind_ok hnext]
        split at hs
        · cases hs
        · next hother =>
            rw [Option.map_eq_none_iff] at hs
            rw [if_neg hother]
            split
            · exact ih hs (p := { p with reader := r₂ }) hr₂ hmore _
            · exact ih hs (p := { p with reader := r₂ }) hr₂ hmore _

theorem stringContent_some {fuel : Nat} {quote more : String} {close : Token}
    (hs : readString quote ts = some (more, close, rest)) (h : p.reader.At stop ts)
    (hfuel : ts.length < fuel) (content : String) :
    ∃ r, stringContent quote fuel content p =
        some (.ok ((content ++ more, close), { p with reader := r })) ∧ r.At stop rest := by
  induction fuel generalizing p ts content more with
  | zero => exact absurd hfuel (Nat.not_lt_zero _)
  | succ fuel ih =>
    cases ts with
    | nil => cases hs
    | cons t ts =>
        obtain ⟨r₁, hend, hr₁⟩ := atEnd_at_cons h
        obtain ⟨r₂, hnext, hr₂⟩ := next_at (p := { p with reader := r₁ }) hr₁
        have hmore := Nat.lt_of_succ_lt_succ hfuel
        rw [readString] at hs
        rw [stringContent, bind_ok hend, if_neg Bool.false_ne_true, bind_ok hnext]
        split at hs
        · next hquote =>
            cases hs
            rw [if_pos hquote, String.append_empty]
            exact ⟨r₂, rfl, hr₂⟩
        · next hother =>
            obtain ⟨⟨more', close', rest'⟩, hs', heq⟩ := Option.map_eq_some_iff.1 hs
            cases heq
            rw [if_neg hother]
            split
            · exact ih hs' (p := { p with reader := r₂ }) hr₂ hmore content
            · rw [← String.append_assoc]
              exact ih hs' (p := { p with reader := r₂ }) hr₂ hmore (content ++ t.text)

theorem string_none {fuel : Nat} (hs : readString t.text ts = none) (hkind : t.kind = .quote)
    (h : p.reader.At stop (t :: ts)) (hfuel : ts.length < fuel) :
    string fuel p = some (.error (.prematureEnd stop)) := by
  obtain ⟨r, hnext, hr⟩ := nextKind_at h hkind
  have hcontent := stringContent_none (p := { p with reader := r.setSkipping false }) hs
    hr.setSkipping hfuel ""
  rw [string, bind_ok hnext, bind_ok (skipping_run _), bind_ok (setSkipping_run _ _),
    bind_error hcontent]

theorem string_some {fuel : Nat} {content : String} {close : Token}
    (hs : readString t.text ts = some (content, close, rest)) (hkind : t.kind = .quote)
    (h : p.reader.At stop (t :: ts)) (hfuel : ts.length < fuel) :
    ∃ r, string fuel p = some (.ok (⟨p.tree.size⟩,
        ⟨r, (p.tree.newNode (.string content) (t.region.merge close.region)).2, p.scope⟩)) ∧
      r.At stop rest := by
  obtain ⟨r, hnext, hr⟩ := nextKind_at h hkind
  obtain ⟨r', hcontent, hr'⟩ :=
    stringContent_some (p := { p with reader := r.setSkipping false }) hs hr.setSkipping hfuel ""
  rw [String.empty_append] at hcontent
  have hbefore : r.skipping = false := hr.skipping
  rw [string, bind_ok hnext, bind_ok (skipping_run _), bind_ok (setSkipping_run _ _),
    bind_ok hcontent]
  dsimp only
  rw [hbefore, bind_ok (setSkipping_run _ _), make_run]
  exact ⟨r'.setSkipping false, rfl, hr'.setSkipping⟩

/-! ## Expressions

The values on the stack of a yard are planted in the order in which they were
read, the one on top last. -/

end Parser

namespace Tree

/-- Makes the nodes of the values on a stack, from the one at the bottom up. -/
def plantStack (scope : ScopeId) (t : Tree) : List Expr → List NodeId × Tree
  | [] => ([], t)
  | e :: values =>
    let (ns, t) := plantStack scope t values
    let (n, t) := plantExpr scope t e
    (n :: ns, t)

end Tree

namespace Parser

variable {p : Parser} {stop : Nat} {base : Tree} {vals : List Expr} {ns : List NodeId}

theorem gives_reduce {operator : Operator} (hparens : operator ≠ .parens) (place : Region)
    (h : Tree.plantStack p.scope base vals = (ns, p.tree)) :
    Gives (reduce operator place ns p)
      (fun vals ns q => ∃ t, q = { p with tree := t } ∧ Tree.plantStack p.scope base vals = (ns, t))
      (ShuntingYard.apply operator place vals) := by
  have harity : operator.arity = 2 := by
    cases operator with
    | parens => exact absurd rfl hparens
    | _ => rfl
  cases vals with
  | nil =>
      cases h
      rw [reduce, if_pos (by simp [harity])]
      rfl
  | cons rhs vals =>
    cases vals with
    | nil =>
        rw [← (Prod.mk.inj h).1, reduce, if_pos (by simp [harity])]
        rfl
    | cons lhs vals =>
        cases hvals : Tree.plantStack p.scope base vals with
        | mk ns' t =>
            simp only [Tree.plantStack, hvals] at h
            obtain ⟨rfl, htree⟩ := Prod.mk.inj h
            rw [reduce, if_neg (by simp [harity]), harity]
            refine ⟨_, _, (bind_ok (make_run _ _ _ _)).trans rfl, _, rfl, ?_⟩
            simp only [Tree.plantStack, hvals, ← htree]
            rfl

theorem gives_reduceTighter (next : Operator) (ops : List (Operator × Region))
    (h : Tree.plantStack p.scope base vals = (ns, p.tree)) :
    Gives (reduceTighter next ops ns p)
      (fun r r' q => ∃ t, q = { p with tree := t } ∧ r'.1 = r.1 ∧
        Tree.plantStack p.scope base r.2 = (r'.2, t))
      (ShuntingYard.applyTighter next ops vals) := by
  induction ops generalizing p vals ns with
  | nil => exact ⟨_, _, rfl, _, rfl, rfl, h⟩
  | cons op ops ih =>
      obtain ⟨top, place⟩ := op
      rw [reduceTighter, ShuntingYard.applyTighter]
      split
      · next hyields =>
          rcases (gives_reduce (ShuntingYard.ne_parens_of_yields hyields) place h).cases with
            ⟨e, heq, hrun⟩ | ⟨vals', ns', _, heq, hrun, t, rfl, hstack⟩
          · rw [heq]
            exact bind_error hrun
          · rw [heq, bind_ok hrun]
            exact ih (p := { p with tree := t }) hstack
      · exact ⟨_, _, rfl, _, rfl, rfl, h⟩

theorem gives_reduceToParens (close : Region) (ops : List (Operator × Region))
    (h : Tree.plantStack p.scope base vals = (ns, p.tree)) :
    Gives (reduceToParens close ops ns p)
      (fun r r' q => ∃ t, q = { p with tree := t } ∧ r'.1 = r.1 ∧
        Tree.plantStack p.scope base r.2 = (r'.2, t))
      (ShuntingYard.closeParens close ops vals) := by
  induction ops generalizing p vals ns with
  | nil => rfl
  | cons op ops ih =>
      obtain ⟨top, place⟩ := op
      rw [reduceToParens, ShuntingYard.closeParens]
      split
      · exact ⟨_, _, rfl, _, rfl, rfl, h⟩
      · next hparens =>
          rcases (gives_reduce hparens place h).cases with
            ⟨e, heq, hrun⟩ | ⟨vals', ns', _, heq, hrun, t, rfl, hstack⟩
          · rw [heq]
            exact bind_error hrun
          · rw [heq, bind_ok hrun]
            exact ih (p := { p with tree := t }) hstack

theorem gives_reduceAll (ops : List (Operator × Region))
    (h : Tree.plantStack p.scope base vals = (ns, p.tree)) :
    Gives (reduceAll ops ns p)
      (fun vals ns q => ∃ t, q = { p with tree := t } ∧ Tree.plantStack p.scope base vals = (ns, t))
      (ShuntingYard.applyAll ops vals) := by
  induction ops generalizing p vals ns with
  | nil => exact ⟨_, _, rfl, _, rfl, h⟩
  | cons op ops ih =>
      obtain ⟨top, place⟩ := op
      rw [reduceAll, ShuntingYard.applyAll]
      split
      · rfl
      · next hparens =>
          rcases (gives_reduce hparens place h).cases with
            ⟨e, heq, hrun⟩ | ⟨vals', ns', _, heq, hrun, t, rfl, hstack⟩
          · rw [heq]
            exact bind_error hrun
          · rw [heq, bind_ok hrun]
            exact ih (p := { p with tree := t }) hstack

/-- Whether a yard of nodes is what a yard of values has been planted as. -/
structure Stands (scope : ScopeId) (base : Tree) (y : ShuntingYard) (w : Yard) (t : Tree) :
    Prop where
  planted : Tree.plantStack scope base y.values = (w.values, t)
  operators : w.operators = y.operators
  region : w.region = y.region

namespace Stands

variable {scope : ScopeId} {y : ShuntingYard} {w : Yard} {t t' : Tree}

theorem cover (h : Stands scope base y w t) {ops : List (Operator × Region)}
    (hvals : Tree.plantStack scope base vals = (ns, t')) (region : Region) :
    Stands scope base (({ y with values := vals, operators := ops } : ShuntingYard).cover region)
      (({ w with values := ns, operators := ops } : Yard).cover region) t' where
  planted := hvals
  operators := rfl
  region := by
    cases hregion : y.region with
    | none => simp only [Yard.cover, ShuntingYard.cover, h.region, hregion]
    | some before => simp only [Yard.cover, ShuntingYard.cover, h.region, hregion]

theorem push (h : Stands scope base y w t) (e : Expr) (region : Region) :
    Stands scope base (y.push e region)
      (({ w with values := (Tree.plantExpr scope t e).1 :: w.values } : Yard).cover region)
      (Tree.plantExpr scope t e).2 := by
  have hplanted : Tree.plantStack scope base (e :: y.values) =
      ((Tree.plantExpr scope t e).1 :: w.values, (Tree.plantExpr scope t e).2) := by
    rw [Tree.plantStack, h.planted]
  obtain ⟨nodes, ops, before⟩ := w
  obtain rfl : ops = y.operators := h.operators
  exact h.cover hplanted region

end Stands

theorem exists_fuel {n fuel : Nat} (h : n < fuel) : ∃ k, fuel = k + 1 ∧ n ≤ k :=
  ⟨fuel - 1, by omega, by omega⟩

/-- Whether a parser with a yard of nodes has got to where reading has. -/
structure Abreast (scope : ScopeId) (base : Tree) (stop : Nat) (ts : List Token)
    (y : ShuntingYard) (w : Yard) (p : Parser) : Prop where
  inScope : p.scope = scope
  reader : p.reader.At stop ts
  stands : Stands scope base y w p.tree

section Operands

variable {scope : ScopeId} {fuel : Nat} {us : List Token} {y z : ShuntingYard} {w : Yard}

theorem operands_of_operand {e : Expr} {region : Region}
    (h : ShuntingYard.Operand t ts e region rest) (hat : Abreast scope base stop (t :: ts) y w p)
    (hfuel : ts.length < fuel) :
    ∃ w' q, operands (fuel + 1) w p = operands fuel w' q ∧
      Abreast scope base stop rest (y.push e region) w' q := by
  obtain ⟨rfl, hreader, hstands⟩ := hat
  obtain ⟨r, hr, hlook⟩ := look_at hreader
  obtain ⟨r', hnext, hr'⟩ := next_at (p := { p with reader := r }) hr
  rw [operands, hlook]
  cases h with
  | identifier hkind =>
      simp only [hkind]
      rw [bind_ok hnext]
      exact ⟨_, ⟨r', _, p.scope⟩, rfl, rfl, hr', hstands.push (.identifier t.text t.region) _⟩
  | @number n hkind hvalue =>
      simp only [hkind]
      rw [bind_ok hnext, number, hvalue]
      exact ⟨_, ⟨r', _, p.scope⟩, rfl, rfl, hr', hstands.push (.number n t.region) _⟩
  | @string content close _ hkind hs =>
      obtain ⟨r', hstring, hr'⟩ := string_some (p := { p with reader := r }) hs hkind hr hfuel
      simp only [hkind]
      rw [bind_ok hstring, bind_ok (get_run _)]
      -- The region of a string is asked of the node that was made for it.
      have hregion : (p.tree.newNode (.string content) (t.region.merge close.region)).2.region
          ⟨p.tree.size⟩ = t.region.merge close.region :=
        congrArg Node.region (Tree.node_newNode_self _ _)
      dsimp only
      rw [hregion]
      exact ⟨_, ⟨r', _, p.scope⟩, rfl, rfl, hr', hstands.push (.string content _) _⟩

/-- Whatever reading does next, the parser does too. -/
theorem operands_of_step (h : ShuntingYard.Step ts y us z)
    (hat : Abreast scope base stop ts y w p) (hfuel : ts.length ≤ fuel) :
    ∃ w' q, operands (fuel + 1) w p = operands fuel w' q ∧
      Abreast scope base stop us z w' q := by
  cases ts with
  | nil => cases h
  | cons t ts =>
    obtain ⟨rfl, hreader, hstands⟩ := hat
    obtain ⟨r, hr, hlook⟩ := look_at hreader
    obtain ⟨r', hnext, hr'⟩ := next_at (p := { p with reader := r }) hr
    cases h with
    | blank hkind =>
        rw [operands, hlook]
        simp only [hkind]
        rw [bind_ok hnext]
        exact ⟨w, { p with reader := r' }, rfl, rfl, hr', hstands⟩
    | operand he => exact operands_of_operand he ⟨rfl, hreader, hstands⟩ hfuel
    | parensOpen hkind =>
        rw [operands, hlook]
        simp only [hkind]
        rw [bind_ok hnext, hstands.operators]
        exact ⟨_, { p with reader := r' }, rfl, rfl, hr', hstands.cover hstands.planted t.region⟩
    | parensClose hkind hclose =>
        have hreduce := gives_reduceToParens (p := { p with reader := r' }) t.region y.operators
          hstands.planted
        rw [hclose] at hreduce
        obtain ⟨⟨ops, ns⟩, _, hrun, tree, rfl, rfl, hstack⟩ := hreduce
        rw [operands, hlook]
        simp only [hkind]
        rw [bind_ok hnext, hstands.operators, bind_ok hrun]
        exact ⟨_, ⟨r', tree, p.scope⟩, rfl, rfl, hr', hstands.cover hstack t.region⟩
    | @operator _ _ _ o _ _ hsign hyield =>
        have hreduce := gives_reduceTighter (p := { p with reader := r' }) o y.operators
          hstands.planted
        rw [hyield] at hreduce
        obtain ⟨⟨ops, ns⟩, _, hrun, tree, rfl, rfl, hstack⟩ := hreduce
        rw [operands, hlook]
        simp only [hsign.1]
        rw [bind_ok hnext, hsign.2, Operator.ofSymbol?_symbol]
        simp only []
        rw [hstands.operators, bind_ok hrun]
        exact ⟨_, ⟨r', tree, p.scope⟩, rfl, rfl, hr', hstands.cover hstack t.region⟩

theorem operands_of_steps (h : ShuntingYard.Steps ts y us z)
    (hat : Abreast scope base stop ts y w p) (hfuel : ts.length < fuel) :
    ∃ fuel' w' q, operands fuel w p = operands fuel' w' q ∧ us.length < fuel' ∧
      Abreast scope base stop us z w' q := by
  induction h generalizing fuel w p with
  | refl => exact ⟨fuel, w, p, rfl, hfuel, hat⟩
  | head hstep _ ih =>
      obtain ⟨fuel, rfl, hle⟩ := exists_fuel hfuel
      obtain ⟨w₁, q₁, hrun, hat₁⟩ := operands_of_step hstep hat hle
      obtain ⟨fuel', w', q, hrest, hlt, hat'⟩ :=
        ih hat₁ (Nat.lt_of_lt_of_le hstep.length_lt hle)
      exact ⟨fuel', w', q, hrun.trans hrest, hlt, hat'⟩

theorem operands_end (h : EndsExpression ts) (hat : Abreast scope base stop ts y w p)
    (hfuel : ts.length < fuel) :
    ∃ q, operands fuel w p = some (.ok (w, q)) ∧ Abreast scope base stop ts y w q := by
  obtain ⟨fuel, rfl, _⟩ := exists_fuel hfuel
  obtain ⟨rfl, hreader, hstands⟩ := hat
  cases ts with
  | nil =>
      obtain ⟨r, hend, hr⟩ := atEnd_at_nil hreader
      rw [operands, bind_ok hend, if_pos rfl]
      exact ⟨{ p with reader := r }, rfl, rfl, hr, hstands⟩
  | cons t ts =>
      obtain ⟨r, hr, hlook⟩ := look_at hreader
      rw [operands, hlook]
      rcases h with hkind | hkind
      · simp only [hkind]
        exact ⟨{ p with reader := r }, rfl, rfl, hr, hstands⟩
      · simp only [hkind]
        exact ⟨{ p with reader := r }, rfl, rfl, hr, hstands⟩

theorem operands_of_fails {e : SyntaxError} (h : ShuntingYard.Fails stop ts y e)
    (hat : Abreast scope base stop ts y w p) (hfuel : ts.length < fuel) :
    operands fuel w p = some (.error e) := by
  obtain ⟨fuel, rfl, hle⟩ := exists_fuel hfuel
  obtain ⟨rfl, hreader, hstands⟩ := hat
  cases ts with
  | nil => cases h
  | cons t ts =>
    obtain ⟨r, hr, hlook⟩ := look_at hreader
    obtain ⟨r', hnext, hr'⟩ := next_at (p := { p with reader := r }) hr
    rw [operands, hlook]
    cases h with
    | number hkind hvalue =>
        simp only [hkind]
        rw [bind_ok hnext, number, hvalue]
        rfl
    | string hkind hs =>
        simp only [hkind]
        exact bind_error (string_none (p := { p with reader := r }) hs hkind hr hle)
    | parensClose hkind hclose =>
        have hreduce := gives_reduceToParens (p := { p with reader := r' }) t.region y.operators
          hstands.planted
        rw [hclose] at hreduce
        simp only [hkind]
        rw [bind_ok hnext, hstands.operators]
        exact bind_error hreduce
    | unknown hkind hnone =>
        simp only [hkind]
        rw [bind_ok hnext, hnone]
        rfl
    | @operator _ _ _ o _ hsign hyield =>
        have hreduce := gives_reduceTighter (p := { p with reader := r' }) o y.operators
          hstands.planted
        rw [hyield] at hreduce
        simp only [hsign.1]
        rw [bind_ok hnext, hsign.2, Operator.ofSymbol?_symbol]
        simp only []
        rw [hstands.operators]
        exact bind_error hreduce
    | unexpected hforeign =>
        cases hkind : t.kind with
        | colon | assignment | curlyOpen | arrow | dot | unparsed => exact bind_ok hnext
        | ruleWord | mapWord | setWord => exact bind_ok hnext
        | _ =>
            rw [hkind] at hforeign
            cases hforeign

end Operands

/-- Operands and operators are read as the model of them says, and planted at
once. -/
theorem gives_operands {fuel : Nat} {y : ShuntingYard} {w : Yard} {ts : List Token}
    (hat : p.reader.At stop ts) (hfuel : ts.length < fuel) (h : Stands p.scope base y w p.tree) :
    Gives (operands fuel w p)
      (fun b w q => q.scope = p.scope ∧ q.reader.At stop b.2 ∧ Stands p.scope base b.1 w q.tree)
      (ShuntingYard.read stop ts y) := by
  obtain ⟨us, z, hsteps, hend⟩ := ShuntingYard.read_cases stop ts y
  obtain ⟨fuel', w', q, hrun, hfuel', hat'⟩ :=
    operands_of_steps hsteps ⟨rfl, hat, h⟩ hfuel
  rcases hend with ⟨hend, hread⟩ | ⟨e, hfails, hread⟩
  · obtain ⟨q', hdone, hscope, hreader, hstands⟩ := operands_end hend hat' hfuel'
    rw [hread, hrun, hdone]
    exact ⟨w', q', rfl, hscope, hreader, hstands⟩
  · rw [hread, hrun]
    exact operands_of_fails hfails hat' hfuel'

theorem gives_operatorPrecedence {fuel : Nat} {ts : List Token} (hat : p.reader.At stop ts)
    (hfuel : ts.length < fuel) :
    Gives (operatorPrecedence fuel p)
      (fun b a q => q.scope = p.scope ∧ q.reader.At stop b.2 ∧ a.2 = b.1.region ∧
        Tree.plantExpr p.scope p.tree b.1.value = (a.1, q.tree))
      (readExpression stop ts) := by
  have hstart : Stands p.scope p.tree .empty ⟨[], [], none⟩ p.tree := ⟨rfl, rfl, rfl⟩
  rw [operatorPrecedence, readExpression]
  rcases (gives_operands hat hfuel hstart).cases with
    ⟨e, heq, hrun⟩ | ⟨⟨y, rest⟩, w, q, heq, hrun, hscope, hat', hstands⟩
  · rw [heq, bind_error hrun]
    rfl
  rw [heq, bind_ok hrun, bind_ok (offset_at hat'), hstands.region, hstands.operators]
  have hplanted := hstands.planted
  rw [← hscope] at hplanted
  dsimp only
  rw [ShuntingYard.finish]
  rcases (gives_reduceAll y.operators hplanted).cases with
    ⟨e, heq, hrun⟩ | ⟨vals, ns, _, heq, hrun, t, rfl, hstack⟩
  · rw [heq, bind_error hrun]
    rfl
  rw [heq, bind_ok hrun]
  rw [hscope] at hstack
  cases vals with
  | nil =>
      cases hstack
      rfl
  | cons e more =>
    cases more with
    | nil =>
        cases hstack
        exact ⟨_, _, rfl, hscope, hat', rfl, rfl⟩
    | cons e' more =>
        cases hstack
        rfl

theorem gives_expression {fuel : Nat} {s : TokenStream} (hrest : p.reader.stream.rest = s.rest)
    (hstop : p.reader.stream.stop = s.stop) (hskipping : p.reader.stream.skipping = s.skipping)
    (hfuel : s.remaining < fuel) :
    Gives (expression fuel p)
      (fun b n q => q.reader.stream.Alike b.2 ∧ q.scope = p.scope ∧
        Tree.plantExpression p.scope p.tree b.1 = (n, q.tree))
      (Statement.readValue s) := by
  have hat : (p.reader.setSkipping false).At s.stop s.rest := by
    rw [← hrest, ← hstop]
    exact p.reader.at_setSkipping
  rw [expression, bind_ok (skipping_run _), bind_ok (setSkipping_run _ _), Statement.readValue]
  rcases (gives_operatorPrecedence (p := { p with reader := p.reader.setSkipping false }) hat
      hfuel).cases with
    ⟨e, heq, hrun⟩ | ⟨⟨e, rest⟩, ⟨n, region⟩, q, heq, hrun, hscope, hat', rfl, hplanted⟩
  · rw [heq, bind_error hrun]
    rfl
  rw [heq, bind_ok hrun]
  dsimp only at hscope hat' hplanted ⊢
  rw [bind_ok (setSkipping_run _ _), make_run]
  refine ⟨_, _, rfl, ?_, hscope, ?_⟩
  · have hsame := TokenStream.setSkipping_alike q.reader.stream p.reader.skipping
    rw [hat'.rest, hat'.stop, CharReader.stream_setSkipping] at hsame
    have hskipping' : p.reader.skipping = s.skipping := hskipping
    rw [← hskipping']
    exact hsame
  · rw [Tree.plantExpression, hplanted]
    rfl

/-! ## Statements -/

variable {s : TokenStream}

theorem Follows.cases {α : Type} {x : Parsing α} {R : TokenStream → TokenStream → Prop}
    {y : Except SyntaxError (α × TokenStream)} (h : Follows x p R y) :
    (∃ e, y = .error e ∧ x p = some (.error e)) ∨
    ∃ a s r, y = .ok (a, s) ∧ x p = some (.ok (a, { p with reader := r })) ∧ R r.stream s := by
  rcases Gives.cases h with herror | ⟨⟨a, s⟩, a', q, heq, hrun, ha, r, rfl, hr⟩
  · exact .inl herror
  · subst ha
    exact .inr ⟨a', s, r, heq, hrun, hr⟩

theorem gives_assignment {fuel : Nat} (h : p.reader.stream.Alike s) (hfuel : s.remaining ≤ fuel) :
    Gives (assignment fuel p)
      (fun b n q => q.reader.stream.Alike b.2 ∧ q.scope = p.scope ∧
        Tree.plantStatement p.scope p.tree b.1 = q.tree.wrapStatement n)
      (Statement.readAssignment s) := by
  rw [assignment, Statement.readAssignment]
  rcases (follows_nextKind .setWord h).cases with ⟨e, heq, hrun⟩ | ⟨set, _, r₁, heq, hrun₁, rfl⟩
  · rw [heq, bind_error hrun]
    rfl
  have hset := Statement.remaining_expect_lt heq
  rw [heq, bind_ok hrun₁]
  dsimp only
  rcases (follows_nextKind (p := { p with reader := r₁ }) .identifier (.refl _)).cases with
    ⟨e, heq, hrun⟩ | ⟨name, _, r₂, heq, hrun₂, rfl⟩
  · rw [heq, bind_error hrun]
    rfl
  have hname := Statement.remaining_expect_lt heq
  rw [heq, bind_ok hrun₂]
  dsimp only
  rcases (follows_nextKind (p := { p with reader := r₂ }) .assignment (.refl _)).cases with
    ⟨e, heq, hrun⟩ | ⟨equals, _, r₃, heq, hrun₃, rfl⟩
  · rw [heq, bind_error hrun]
    rfl
  have hequals := Statement.remaining_expect_lt heq
  rw [heq, bind_ok hrun₃]
  dsimp only at hname hequals ⊢
  have hlt : r₃.stream.remaining < fuel := by omega
  rcases (gives_expression (p := { p with reader := r₃ }) rfl rfl rfl hlt).cases with
    ⟨e, heq, hrun⟩ | ⟨⟨value, after⟩, n, q, heq, hrun₄, hafter, hscope, hplanted⟩
  · rw [heq, bind_error hrun]
    rfl
  rw [heq, bind_ok hrun₄, bind_ok (get_run q), make_run, hscope]
  refine ⟨_, _, rfl, hafter, rfl, ?_⟩
  simp only [Tree.plantStatement, hplanted]
  rfl

theorem gives_ruleDefinition {fuel : Nat} (h : p.reader.stream.Alike s)
    (hfuel : s.remaining ≤ fuel) :
    Gives (ruleDefinition fuel p)
      (fun b n q => q.reader.stream.Alike b.2 ∧ q.scope = p.scope ∧
        Tree.plantStatement p.scope p.tree b.1 = q.tree.wrapStatement n)
      (Statement.readRule s) := by
  rw [ruleDefinition, Statement.readRule]
  rcases (follows_nextKind .ruleWord h).cases with ⟨e, heq, hrun⟩ | ⟨word, _, r₁, heq, hrun₁, rfl⟩
  · rw [heq, bind_error hrun]
    rfl
  have hword := Statement.remaining_expect_lt heq
  have hname := Statement.remaining_readRuleName_le r₁.stream
  rw [heq, bind_ok hrun₁]
  dsimp only
  obtain ⟨_, _, hrun₂, rfl, r₂, rfl, hr₂⟩ :=
    follows_ruleName (p := { p with reader := r₁ }) (.refl _)
  rw [bind_ok hrun₂]
  rcases (follows_nextKind (p := { p with reader := r₂ }) .colon hr₂).cases with
    ⟨e, heq, hrun⟩ | ⟨_, _, r₃, heq, hrun₃, rfl⟩
  · rw [heq, bind_error hrun]
    rfl
  have hcolon := Statement.remaining_expect_lt heq
  rw [heq, bind_ok hrun₃]
  dsimp only at hword hname hcolon ⊢
  have hfuel₃ : r₃.stream.remaining ≤ fuel := by omega
  rcases (follows_unbrokenRun (p := { p with reader := r₃ }) (.refl _) hfuel₃).cases with
    ⟨e, heq, hrun⟩ | ⟨⟨expected, _⟩, s₄, r₄, heq, hrun₄, hr₄⟩
  · rw [heq, bind_error hrun]
    rfl
  have hrun := Statement.remaining_unbrokenRun_lt heq
  rw [heq, bind_ok hrun₄]
  dsimp only
  rcases (follows_nextKind (p := { p with reader := r₄ }) .arrow hr₄).cases with
    ⟨e, heq, hrun⟩ | ⟨_, _, r₅, heq, hrun₅, rfl⟩
  · rw [heq, bind_error hrun]
    rfl
  have harrow := Statement.remaining_expect_lt heq
  rw [heq, bind_ok hrun₅]
  dsimp only at hrun harrow ⊢
  have hfuel₅ : r₅.stream.remaining ≤ fuel := by omega
  rcases (follows_unbrokenRun (p := { p with reader := r₅ }) (.refl _) hfuel₅).cases with
    ⟨e, heq, hrun⟩ | ⟨⟨replacement, last⟩, s₆, r₆, heq, hrun₆, hr₆⟩
  · rw [heq, bind_error hrun]
    rfl
  rw [heq, bind_ok hrun₆]
  exact ⟨_, _, rfl, hr₆, rfl, rfl⟩

/-- The node of a statement goes on top of whatever kind of statement it is. -/
theorem Gives.wrap {x : Parsing NodeId} {scope : ScopeId} {t : Tree} {q : Parser}
    {y : Except SyntaxError (Statement × TokenStream)}
    (h : Gives (x q)
      (fun b n q => q.reader.stream.Alike b.2 ∧ q.scope = scope ∧
        Tree.plantStatement scope t b.1 = q.tree.wrapStatement n) y) :
    Gives ((x >>= fun inner => grow (·.wrapStatement inner)) q)
      (fun b n q => q.reader.stream.Alike b.2 ∧ q.scope = scope ∧
        Tree.plantStatement scope t b.1 = (n, q.tree)) y := by
  rcases h.cases with ⟨e, rfl, hrun⟩ | ⟨b, n, q', rfl, hrun, halike, hscope, hplanted⟩
  · exact bind_error hrun
  · rw [bind_ok hrun]
    exact ⟨_, _, rfl, halike, hscope, hplanted⟩

/-- A block is read as its body is, in a scope that ends with it. -/
theorem gives_block {fuel : Nat} {after : TokenStream} {t : Token} (h : p.reader.stream.Alike s)
    (hn : s.next = (.ok t, after)) (hkind : t.kind = .curlyOpen)
    (hbody : ∀ {q : Parser}, q.reader.stream.Alike after →
      Gives (body fuel [] q)
        (fun b ms q' => q'.reader.stream.next = (.ok b.1.2, b.2) ∧ b.1.2.kind = .curlyClose ∧
          q'.scope = q.scope ∧ Tree.plantAll q.scope q.tree b.1.1 = (ms, q'.tree))
        ((Statement.readBody after).map Subtype.val)) :
    Gives (block (fuel + 1) p)
      (fun b n q => q.reader.stream.Alike b.2 ∧ q.scope = p.scope ∧
        Tree.plantStatement p.scope p.tree b.1 = q.tree.wrapStatement n)
      ((Statement.readBody after).map fun r =>
        (.block (t.region.merge r.1.1.2.region) r.1.1.1, r.1.2)) := by
  have hopen := follows_nextKind .curlyOpen h
  rw [Statement.expect, TokenStream.nextKind, hn] at hopen
  simp only [if_pos hkind] at hopen
  obtain ⟨_, _, hrun₁, rfl, r₁, rfl, rfl⟩ := hopen
  rw [block, bind_ok hrun₁]
  have henter : enter { p with reader := r₁ } = some (.ok
      (((p.tree.scopes.createAnonymous p.scope).1, p.scope),
        ⟨r₁, { p.tree with scopes := (p.tree.scopes.createAnonymous p.scope).2 },
          (p.tree.scopes.createAnonymous p.scope).1⟩)) := rfl
  rw [bind_ok henter]
  have hall := hbody (q := ⟨r₁, { p.tree with scopes := (p.tree.scopes.createAnonymous p.scope).2 },
    (p.tree.scopes.createAnonymous p.scope).1⟩) (.refl _)
  cases hread : Statement.readBody r₁.stream with
  | error e =>
      rw [hread] at hall
      exact bind_error hall
  | ok r =>
      rw [hread] at hall
      obtain ⟨ms, q, hrun₂, hnext, hclose, hscope, hplanted⟩ := hall
      have hlast := follows_nextKind (p := q) .curlyClose (.refl _)
      rw [Statement.expect, TokenStream.nextKind, hnext] at hlast
      simp only [if_pos hclose] at hlast
      obtain ⟨_, _, hrun₃, rfl, r₂, rfl, hr₂⟩ := hlast
      dsimp only
      rw [bind_ok hrun₂, bind_ok hrun₃]
      refine ⟨_, _, rfl, ?_, rfl, ?_⟩
      · rw [← hr₂]
        exact .refl _
      · simp only [Tree.plantStatement, hplanted]

mutual

/-- A statement pays for itself with three rounds for each token. -/
theorem gives_statement {fuel : Nat} {p : Parser} {s : TokenStream} (h : p.reader.stream.Alike s)
    (hfuel : 3 * s.remaining < fuel) :
    Gives (statement fuel p)
      (fun b n q => q.reader.stream.Alike b.2 ∧ q.scope = p.scope ∧
        Tree.plantStatement p.scope p.tree b.1 = (n, q.tree))
      ((Statement.read s).map Subtype.val) := by
  obtain ⟨fuel, rfl, hle⟩ := exists_fuel hfuel
  cases hrest : s.settle.rest with
  | nil =>
      have hpeek := peek_of_nil (h.rest.trans hrest)
      rw [h.stop] at hpeek
      rw [Statement.read_of_end (TokenStream.next_of_nil hrest), statement, bind_error hpeek]
      rfl
  | cons t rest =>
      obtain ⟨r, hpeek, hr⟩ := peek_of_cons (h.rest.trans hrest)
      have halike : r.stream.Alike s := by
        rw [hr]
        exact h.buffered
      obtain ⟨after, hn⟩ : ∃ after, s.next = (.ok t, after) := ⟨_, TokenStream.next_of_cons hrest⟩
      have hlt := TokenStream.remaining_next_lt hn
      rw [Statement.read_of_next hn, statement, bind_ok hpeek]
      have hvalue : Gives (expression fuel { p with reader := r })
          (fun b n q => q.reader.stream.Alike b.2 ∧ q.scope = p.scope ∧
            Tree.plantStatement p.scope p.tree b.1 = q.tree.wrapStatement n)
          ((Statement.readValue s.settle).map fun r => (.expression r.1, r.2)) := by
        have hexpr := gives_expression (p := { p with reader := r }) (s := s.settle)
          (by rw [hr]; exact h.rest) (by rw [hr]; simpa using h.stop)
          (by rw [hr]; simpa using h.skipping)
          (Nat.lt_of_le_of_lt (TokenStream.remaining_settle_le s) (by omega : s.remaining < fuel))
        cases hread : Statement.readValue s.settle with
        | error e =>
            rw [hread] at hexpr
            exact hexpr
        | ok b =>
            rw [hread] at hexpr
            obtain ⟨n, q, hrun, hq, hscope, hplanted⟩ := hexpr
            refine ⟨n, q, hrun, hq, hscope, ?_⟩
            dsimp only at hplanted
            rw [Tree.plantStatement, hplanted]
      cases hkind : t.kind with
      | curlyOpen =>
          obtain ⟨fuel, rfl, hbody⟩ := exists_fuel (by omega : 3 * after.remaining + 2 < fuel)
          exact Gives.wrap (gives_block (p := { p with reader := r }) halike hn hkind
            fun hq => gives_body hq hbody [])
      | ruleWord =>
          exact Gives.wrap (gives_ruleDefinition (p := { p with reader := r }) halike (by omega))
      | setWord =>
          exact Gives.wrap (gives_assignment (p := { p with reader := r }) halike (by omega))
      | curlyClose =>
          obtain ⟨r', hnext, _⟩ := next_of_cons (p := { p with reader := r })
            (halike.rest.trans hrest)
          exact bind_error (bind_ok hnext)
      | _ => exact Gives.wrap hvalue
termination_by fuel

theorem gives_body {fuel : Nat} {p : Parser} {s : TokenStream} (h : p.reader.stream.Alike s)
    (hfuel : 3 * s.remaining + 1 < fuel) (ns : List NodeId) :
    Gives (body fuel ns p)
      (fun b ms q => q.reader.stream.next = (.ok b.1.2, b.2) ∧ b.1.2.kind = .curlyClose ∧
        q.scope = p.scope ∧
        (ns ++ (Tree.plantAll p.scope p.tree b.1.1).1, (Tree.plantAll p.scope p.tree b.1.1).2) =
          (ms, q.tree))
      ((Statement.readBody s).map Subtype.val) := by
  obtain ⟨fuel, rfl, hle⟩ := exists_fuel hfuel
  cases hrest : s.settle.rest with
  | nil =>
      obtain ⟨r, hend, hr⟩ := atEnd_of_nil (h.rest.trans hrest)
      have hoffset := offset_of_nil (p := { p with reader := r }) (by rw [hr, h.rest, hrest])
      have hstop : r.stream.stop = s.stop := by rw [hr, TokenStream.settle_stop, h.stop]
      rw [Statement.readBody_of_end (TokenStream.next_of_nil hrest), body, bind_ok hend, if_pos rfl,
        bind_ok hoffset, hstop]
      rfl
  | cons t rest =>
      obtain ⟨r₁, hend, hr₁⟩ := atEnd_of_cons (h.rest.trans hrest)
      have hrest₁ : r₁.stream.settle.rest = t :: rest := by
        rw [hr₁, TokenStream.settle_settle, h.rest, hrest]
      obtain ⟨r₂, hpeek, hr₂⟩ := peekKind_of_cons (p := { p with reader := r₁ }) .curlyClose hrest₁
      have halike : r₂.stream.Alike s := by
        rw [hr₂, hr₁]
        exact h.settle.buffered
      have hn := TokenStream.next_of_cons hrest
      rw [Statement.readBody_of_next hn, body, bind_ok hend, if_neg Bool.false_ne_true,
        bind_ok hpeek]
      by_cases hkind : t.kind = .curlyClose
      · rw [if_pos hkind, if_pos (by simp [hkind])]
        refine ⟨_, _, rfl, (halike.next_eq (halike.rest.trans hrest)).trans hn, hkind, rfl, ?_⟩
        rw [Tree.plantAll, List.append_nil]
      rw [if_neg hkind, if_neg (by simp [hkind])]
      have hstatement := gives_statement (p := { p with reader := r₂ }) halike hle
      cases hread : Statement.read s with
      | error e =>
          rw [hread] at hstatement
          exact bind_error hstatement
      | ok first =>
          rw [hread] at hstatement
          obtain ⟨n, q, hrun, hq, hscope, hplanted⟩ := hstatement
          have hlt := first.2
          rw [bind_ok hrun]
          have hmore := gives_body hq (by omega : 3 * first.1.2.remaining + 1 < fuel) (ns ++ [n])
          refine hmore.remap fun b ms q' hq' => ⟨hq'.1, hq'.2.1, hq'.2.2.1.trans hscope, ?_⟩
          have hms := hq'.2.2.2
          rw [hscope, List.append_assoc] at hms
          simp only [Tree.plantAll, hplanted]
          exact hms
termination_by fuel

end

end Parser

end Lindenmayer
