import Lindenmayer.Proofs.Lossless

/-!
# Looking ahead

A reader may look at the next token, ask for the end, and switch between passing
over blanks and being handed them, as often as it likes and at any time, also
with a token in hand that was looked at before the switch. None of that loses or
repeats a token (`tokens_in_order`). `Orderly` says what this comes to for
somebody who sees no more than the calls and the answers.

A call does one of three things to the tokens that are left: it drops blanks, it
takes the first token, or it does nothing. `Passed` relates what was taken to
what was gone by, and each of the three keeps it. For the blanks there is a
second thing to keep in mind, `Clean`: with blanks passed over, the token in hand
is none.
-/

namespace Lindenmayer

open Call (taken? shown? skippingAfter)

/-- What the answers to a run show of the tokens of a text, whatever was asked. -/
structure Orderly (full : List Token) (run : List (Call × Answer)) : Prop where
  /-- Up to some place, the tokens taken are those of the text in their order, but
  for blanks. -/
  taken : ∃ passed, passed <+: full ∧ (run.filterMap taken?).Sublist passed ∧
    (run.filterMap taken?).filter (!·.isBlank) = passed.filter (!·.isBlank)
  /-- A token that was looked at is the next to be taken, however much is looked at
  in between. -/
  peeked : ∀ {before between later : List (Call × Answer)} {t : Token} {call : Call}
    {answer : Answer}, run = before ++ (.peek, .handed t) :: (between ++ (call, answer) :: later) →
    (∀ entry ∈ between, entry.1.looks = true) → call.takes = true →
    taken? (call, answer) = some t
  /-- No blank is shown while blanks are passed over. -/
  dark : ∀ {before later : List (Call × Answer)} {entry : Call × Answer} {t : Token},
    run = before ++ entry :: later → skippingAfter (before.map Prod.fst) = true →
    shown? entry = some t → t.isBlank = false

/-! ## What was taken and what was gone by -/

/-- Whether `taken` is what precedes `rest` in `full`, with blanks left out. -/
def Passed (full taken rest : List Token) : Prop :=
  ∃ passed, full = passed ++ rest ∧ taken.Sublist passed ∧
    taken.filter (!·.isBlank) = passed.filter (!·.isBlank)

namespace Passed

variable {full taken rest : List Token}

theorem start (full : List Token) : Passed full [] full := ⟨[], rfl, .refl _, rfl⟩

theorem drop {blanks : List Token} (h : Passed full taken (blanks ++ rest))
    (hblanks : ∀ t ∈ blanks, t.isBlank = true) : Passed full taken rest := by
  obtain ⟨passed, rfl, hsublist, hdark⟩ := h
  have hnone : blanks.filter (!·.isBlank) = [] := by simpa using hblanks
  refine ⟨passed ++ blanks, by simp, hsublist.trans (List.sublist_append_left _ _), ?_⟩
  rw [List.filter_append, hnone, List.append_nil, hdark]

theorem take {t : Token} (h : Passed full taken (t :: rest)) : Passed full (taken ++ [t]) rest := by
  obtain ⟨passed, rfl, hsublist, hdark⟩ := h
  refine ⟨passed ++ [t], by simp, hsublist.append (.refl [t]), ?_⟩
  rw [List.filter_append, List.filter_append, hdark]

end Passed

namespace TokenStream

variable {s : TokenStream} {call : Call} {full taken : List Token}

/-! ## What a call does -/

theorem exists_settle (s : TokenStream) :
    ∃ blanks, s.rest = blanks ++ s.settle.rest ∧ ∀ t ∈ blanks, t.isBlank = true := by
  by_cases h : (s.skipping && !s.buffered) = true
  · refine ⟨s.rest.takeWhile Token.isBlank, ?_, fun t ht => List.mem_takeWhile_imp ht⟩
    simp [settle, h]
  · exact ⟨[], by simp [settle, h], by simp⟩

/-- A call that takes something takes the first token left, and has none in hand
then. -/
theorem taken_reply (h : call.takes = true) (s : TokenStream) :
    taken? (call, (s.reply call).1) = s.settle.rest.head? ∧
      (s.reply call).2.rest = s.settle.rest.tail ∧
      ((s.reply call).2.buffered = true → (s.reply call).2.rest = []) := by
  cases hrest : s.settle.rest with
  | nil =>
      cases call with
      | next => simp [reply, next_of_nil hrest, Answer.ofResult, taken?, hrest]
      | nextKind kind => simp [reply, nextKind, next_of_nil hrest, Answer.ofResult, taken?, hrest]
      | _ => cases h
  | cons t rest =>
      cases call with
      | next => simp [reply, next_of_cons hrest, Answer.ofResult, taken?]
      | nextKind kind =>
          rw [reply, nextKind, next_of_cons hrest]
          dsimp only
          split
          · exact ⟨rfl, rfl, fun h => absurd h Bool.false_ne_true⟩
          · exact ⟨rfl, rfl, fun h => absurd h Bool.false_ne_true⟩
      | _ => cases h

/-- A call that looks takes nothing. -/
theorem looks_reply (h : call.looks = true) (s : TokenStream) :
    taken? (call, (s.reply call).1) = none ∧ (s.reply call).2.rest = s.settle.rest := by
  cases hrest : s.settle.rest with
  | nil =>
      cases call with
      | atEnd => simp [reply, atEnd_of_nil hrest, taken?, hrest]
      | peek => simp [reply, peek_of_nil hrest, taken?, hrest]
      | peekKind kind => simp [reply, peekKind, peek_of_nil hrest, taken?, hrest]
      | _ => cases h
  | cons t rest =>
      cases call with
      | atEnd => simp [reply, atEnd_of_cons hrest, taken?, hrest]
      | peek => simp [reply, peek_of_cons hrest, taken?, hrest]
      | peekKind kind => simp [reply, peekKind, peek_of_cons hrest, taken?, hrest]
      | _ => cases h

/-- What a call shows is the first token left. -/
theorem shown_reply {t : Token} (h : shown? (call, (s.reply call).1) = some t) :
    s.settle.rest.head? = some t := by
  cases call with
  | next =>
      have htakes : Call.next.takes = true := rfl
      exact (taken_reply htakes s).1.symm.trans h
  | nextKind kind =>
      have htakes : (Call.nextKind kind).takes = true := rfl
      exact (taken_reply htakes s).1.symm.trans h
  | peek =>
      cases hrest : s.settle.rest with
      | nil => simp [reply, peek_of_nil hrest, Answer.ofResult, shown?, taken?] at h
      | cons u rest => simpa [reply, peek_of_cons hrest, Answer.ofResult, shown?] using h
  | atEnd => cases h
  | peekKind kind => cases h
  | setSkipping b => cases h

theorem skipping_peek (s : TokenStream) : s.peek.2.skipping = s.skipping := by
  unfold peek
  split <;> exact settle_skipping s

theorem skipping_next (s : TokenStream) : s.next.2.skipping = s.skipping := by
  unfold next
  split <;> exact settle_skipping s

theorem skipping_setSkipping (b : Bool) (s : TokenStream) : (s.setSkipping b).skipping = b := by
  unfold setSkipping
  split
  · split <;> rfl
  · rfl

theorem skipping_reply (s : TokenStream) (call : Call) :
    (s.reply call).2.skipping = call.switch s.skipping := by
  cases call with
  | atEnd => exact settle_skipping s
  | peek => exact skipping_peek s
  | peekKind kind =>
      have hpeek := skipping_peek s
      simp only [reply, peekKind, Call.switch]
      split <;> simp_all
  | next => exact skipping_next s
  | nextKind kind =>
      have hnext := skipping_next s
      simp only [reply, nextKind, Call.switch]
      split
      · split <;> simp_all
      · simp_all
  | setSkipping b => exact skipping_setSkipping b s

/-- Switching drops a blank in hand, or nothing. -/
theorem exists_setSkipping (b : Bool) (s : TokenStream) :
    ∃ blanks, s.rest = blanks ++ (s.setSkipping b).rest ∧ ∀ t ∈ blanks, t.isBlank = true := by
  unfold setSkipping
  split
  · next t rest hrest =>
      split
      · next hblank =>
          simp only [Bool.and_eq_true] at hblank
          exact ⟨[t], hrest, by simpa using hblank.2⟩
      · exact ⟨[], rfl, by simp⟩
  · exact ⟨[], rfl, by simp⟩

/-! ## What a run passes -/

theorem passed_reply (h : Passed full taken s.rest) (call : Call) :
    Passed full (taken ++ (taken? (call, (s.reply call).1)).toList) (s.reply call).2.rest := by
  obtain ⟨blanks, hrest, hblanks⟩ := exists_settle s
  have hsettled : Passed full taken s.settle.rest := by
    rw [hrest] at h
    exact h.drop hblanks
  rcases call.cases with htakes | hlooks | ⟨b, rfl⟩
  · obtain ⟨htaken, hafter, _⟩ := taken_reply htakes s
    rw [htaken, hafter]
    cases hleft : s.settle.rest with
    | nil => simpa [hleft] using hsettled
    | cons t rest =>
        rw [hleft] at hsettled
        exact hsettled.take
  · obtain ⟨htaken, hafter⟩ := looks_reply hlooks s
    rw [htaken, hafter]
    simpa using hsettled
  · obtain ⟨blanks, hrest, hblanks⟩ := exists_setSkipping b s
    rw [hrest] at h
    simpa [reply, taken?] using h.drop hblanks

theorem passed_transcript (h : Passed full taken s.rest) (calls : List Call) :
    Passed full (taken ++ (transcript reply s calls).filterMap taken?)
      (finalState reply s calls).rest := by
  induction calls generalizing s taken with
  | nil => simpa [transcript, finalState] using h
  | cons call calls ih =>
      have hstep := ih (passed_reply h call)
      rw [List.append_assoc] at hstep
      have hentry : (transcript reply s (call :: calls)).filterMap taken? =
          (taken? (call, (s.reply call).1)).toList ++
            (transcript reply (s.reply call).2 calls).filterMap taken? := by
        rw [transcript, List.filterMap_cons]
        cases taken? (call, (s.reply call).1) <;> rfl
      rw [hentry]
      exact hstep

/-! ## The token in hand -/

/-- Whether the token in hand is no blank, where blanks are passed over. -/
def Clean (s : TokenStream) : Prop :=
  s.skipping = true → s.buffered = true → ∀ t ∈ s.rest.head?, t.isBlank = false

/-- And neither is the next one then. -/
theorem Clean.settle (h : s.Clean) (hskipping : s.skipping = true) :
    ∀ t ∈ s.settle.rest.head?, t.isBlank = false := by
  intro t ht
  cases hbuffered : s.buffered with
  | true =>
      rw [settle_of_buffered hbuffered] at ht
      exact h hskipping hbuffered t ht
  | false =>
      have hstop := List.head?_dropWhile_not Token.isBlank s.rest
      have hrest : s.settle.rest = s.rest.dropWhile Token.isBlank := by
        simp [TokenStream.settle, hskipping, hbuffered]
      rw [hrest, Option.mem_def] at ht
      rw [ht] at hstop
      exact hstop

theorem clean_setSkipping (b : Bool) (s : TokenStream) : (s.setSkipping b).Clean := by
  unfold setSkipping
  split
  · next u rest hrest =>
      split
      · exact nofun
      · next hkept =>
          intro hskipping hbuffered t ht
          simp_all
  · next hrest =>
      intro _ _ t ht
      simp [hrest] at ht

theorem Clean.reply (h : s.Clean) (call : Call) : (s.reply call).2.Clean := by
  rcases call.cases with htakes | hlooks | ⟨b, rfl⟩
  · intro _ hbuffered t ht
    simp [(taken_reply htakes s).2.2 hbuffered] at ht
  · intro hskipping _ t ht
    rw [skipping_reply, Call.switch_of_looks hlooks] at hskipping
    rw [(looks_reply hlooks s).2] at ht
    exact h.settle hskipping t ht
  · exact clean_setSkipping b s

theorem Clean.finalState (h : s.Clean) (calls : List Call) :
    (finalState TokenStream.reply s calls).Clean := by
  induction calls generalizing s with
  | nil => exact h
  | cons call calls ih => exact ih (h.reply call)

theorem skipping_finalState (s : TokenStream) (calls : List Call) :
    (finalState reply s calls).skipping = calls.foldl Call.switch s.skipping := by
  induction calls generalizing s with
  | nil => rfl
  | cons call calls ih =>
      rw [List.foldl_cons, ← skipping_reply]
      exact ih _

/-- Looking again, when a token is in hand, changes nothing. -/
theorem reply_of_looks {t : Token} {rest : List Token} (hbuffered : s.buffered = true)
    (hrest : s.rest = t :: rest) (h : call.looks = true) : (s.reply call).2 = s := by
  have hsettle := settle_of_buffered hbuffered
  have hleft : s.settle.rest = t :: rest := by rw [hsettle, hrest]
  cases call with
  | atEnd => exact hsettle
  | peek => simp [reply, peek_of_cons hleft, hsettle, ← hbuffered]
  | peekKind kind => simp [reply, peekKind, peek_of_cons hleft, hsettle, ← hbuffered]
  | _ => cases h

theorem finalState_of_looks {t : Token} {rest : List Token} (hbuffered : s.buffered = true)
    (hrest : s.rest = t :: rest) {calls : List Call} (h : ∀ call ∈ calls, call.looks = true) :
    finalState reply s calls = s := by
  induction calls with
  | nil => rfl
  | cons call calls ih =>
      have hsame := reply_of_looks hbuffered hrest (h call List.mem_cons_self)
      have hmore := ih fun c hc => h c (List.mem_cons_of_mem call hc)
      rw [finalState, List.foldl_cons, hsame]
      exact hmore

/-- Nothing that is asked in between, other than to switch, changes which token
comes next. -/
theorem taken_of_peeked {t : Token} {between : List Call} (hpeek : s.peek.1 = .ok t)
    (hbetween : ∀ c ∈ between, c.looks = true) (htakes : call.takes = true) :
    taken? (call, ((finalState reply s.peek.2 between).reply call).1) = some t := by
  cases hleft : s.settle.rest with
  | nil =>
      rw [peek_of_nil hleft] at hpeek
      cases hpeek
  | cons u rest =>
      rw [peek_of_cons hleft] at hpeek ⊢
      cases hpeek
      have hstay : finalState reply { s.settle with buffered := true } between =
          { s.settle with buffered := true } :=
        finalState_of_looks (s := { s.settle with buffered := true }) rfl hleft hbetween
      rw [hstay, (taken_reply htakes _).1, settle_of_buffered rfl, hleft]
      rfl

/-- Tokens come in order to whoever reads them, whatever is asked and in whichever
order, and it is the same whether they were there before or are made by going
through the text. -/
theorem tokens_in_order (source : String) (calls : List Call) :
    ∃ full : List Token,
      ReadsAll reply ((ofSource source).setSkipping false) full ∧
      Orderly full (transcript reply (ofSource source) calls) ∧
      transcript CharReader.reply (CharReader.ofSource source) calls =
        transcript reply (ofSource source) calls := by
  have hclean : (ofSource source).Clean := nofun
  refine ⟨Token.scan source, readsAll_scan source, ⟨?_, ?_, ?_⟩,
    (CharReader.transcript_ofSource source calls).symm⟩
  · obtain ⟨passed, hfull, hsublist, hdark⟩ :=
      passed_transcript (s := ofSource source) (.start (Token.scan source)) calls
    exact ⟨passed, ⟨_, hfull.symm⟩, hsublist, hdark⟩
  · intro before between later t call answer hrun hbetween htakes
    obtain ⟨hpeeked, hafter⟩ := transcript_cons (transcript_split hrun).2
    obtain ⟨hanswer, _⟩ := transcript_cons (transcript_split hafter).2
    rw [← hanswer]
    refine taken_of_peeked (Answer.ofResult_eq_handed hpeeked) (fun c hc => ?_) htakes
    obtain ⟨entry, hentry, rfl⟩ := List.mem_map.1 hc
    exact hbetween entry hentry
  · rintro before later ⟨call, answer⟩ t hrun hskipping hshown
    obtain ⟨hanswer, _⟩ := transcript_cons (transcript_split hrun).2
    rw [← hanswer] at hshown
    refine (hclean.finalState (before.map Prod.fst)).settle ?_ t (shown_reply hshown)
    rw [skipping_finalState]
    exact hskipping

end TokenStream

end Lindenmayer
