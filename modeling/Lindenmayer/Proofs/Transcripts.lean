import Lindenmayer.Source.TokenStream
import Mathlib.Data.List.DropRight

/-!
# What a reader of tokens is asked and what it answers

A parser is not the only one that may read tokens, and what it happens to ask
for is no measure of what a stream owes to those that read from it. `Call` lists
all that can be asked, and a run is any list of calls. What is seen of a run is
its transcript, the calls with the answers to them; the state of the reader is
not in it, so that two readers that work in different ways can be compared by
what they answer (`transcript_map`).

The most common run of all is to read on to the end, `ReadsAll`.
-/

namespace Lindenmayer

/-- What can be asked of a reader of tokens. -/
inductive Call where
  | atEnd
  | peek
  | peekKind (kind : TokenKind)
  | next
  | nextKind (kind : TokenKind)
  | setSkipping (skipping : Bool)
  deriving DecidableEq, Repr

inductive Answer where
  | told (holds : Bool)
  | handed (token : Token)
  | failed (error : SyntaxError)
  | done
  deriving DecidableEq, Repr

namespace Answer

def ofResult : Except SyntaxError Token → Answer
  | .ok t => .handed t
  | .error e => .failed e

theorem ofResult_eq_handed {result : Except SyntaxError Token} {t : Token}
    (h : ofResult result = .handed t) : result = .ok t := by
  cases result with
  | ok u =>
      cases h
      rfl
  | error e => cases h

end Answer

namespace Call

/-- Whether a call takes the next token, if there is one. -/
def takes : Call → Bool
  | next | nextKind _ => true
  | _ => false

/-- Whether a call only looks at what comes next. -/
def looks : Call → Bool
  | atEnd | peek | peekKind _ => true
  | _ => false

theorem cases (call : Call) :
    call.takes = true ∨ call.looks = true ∨ ∃ b, call = setSkipping b := by
  cases call <;> simp [takes, looks]

/-- The token that a call took. One of the wrong kind is taken too, and the error
tells all about it. -/
def taken? : Call × Answer → Option Token
  | (next, .handed t) => some t
  | (nextKind _, .handed t) => some t
  | (nextKind _, .failed (.unexpectedToken _ found text region)) => some ⟨found, text, region.start⟩
  | _ => none

/-- The token that a call shows, whether it takes it or not. -/
def shown? : Call × Answer → Option Token
  | (peek, .handed t) => some t
  | entry => taken? entry

/-- Whether blanks are passed over after a call. -/
def switch (skipping : Bool) : Call → Bool
  | setSkipping b => b
  | _ => skipping

theorem switch_of_looks {call : Call} (h : call.looks = true) (skipping : Bool) :
    call.switch skipping = skipping := by
  cases call <;> first | rfl | cases h

/-- Whether blanks are passed over after some calls, as they are at first. -/
def skippingAfter (calls : List Call) : Bool := calls.foldl switch true

end Call

/-! ## Runs -/

section Runs

variable {σ τ : Type} {reply : σ → Call → Answer × σ} {reply' : τ → Call → Answer × τ}

/-- The calls of a run with the answers to them. -/
def transcript (reply : σ → Call → Answer × σ) (s : σ) : List Call → List (Call × Answer)
  | [] => []
  | call :: calls => (call, (reply s call).1) :: transcript reply (reply s call).2 calls

/-- Where a run ends. -/
def finalState (reply : σ → Call → Answer × σ) (s : σ) (calls : List Call) : σ :=
  calls.foldl (fun s call => (reply s call).2) s

/-- All that is taken when tokens are taken until none is left. No answer on the
way is an error. -/
inductive ReadsAll (reply : σ → Call → Answer × σ) : σ → List Token → Prop
  | done {s s' : σ} (hend : reply s .atEnd = (.told true, s')) : ReadsAll reply s []
  | more {s s₁ s₂ : σ} {t : Token} {ts : List Token} (hend : reply s .atEnd = (.told false, s₁))
      (hnext : reply s₁ .next = (.handed t, s₂)) (h : ReadsAll reply s₂ ts) :
      ReadsAll reply s (t :: ts)

theorem transcript_append (s : σ) (calls more : List Call) :
    transcript reply s (calls ++ more) =
      transcript reply s calls ++ transcript reply (finalState reply s calls) more := by
  induction calls generalizing s with
  | nil => rfl
  | cons call calls ih =>
      simp only [List.cons_append, transcript, ih]
      rfl

@[simp] theorem map_fst_transcript (s : σ) (calls : List Call) :
    (transcript reply s calls).map Prod.fst = calls := by
  induction calls generalizing s with
  | nil => rfl
  | cons call calls ih => simp [transcript, ih]

/-- A part of a transcript is the transcript of a part of the run. -/
theorem transcript_split {s : σ} {calls : List Call} {before later : List (Call × Answer)}
    (h : transcript reply s calls = before ++ later) :
    transcript reply s (before.map Prod.fst) = before ∧
      transcript reply (finalState reply s (before.map Prod.fst)) (later.map Prod.fst) = later := by
  have hcalls : (transcript reply s calls).map Prod.fst = calls := map_fst_transcript s calls
  rw [h, List.map_append] at hcalls
  rw [← hcalls, transcript_append] at h
  refine List.append_inj h ?_
  rw [← List.length_map (f := Prod.fst), map_fst_transcript, List.length_map]

/-- The first entry of a transcript, and those behind it. -/
theorem transcript_cons {s : σ} {call : Call} {answer : Answer} {later : List (Call × Answer)}
    (h : transcript reply s (call :: later.map Prod.fst) = (call, answer) :: later) :
    (reply s call).1 = answer ∧
      transcript reply (reply s call).2 (later.map Prod.fst) = later := by
  rw [transcript] at h
  exact ⟨congrArg Prod.snd (List.cons.inj h).1, (List.cons.inj h).2⟩

/-- A reader that answers as another does, on states that belong together, has
the same transcripts. -/
theorem transcript_map {f : σ → τ}
    (hreply : ∀ s call, reply' (f s) call = ((reply s call).1, f (reply s call).2))
    (s : σ) (calls : List Call) : transcript reply' (f s) calls = transcript reply s calls := by
  induction calls generalizing s with
  | nil => rfl
  | cons call calls ih => rw [transcript, transcript, hreply, ih]

theorem ReadsAll.of_map {f : σ → τ}
    (hreply : ∀ s call, reply' (f s) call = ((reply s call).1, f (reply s call).2))
    {s : σ} {ts : List Token} (h : ReadsAll reply' (f s) ts) : ReadsAll reply s ts := by
  generalize hs : f s = s' at h
  induction h generalizing s with
  | done hend =>
      rw [← hs, hreply] at hend
      exact .done (Prod.ext (Prod.mk.inj hend).1 rfl)
  | more hend hnext _ ih =>
      rw [← hs, hreply] at hend
      obtain ⟨hfalse, rfl⟩ := Prod.mk.inj hend
      rw [hreply] at hnext
      obtain ⟨hhanded, rfl⟩ := Prod.mk.inj hnext
      exact .more (Prod.ext hfalse rfl) (Prod.ext hhanded rfl) (ih rfl)

end Runs

/-! ## Streams of tokens as readers -/

namespace TokenStream

variable {s : TokenStream} {t : Token} {rest : List Token}

def reply (s : TokenStream) : Call → Answer × TokenStream
  | .atEnd => (.told s.atEnd.1, s.atEnd.2)
  | .peek => (.ofResult s.peek.1, s.peek.2)
  | .peekKind kind => (.told (s.peekKind kind).1, (s.peekKind kind).2)
  | .next => (.ofResult s.next.1, s.next.2)
  | .nextKind kind => (.ofResult (s.nextKind kind).1, (s.nextKind kind).2)
  | .setSkipping b => (.done, s.setSkipping b)

theorem settle_of_buffered (h : s.buffered = true) : s.settle = s := by simp [settle, h]

@[simp] theorem settle_settle (s : TokenStream) : s.settle.settle = s.settle := by
  by_cases h : (s.skipping && !s.buffered) = true
  · simp only [settle, h, if_true, List.dropWhile_idempotent]
  · simp only [settle, h, if_false, Bool.false_eq_true]

theorem atEnd_of_nil (h : s.settle.rest = []) : s.atEnd = (true, s.settle) := by simp [atEnd, h]

theorem atEnd_of_cons (h : s.settle.rest = t :: rest) : s.atEnd = (false, s.settle) := by
  simp [atEnd, h]

theorem peek_of_nil (h : s.settle.rest = []) :
    s.peek = (.error (.prematureEnd s.stop), s.settle) := by
  rw [peek, h]

theorem peek_of_cons (h : s.settle.rest = t :: rest) :
    s.peek = (.ok t, { s.settle with buffered := true }) := by
  rw [peek, h]

theorem next_of_nil (h : s.settle.rest = []) :
    s.next = (.error (.prematureEnd s.stop), s.settle) := by
  rw [next, h]

theorem next_of_cons (h : s.settle.rest = t :: rest) :
    s.next = (.ok t, { s.settle with rest, buffered := false }) := by
  rw [next, h]

end TokenStream

end Lindenmayer
