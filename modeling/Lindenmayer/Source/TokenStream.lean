import Lindenmayer.Source.SyntaxError

/-!
# Streams of tokens

A reader takes tokens one at a time and may look at the next before it takes it. Blanks
matter to some constructs and not to others, so the stream can be switched between skipping
them and handing them out, also when the next token has been looked at already.

The stream holds all tokens that are left, blanks included; skipping is nothing but
dropping blanks from the front before the next token is needed. Looking ahead therefore
never reads anything in the wrong mode, and the one thing left to record is whether the
token in front has been looked at: an end of input must not be announced in front of it,
and a blank that was looked at goes away when skipping is switched on.
-/

namespace Lindenmayer

/-- What is left of a source text for a reader. -/
structure TokenStream where
  /-- The tokens not taken yet, blanks included. -/
  rest : List Token
  /-- The length of the source in bytes. -/
  stop : Nat
  /-- Whether blanks are passed over. -/
  skipping : Bool
  /-- Whether the first token of `rest` has been looked at. -/
  buffered : Bool
  deriving DecidableEq, Repr

namespace TokenStream

/-- The stream of a whole source text, with blanks passed over. -/
def ofSource (source : String) : TokenStream :=
  ⟨Token.scan source, source.utf8ByteSize, true, false⟩

/-- The number of tokens left, blanks included. -/
def remaining (s : TokenStream) : Nat := s.rest.length

/-- Drops the blanks in front where they are not wanted. A token that was looked at is
wanted. -/
def settle (s : TokenStream) : TokenStream :=
  if s.skipping && !s.buffered then { s with rest := s.rest.dropWhile Token.isBlank } else s

/-- Whether a token is left, and the stream in front of it. -/
def atEnd (s : TokenStream) : Bool × TokenStream := (s.settle.rest.isEmpty, s.settle)

/-- The offset of the first byte not taken. -/
def offset (s : TokenStream) : Nat :=
  match s.rest with
  | [] => s.stop
  | t :: _ => t.offset

def peek (s : TokenStream) : Except SyntaxError Token × TokenStream :=
  match s.settle.rest with
  | [] => (.error (.prematureEnd s.stop), s.settle)
  | t :: _ => (.ok t, { s.settle with buffered := true })

def next (s : TokenStream) : Except SyntaxError Token × TokenStream :=
  match s.settle.rest with
  | [] => (.error (.prematureEnd s.stop), s.settle)
  | t :: rest => (.ok t, { s.settle with rest, buffered := false })

def peekKind (kind : TokenKind) (s : TokenStream) : Bool × TokenStream :=
  match s.peek with
  | (.ok t, s) => (t.kind == kind, s)
  | (.error _, s) => (false, s)

/-- Takes the next token, which must be of the given kind. A token of another kind is taken
all the same. -/
def nextKind (expected : TokenKind) (s : TokenStream) : Except SyntaxError Token × TokenStream :=
  match s.next with
  | (.ok t, s) =>
    if t.kind = expected then (.ok t, s)
    else (.error (.unexpectedToken expected t.kind t.text t.region), s)
  | (.error e, s) => (.error e, s)

def setSkipping (skipping : Bool) (s : TokenStream) : TokenStream :=
  match s.rest with
  | t :: rest =>
    if skipping && s.buffered && t.isBlank then { s with rest, skipping, buffered := false }
    else { s with skipping }
  | [] => { s with skipping }

/-! ## What the operations do to the tokens left -/

theorem settle_rest_suffix (s : TokenStream) : s.settle.rest <:+ s.rest := by
  unfold settle
  split
  · exact List.dropWhile_suffix _
  · exact List.suffix_refl _

theorem remaining_settle_le (s : TokenStream) : s.settle.remaining ≤ s.remaining :=
  (settle_rest_suffix s).length_le

@[simp] theorem settle_stop (s : TokenStream) : s.settle.stop = s.stop := by
  unfold settle; split <;> rfl

@[simp] theorem settle_skipping (s : TokenStream) : s.settle.skipping = s.skipping := by
  unfold settle; split <;> rfl

/-- A token taken is a token fewer. -/
theorem remaining_next_lt {s s' : TokenStream} {t : Token} (h : s.next = (.ok t, s')) :
    s'.remaining < s.remaining := by
  have hs := remaining_settle_le s
  unfold next at h
  split at h
  · cases h
  · next hrest =>
    cases h
    simp only [remaining, hrest, List.length_cons] at hs ⊢
    omega

theorem remaining_nextKind_lt {s s' : TokenStream} {k : TokenKind} {t : Token}
    (h : s.nextKind k = (.ok t, s')) : s'.remaining < s.remaining := by
  unfold nextKind at h
  split at h
  · next u s₁ hn =>
    split at h
    · cases h
      exact remaining_next_lt hn
    · cases h
  · cases h

theorem remaining_peek_le (s : TokenStream) : s.peek.2.remaining ≤ s.remaining := by
  have hs := remaining_settle_le s
  unfold peek
  split <;> exact hs

theorem remaining_peekKind_le (k : TokenKind) (s : TokenStream) :
    (s.peekKind k).2.remaining ≤ s.remaining := by
  have hs := remaining_peek_le s
  unfold peekKind
  split <;> simp_all

theorem remaining_setSkipping_le (b : Bool) (s : TokenStream) :
    (s.setSkipping b).remaining ≤ s.remaining := by
  unfold setSkipping
  split
  · next t rest hrest =>
    split
    · simp only [remaining, hrest, List.length_cons]; omega
    · exact Nat.le_refl _
  · exact Nat.le_refl _

end TokenStream

end Lindenmayer
