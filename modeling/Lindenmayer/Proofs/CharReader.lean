import Lindenmayer.Proofs.Reading
import Lindenmayer.Proofs.Transcripts
import Lindenmayer.Source.CharCursor

/-!
# Reading tokens by character

A `TokenStream` has all tokens before the first is asked for, and what it leaves
out it leaves out by the token. `CharReader` is the other way to do it: it goes
through the text once, one character at a time, makes a token when one is asked
for, steps back over the character that turned out not to belong to it, keeps
the one token that was looked at, and passes over blanks by the character.

The two answer alike, whatever they are asked and in whichever order
(`transcript_stream`). Whatever a stream of tokens is said to do is therefore
said of a reader that has no token but the one in its hands. The state of the
one is read off that of the other (`CharReader.stream`): what is left for a
stream is the token in hand, if there is one, and the tokens of the text ahead.
-/

namespace Lindenmayer

open Lindenmayer.Text

namespace Text

theorem byteLength_reverse (cs : List Char) : byteLength cs.reverse = byteLength cs := by
  induction cs with
  | nil => rfl
  | cons a cs ih => simp [ih, Nat.add_comm]

end Text

namespace CharCursor

variable {c : CharCursor} {w rest : List Char}

/-! ## Going on by more than a character -/

/-- The cursor behind `w`, where `w` comes next. -/
def pass (c : CharCursor) (w : List Char) : CharCursor :=
  ⟨w.reverse ++ c.passed, c.ahead.drop w.length⟩

theorem next_of_ahead {a : Char} (h : c.ahead = a :: rest) : c.next = .ok (a, c.pass [a]) := by
  simp [next, pass, h]

theorem pass_pass (v w : List Char) : (c.pass v).pass w = c.pass (v ++ w) := by
  simp [pass]

@[simp] theorem pass_nil : c.pass [] = c := rfl

theorem ahead_pass (h : c.ahead = w ++ rest) : (c.pass w).ahead = rest := by
  simp [pass, h]

theorem source_pass (h : w <+: c.ahead) : (c.pass w).source = c.source := by
  obtain ⟨rest, hrest⟩ := h
  simp [source, pass, ← hrest]

@[simp] theorem offset_pass (w : List Char) : (c.pass w).offset = c.offset + byteLength w := by
  simp [offset, pass, byteLength_reverse, Nat.add_comm]

/-- The text between two places is what comes next at the first. -/
theorem text_pass (h : w <+: c.ahead) : c.text c.offset (c.pass w).offset = String.ofList w := by
  obtain ⟨rest, hrest⟩ := h
  have hcut : cutBytes c.offset c.source = (c.passed.reverse, c.ahead) := by
    rw [offset, source, ← byteLength_reverse, cutBytes_byteLength]
  rw [text, sliceBytes, hcut, offset_pass, Nat.add_sub_cancel_left, ← hrest, cutBytes_byteLength]

theorem length_next {d : CharCursor} {a : Char} (h : c.next = .ok (a, d)) :
    d.ahead.length < c.ahead.length := by
  unfold next at h
  split at h
  · cases h
  · next hahead =>
      cases h
      simp [hahead]

/-- Goes on as long as the next character is one of some kind. -/
def passWhile (p : Char → Bool) (c : CharCursor) : CharCursor :=
  match _h : c.next with
  | .ok (a, d) => if p a then d.passWhile p else c
  | .error _ => c
termination_by c.ahead.length
decreasing_by exact length_next _h

theorem passWhile_eq (p : Char → Bool) (c : CharCursor) :
    c.passWhile p = c.pass (c.ahead.takeWhile p) := by
  fun_induction passWhile p c with
  | case1 c a d hnext hp ih =>
      obtain ⟨rest, hahead⟩ : ∃ rest, c.ahead = a :: rest := by
        unfold next at hnext
        split at hnext
        · cases hnext
        · next rest hahead =>
            cases hnext
            exact ⟨rest, hahead⟩
      rw [next_of_ahead hahead] at hnext
      cases hnext
      rw [ih, ahead_pass hahead, pass_pass, hahead, List.takeWhile_cons_of_pos hp]
      rfl
  | case2 c a d hnext hp =>
      unfold next at hnext
      split at hnext
      · cases hnext
      · next rest hahead =>
          cases hnext
          rw [hahead, List.takeWhile_cons_of_neg hp, pass_nil]
  | case3 c e hnext =>
      unfold next at hnext
      split at hnext
      · next hahead => rw [hahead, List.takeWhile_nil, pass_nil]
      · cases hnext

/-! ## One token -/

/-- What a dash is that was just passed. -/
def dash (c : CharCursor) : Except SyntaxError (TokenKind × CharCursor) :=
  if c.atEnd then .ok (.operator, c)
  else do
    let (a, d) ← c.next
    if a = '>' then return (.arrow, d)
    else return (.operator, ← d.pushBack)

/-- A line feed goes with the carriage return that was just passed. -/
def carriageReturn (c : CharCursor) : Except SyntaxError (TokenKind × CharCursor) :=
  match c.peek with
  | .ok '\n' => do
    let (_, d) ← c.next
    return (.lineEnd, d)
  | _ => return (.lineEnd, c)

/-- The number whose first digit was just passed. A point behind it is taken for
the time being, and given back if no digit follows. -/
def number (c : CharCursor) : Except SyntaxError (TokenKind × CharCursor) :=
  let d := c.passWhile isDigit
  match d.peek with
  | .ok '.' => do
    let (_, e) ← d.next
    match e.peek with
    | .ok a =>
      if isDigit a then return (.number, e.passWhile isDigit)
      else return (.number, ← e.pushBack)
    | .error _ => return (.number, ← e.pushBack)
  | _ => return (.number, d)

/-- The kind of the next token, and the cursor behind it. -/
def lexeme (c : CharCursor) : Except SyntaxError (TokenKind × CharCursor) := do
  let (a, d) ← c.next
  match a with
  | '"' => return (.quote, d)
  | '\'' => return (.quote, d)
  | ':' => return (.colon, d)
  | '=' => return (.assignment, d)
  | '(' => return (.parensOpen, d)
  | ')' => return (.parensClose, d)
  | '{' => return (.curlyOpen, d)
  | '}' => return (.curlyClose, d)
  | '-' => d.dash
  | '.' => return (.dot, d)
  | '+' => return (.operator, d)
  | '*' => return (.operator, d)
  | '/' => return (.operator, d)
  | '\n' => return (.lineEnd, d)
  | '\r' => d.carriageReturn
  | a =>
    if Text.isBlank a then
      return (.whitespace, d.passWhile fun b => Text.isBlank b && b != '\n' && b != '\r')
    else if isDigit a then d.number
    else
      let e := d.passWhile fun b => !Text.isBlank b && !Token.isDelimiter b
      return (Token.classify (c.text c.offset e.offset).toList, e)

theorem dash_eq (c : CharCursor) :
    c.dash = .ok ((Token.lexeme '-' c.ahead).1, c.pass (Token.lexeme '-' c.ahead).2) := by
  rw [dash, Token.lexeme_dash]
  cases hahead : c.ahead with
  | nil => simp [atEnd, hahead]
  | cons a rest =>
      have hnext := next_of_ahead hahead
      by_cases ha : a = '>'
      · subst ha
        simp [atEnd, hahead, hnext, bind, Except.bind, pure, Except.pure]
      · simp [atEnd, hahead, hnext, ha, pushBack_next hnext, bind, Except.bind, pure, Except.pure]

theorem carriageReturn_eq (c : CharCursor) :
    c.carriageReturn =
      .ok ((Token.lexeme '\r' c.ahead).1, c.pass (Token.lexeme '\r' c.ahead).2) := by
  rw [carriageReturn, Token.lexeme_return]
  cases hahead : c.ahead with
  | nil => simp [peek, hahead, pure, Except.pure]
  | cons a rest =>
      have hnext := next_of_ahead hahead
      by_cases ha : a = '\n'
      · subst ha
        simp [peek, hahead, hnext, bind, Except.bind, pure, Except.pure]
      · simp [peek, hahead, ha, pure, Except.pure]

theorem number_eq (c : CharCursor) :
    c.number = .ok (.number, c.pass (Token.numberTail c.ahead)) := by
  have hsplit := List.takeWhile_append_dropWhile (p := isDigit) (l := c.ahead)
  have hbehind := ahead_pass hsplit.symm
  rw [number, passWhile_eq, Token.numberTail_eq]
  generalize hd : c.pass (c.ahead.takeWhile isDigit) = d at hbehind
  generalize c.ahead.dropWhile isDigit = rest at hbehind
  rw [← pass_pass, hd]
  cases rest with
  | nil => simp [peek, hbehind, Token.fraction, pure, Except.pure]
  | cons a rest =>
      have hnext := next_of_ahead hbehind
      by_cases ha : a = '.'
      · subst ha
        have hahead := ahead_pass (w := ['.']) hbehind
        cases rest with
        | nil =>
            simp [peek, hbehind, hahead, hnext, pushBack_next hnext, Token.fraction, bind,
              Except.bind, pure, Except.pure]
        | cons b rest =>
            by_cases hb : isDigit b = true
            · simp [peek, hbehind, hahead, hnext, passWhile_eq, pass_pass, hb, Token.fraction,
                bind, Except.bind, pure, Except.pure]
            · simp [peek, hbehind, hahead, hnext, pushBack_next hnext, hb, Token.fraction, bind,
                Except.bind, pure, Except.pure]
      · simp [peek, hbehind, ha, Token.fraction_of_ne ha, pure, Except.pure]

/-- Going by character comes to the same token. -/
theorem lexeme_eq {a : Char} (h : c.ahead = a :: rest) :
    c.lexeme = .ok ((Token.lexeme a rest).1, c.pass (a :: (Token.lexeme a rest).2)) := by
  have hnext := next_of_ahead h
  have hahead : (c.pass [a]).ahead = rest := ahead_pass (w := [a]) h
  have hpass : ∀ w, (c.pass [a]).pass w = c.pass (a :: w) := fun w => pass_pass [a] w
  rw [lexeme, hnext]
  rcases Token.start_cases a with rfl | ⟨hdelimiter, hdash⟩ | rfl | rfl | ⟨hdelimiter, hn, hr⟩
  · refine (dash_eq (c.pass ['-'])).trans ?_
    rw [hahead, hpass]
  · rcases Token.isDelimiter_cases hdelimiter with
      rfl | rfl | rfl | rfl | rfl | rfl | rfl | rfl | rfl | rfl | rfl | rfl | rfl
    all_goals first
      | rfl
      | exact absurd rfl hdash
  · rfl
  · refine (carriageReturn_eq (c.pass ['\r'])).trans ?_
    rw [hahead, hpass]
  · rw [Token.lexeme_of_run hdelimiter hn hr]
    dsimp only [bind, Except.bind]
    split
    all_goals first
      | exact absurd hdelimiter (by decide)
      | exact absurd rfl hn
      | exact absurd rfl hr
      | skip
    split
    · rw [passWhile_eq, hahead, hpass]
      rfl
    · split
      · rw [number_eq, hahead, hpass]
      · have hfront : ∀ p : Char → Bool, a :: rest.takeWhile p <+: c.ahead := by
          intro p
          rw [h, List.prefix_cons_inj]
          exact List.takeWhile_prefix p
        simp only [passWhile_eq, hahead, hpass, text_pass (hfront _), String.toList_ofList]
        rfl

end CharCursor

/-- A reader of tokens that has made none but the one in its hands. -/
structure CharReader where
  cursor : CharCursor
  /-- The token that was looked at and not taken yet. -/
  buffer : Option Token
  /-- Whether blanks are passed over. -/
  skipping : Bool
  deriving DecidableEq, Repr

namespace CharReader

def ofSource (source : String) : CharReader := ⟨.ofSource source, none, true⟩

def skipBlanks (r : CharReader) : CharReader :=
  if r.skipping then { r with cursor := r.cursor.passWhile Text.isBlank } else r

/-- Makes the next token of the text ahead. -/
def make (r : CharReader) : Except SyntaxError Token × CharReader :=
  let r := r.skipBlanks
  match r.cursor.lexeme with
  | .ok (kind, behind) =>
    let text := r.cursor.text r.cursor.offset behind.offset
    (.ok ⟨kind, text, r.cursor.offset⟩, { r with cursor := behind })
  | .error e => (.error e, r)

def atEnd (r : CharReader) : Bool × CharReader :=
  if r.buffer.isSome then (false, r) else (r.skipBlanks.cursor.atEnd, r.skipBlanks)

/-- The offset of the first byte not taken. -/
def offset (r : CharReader) : Nat :=
  match r.buffer with
  | some t => t.offset
  | none => r.cursor.offset

def peek (r : CharReader) : Except SyntaxError Token × CharReader :=
  match r.buffer with
  | some t => (.ok t, r)
  | none =>
    match r.make with
    | (.ok t, r) => (.ok t, { r with buffer := some t })
    | (.error e, r) => (.error e, r)

def peekKind (kind : TokenKind) (r : CharReader) : Bool × CharReader :=
  match r.atEnd with
  | (true, r) => (false, r)
  | (false, r) =>
    match r.peek with
    | (.ok t, r) => (t.kind == kind, r)
    | (.error _, r) => (false, r)

def next (r : CharReader) : Except SyntaxError Token × CharReader :=
  match r.buffer with
  | some t => (.ok t, { r with buffer := none })
  | none => r.make

/-- Takes the next token, which must be of the given kind. A token of another kind is taken
all the same. -/
def nextKind (expected : TokenKind) (r : CharReader) : Except SyntaxError Token × CharReader :=
  match r.atEnd with
  | (true, r) => (.error (.prematureEnd r.offset), r)
  | (false, r) =>
    match r.peek with
    | (.error e, r) => (.error e, r)
    | (.ok found, r) =>
      match r.next with
      | (.error e, r) => (.error e, r)
      | (.ok t, r) =>
        if found.kind = expected then (.ok t, r)
        else (.error (.unexpectedToken expected found.kind t.text t.region), r)

def setSkipping (skipping : Bool) (r : CharReader) : CharReader :=
  if skipping && r.buffer.any Token.isBlank then { r with skipping, buffer := none }
  else { r with skipping }

def reply (r : CharReader) : Call → Answer × CharReader
  | .atEnd => (.told r.atEnd.1, r.atEnd.2)
  | .peek => (.ofResult r.peek.1, r.peek.2)
  | .peekKind kind => (.told (r.peekKind kind).1, (r.peekKind kind).2)
  | .next => (.ofResult r.next.1, r.next.2)
  | .nextKind kind => (.ofResult (r.nextKind kind).1, (r.nextKind kind).2)
  | .setSkipping b => (.done, r.setSkipping b)

/-! ## The stream that a reader stands for -/

variable {r : CharReader}

/-- What is left for a reader, as a stream of tokens. -/
def stream (r : CharReader) : TokenStream :=
  ⟨r.buffer.toList ++ Token.scanFrom r.cursor.offset r.cursor.ahead, byteLength r.cursor.source,
    r.skipping, r.buffer.isSome⟩

theorem stream_ofSource (source : String) : (ofSource source).stream = .ofSource source := by
  rw [TokenStream.ofSource, utf8ByteSize_eq]
  rfl

@[simp] theorem buffer_skipBlanks : r.skipBlanks.buffer = r.buffer := by
  rw [skipBlanks]
  split <;> rfl

/-- Passing over blanks by the character is passing over them by the token. -/
theorem stream_skipBlanks (hbuffer : r.buffer = none) : r.skipBlanks.stream = r.stream.settle := by
  obtain ⟨c, buffer, skipping⟩ := r
  subst hbuffer
  cases skipping with
  | false => rfl
  | true =>
      have hsplit := List.takeWhile_append_dropWhile (p := Text.isBlank) (l := c.ahead)
      have hblanks : Blanks (c.ahead.takeWhile Text.isBlank) :=
        fun a ha => List.mem_takeWhile_imp ha
      have hdark : StartsDark (c.ahead.dropWhile Text.isBlank) := by
        intro a ha
        have hstop := List.head?_dropWhile_not Text.isBlank c.ahead
        rw [Option.mem_def.1 ha] at hstop
        exact hstop
      have hrest := Token.dropWhile_scanFrom hblanks hdark c.offset
      rw [hsplit] at hrest
      simp [skipBlanks, stream, TokenStream.settle, CharCursor.passWhile_eq, hrest,
        CharCursor.ahead_pass hsplit.symm, CharCursor.source_pass (List.takeWhile_prefix _)]

/-- Making a token is taking the first that is left, if one is. -/
theorem make_cases (hbuffer : r.buffer = none) :
    (r.stream.settle.rest = [] ∧ r.make = (.error (.prematureEnd r.stream.stop), r.skipBlanks)) ∨
    ∃ t behind, r.stream.settle.rest = t :: Token.scanFrom behind.offset behind.ahead ∧
      behind.source = r.skipBlanks.cursor.source ∧
      r.make = (.ok t, { r.skipBlanks with cursor := behind }) := by
  have hsettle := stream_skipBlanks hbuffer
  have hstop : r.stream.stop = byteLength r.skipBlanks.cursor.source := by
    rw [← TokenStream.settle_stop, ← hsettle]
    rfl
  have hnone : r.skipBlanks.buffer = none := by rw [buffer_skipBlanks, hbuffer]
  rw [← hsettle, hstop, make]
  generalize r.skipBlanks = r' at hnone
  obtain ⟨c, buffer, skipping⟩ := r'
  subst hnone
  cases hahead : c.ahead with
  | nil =>
      refine .inl ⟨by simp [stream, hahead, Token.scanFrom], ?_⟩
      simp [CharCursor.lexeme, CharCursor.next, hahead, bind, Except.bind, CharCursor.offset,
        CharCursor.source, byteLength_reverse]
  | cons a rest =>
      right
      have hfront : a :: (Token.lexeme a rest).2 <+: c.ahead := by
        rw [hahead, List.prefix_cons_inj]
        exact Token.prefix_lexeme a rest
      refine ⟨⟨(Token.lexeme a rest).1, String.ofList (a :: (Token.lexeme a rest).2), c.offset⟩,
        c.pass (a :: (Token.lexeme a rest).2), ?_, CharCursor.source_pass hfront, ?_⟩
      · simp only [stream, Option.toList_none, List.nil_append, hahead, Token.scanFrom_cons,
          CharCursor.offset_pass]
        simp [CharCursor.pass, hahead]
      · simp only [CharCursor.lexeme_eq hahead, CharCursor.text_pass hfront]

theorem stream_atEnd (r : CharReader) : r.stream.atEnd = (r.atEnd.1, r.atEnd.2.stream) := by
  cases hbuffer : r.buffer with
  | some t => simp [atEnd, hbuffer, TokenStream.atEnd, TokenStream.settle, stream]
  | none =>
      rw [TokenStream.atEnd, ← stream_skipBlanks hbuffer]
      cases hahead : r.skipBlanks.cursor.ahead with
      | nil => simp [atEnd, hbuffer, stream, hahead, CharCursor.atEnd, Token.scanFrom]
      | cons a rest => simp [atEnd, hbuffer, stream, hahead, CharCursor.atEnd, Token.scanFrom]

theorem stream_next (r : CharReader) : r.stream.next = (r.next.1, r.next.2.stream) := by
  cases hbuffer : r.buffer with
  | some t => simp [next, hbuffer, TokenStream.next, TokenStream.settle, stream]
  | none =>
      rw [next, hbuffer]
      rcases make_cases hbuffer with ⟨hrest, hmake⟩ | ⟨t, behind, hrest, hsource, hmake⟩
      · rw [TokenStream.next_of_nil hrest, hmake, stream_skipBlanks hbuffer]
      · rw [TokenStream.next_of_cons hrest, hmake, ← stream_skipBlanks hbuffer]
        simp [stream, hsource, hbuffer]

theorem stream_peek (r : CharReader) : r.stream.peek = (r.peek.1, r.peek.2.stream) := by
  cases hbuffer : r.buffer with
  | some t => simp [peek, hbuffer, TokenStream.peek, TokenStream.settle, stream]
  | none =>
      have hsettle := stream_skipBlanks hbuffer
      rw [peek, hbuffer]
      rcases make_cases hbuffer with ⟨hrest, hmake⟩ | ⟨t, behind, hrest, hsource, hmake⟩
      · rw [TokenStream.peek_of_nil hrest, hmake, hsettle]
      · rw [TokenStream.peek_of_cons hrest, hmake, ← hsettle]
        rw [← hsettle] at hrest
        simp [stream, hsource, ← hrest, hbuffer]

/-- Asking for the end shows whether a token is left, and moves to it. -/
theorem atEnd_cases (r : CharReader) :
    ∃ r', r'.stream = r.stream.settle ∧
      ((r.stream.settle.rest = [] ∧ r.atEnd = (true, r')) ∨
        ∃ t rest, r.stream.settle.rest = t :: rest ∧ r.atEnd = (false, r')) := by
  have hend := stream_atEnd r
  refine ⟨r.atEnd.2, (congrArg Prod.snd hend).symm, ?_⟩
  cases hrest : r.stream.settle.rest with
  | nil =>
      rw [TokenStream.atEnd_of_nil hrest] at hend
      exact .inl ⟨rfl, Prod.ext (congrArg Prod.fst hend).symm rfl⟩
  | cons t rest =>
      rw [TokenStream.atEnd_of_cons hrest] at hend
      exact .inr ⟨t, rest, rfl, Prod.ext (congrArg Prod.fst hend).symm rfl⟩

theorem exists_peek {t : Token} {rest : List Token} (h : r.stream.settle.rest = t :: rest) :
    ∃ r', r.peek = (.ok t, r') ∧ r'.stream = { r.stream.settle with buffered := true } := by
  have hpeek := stream_peek r
  rw [TokenStream.peek_of_cons h] at hpeek
  obtain ⟨hresult, hstate⟩ := Prod.mk.inj hpeek
  exact ⟨r.peek.2, Prod.ext hresult.symm rfl, hstate.symm⟩

theorem exists_next {t : Token} {rest : List Token} (h : r.stream.settle.rest = t :: rest) :
    ∃ r', r.next = (.ok t, r') ∧
      r'.stream = { r.stream.settle with rest := rest, buffered := false } := by
  have hnext := stream_next r
  rw [TokenStream.next_of_cons h] at hnext
  obtain ⟨hresult, hstate⟩ := Prod.mk.inj hnext
  exact ⟨r.next.2, Prod.ext hresult.symm rfl, hstate.symm⟩

theorem stream_peekKind (kind : TokenKind) (r : CharReader) :
    r.stream.peekKind kind = ((r.peekKind kind).1, (r.peekKind kind).2.stream) := by
  obtain ⟨r₁, hstream, ⟨hrest, hend⟩ | ⟨t, rest, hrest, hend⟩⟩ := atEnd_cases r
  · rw [TokenStream.peekKind, TokenStream.peek_of_nil hrest, peekKind, hend, hstream]
  · have hrest₁ : r₁.stream.settle.rest = t :: rest := by
      rw [hstream, TokenStream.settle_settle, hrest]
    obtain ⟨r₂, hpeek, hstream₂⟩ := exists_peek hrest₁
    rw [TokenStream.peekKind, TokenStream.peek_of_cons hrest, peekKind, hend]
    simp only [hpeek, hstream₂, hstream, TokenStream.settle_settle]

theorem stream_offset (r : CharReader) : r.stream.offset = r.offset := by
  cases hbuffer : r.buffer with
  | some t => simp [offset, hbuffer, TokenStream.offset, stream]
  | none =>
      cases hahead : r.cursor.ahead with
      | nil =>
          simp [offset, hbuffer, TokenStream.offset, stream, hahead, Token.scanFrom,
            CharCursor.offset, CharCursor.source, byteLength_reverse]
      | cons a rest =>
          simp [offset, hbuffer, TokenStream.offset, stream, hahead, Token.scanFrom_cons]

theorem stream_nextKind (kind : TokenKind) (r : CharReader) :
    r.stream.nextKind kind = ((r.nextKind kind).1, (r.nextKind kind).2.stream) := by
  obtain ⟨r₁, hstream, ⟨hrest, hend⟩ | ⟨t, rest, hrest, hend⟩⟩ := atEnd_cases r
  · have hoffset : r₁.offset = r.stream.stop := by
      rw [← stream_offset, hstream, TokenStream.offset, hrest]
      exact TokenStream.settle_stop _
    rw [TokenStream.nextKind, TokenStream.next_of_nil hrest, nextKind, hend]
    simp only [hoffset, hstream]
  · have hrest₁ : r₁.stream.settle.rest = t :: rest := by
      rw [hstream, TokenStream.settle_settle, hrest]
    obtain ⟨r₂, hpeek, hstream₂⟩ := exists_peek hrest₁
    have hrest₂ : r₂.stream.settle.rest = t :: rest := by
      rw [hstream₂, TokenStream.settle_of_buffered rfl, hrest₁]
    obtain ⟨r₃, hnext, hstream₃⟩ := exists_next hrest₂
    have hsame : r₃.stream = { r.stream.settle with rest := rest, buffered := false } := by
      rw [hstream₃, hstream₂, TokenStream.settle_of_buffered rfl, hstream,
        TokenStream.settle_settle]
    rw [TokenStream.nextKind, TokenStream.next_of_cons hrest, nextKind, hend]
    simp only [hpeek, hnext]
    split
    · rw [hsame]
    · rw [hsame]

theorem stream_setSkipping (b : Bool) (r : CharReader) :
    r.stream.setSkipping b = (r.setSkipping b).stream := by
  obtain ⟨c, buffer, skipping⟩ := r
  cases buffer with
  | none =>
      rw [TokenStream.setSkipping]
      split
      · simp [setSkipping, stream]
      · simp [setSkipping, stream]
  | some t =>
      by_cases hblank : (b && t.isBlank) = true
      · simp [setSkipping, TokenStream.setSkipping, stream, hblank]
      · simp [setSkipping, TokenStream.setSkipping, stream, hblank]

/-- Whatever is asked, the stream answers what the reader answers. -/
theorem stream_reply (r : CharReader) (call : Call) :
    r.stream.reply call = ((r.reply call).1, (r.reply call).2.stream) := by
  cases call with
  | atEnd => simp only [TokenStream.reply, reply, stream_atEnd]
  | peek => simp only [TokenStream.reply, reply, stream_peek]
  | peekKind kind => simp only [TokenStream.reply, reply, stream_peekKind]
  | next => simp only [TokenStream.reply, reply, stream_next]
  | nextKind kind => simp only [TokenStream.reply, reply, stream_nextKind]
  | setSkipping b => simp only [TokenStream.reply, reply, stream_setSkipping]

theorem transcript_ofSource (source : String) (calls : List Call) :
    transcript TokenStream.reply (.ofSource source) calls =
      transcript reply (ofSource source) calls := by
  rw [← stream_ofSource, transcript_map stream_reply]

end CharReader

end Lindenmayer
