import Lindenmayer.Text.Bytes
import Lindenmayer.Word.Basic
import Lindenmayer.Word.Error

/-!
# Reading words

A word is read letter by letter, and blanks between letters mean nothing. Each character of
the turtle's is a letter by itself; a run of others is one letter. Where a letter may have
parameters, an opening parenthesis right behind it starts a list of them, separated by
commas. Blanks inside the list are dropped, and so is an empty parameter at its end. A
comma with nothing in front of it separates nothing: it is the first character of the
parameter that follows.
-/

namespace Lindenmayer

open Lindenmayer.Text

namespace Word

/-- The parameters up to the closing parenthesis and the text behind it. `current` is what was
read of the parameter at hand. -/
def readParameters (current : List Char) : List Char → Option (List String × List Char)
  | [] => none
  | ')' :: cs => some (if current.isEmpty then [] else [String.ofList current], cs)
  | c :: cs =>
    if c = ',' ∧ current ≠ [] then
      (readParameters [] cs).map fun (parameters, rest) =>
        (String.ofList current :: parameters, rest)
    else if isBlank c then readParameters current cs
    else readParameters (current ++ [c]) cs

theorem length_readParameters {current cs rest : List Char} {parameters : List String}
    (h : readParameters current cs = some (parameters, rest)) : rest.length < cs.length := by
  fun_induction readParameters current cs generalizing parameters rest with
  | case1 => cases h
  | case2 => cases h; simp
  | case3 current c cs _ _ ih =>
    obtain ⟨⟨parameters', rest'⟩, hr, heq⟩ := Option.map_eq_some_iff.1 h
    cases heq
    have := ih hr
    simp only [List.length_cons]; omega
  | case4 current c cs _ _ _ ih => have := ih h; simp only [List.length_cons]; omega
  | case5 current c cs _ _ _ ih => have := ih h; simp only [List.length_cons]; omega

/-- Whether a character goes on a run of characters that mean nothing to the turtle. -/
def continuesRun (c : Char) : Bool := !isBlank c && LetterKind.ofChar c == .characters

inductive Following where
  | bare
  /-- A list that is never closed. -/
  | unclosed
  /-- Parameters, and the text behind them. -/
  | list (parameters : List String) (rest : List Char)

/-- Reads the parameters of a letter that has just been read. -/
def following (kind : LetterKind) (cs : List Char) : Following :=
  if kind.maxParameters = 0 then .bare
  else
    match cs with
    | '(' :: inner =>
      match readParameters [] inner with
      | some (parameters, rest) => .list parameters rest
      | none => .unclosed
    | _ => .bare

theorem length_following {kind : LetterKind} {cs rest : List Char} {parameters : List String}
    (h : following kind cs = .list parameters rest) : rest.length < cs.length := by
  unfold following at h
  split at h
  · cases h
  · split at h
    · split at h
      · next hr =>
        cases h
        have := length_readParameters hr
        simp only [List.length_cons]; omega
      · cases h
    · cases h

/-- Reads the rest of a text of `stop` bytes. -/
def readFrom (stop : Nat) (cs : List Char) : Except WordError Word :=
  match cs with
  | [] => .ok []
  | c :: cs =>
    if isBlank c then readFrom stop cs
    else
      let kind := LetterKind.ofChar c
      if kind = .characters then
        have := (List.dropWhile_suffix (l := cs) continuesRun).length_le
        match readFrom stop (cs.dropWhile continuesRun) with
        | .ok more => .ok (⟨kind, String.ofList (c :: cs.takeWhile continuesRun), []⟩ :: more)
        | .error e => .error e
      else
        match hf : following kind cs with
        | .bare =>
          match readFrom stop cs with
          | .ok more => .ok (⟨kind, String.ofList [c], []⟩ :: more)
          | .error e => .error e
        | .unclosed => .error (.missingClosingParenthesis (stop - byteLength (c :: cs)))
        | .list parameters rest =>
          have := length_following hf
          if kind.maxParameters < parameters.length then
            .error (.tooManyParameters (stop - byteLength (c :: cs)) parameters.length
              kind.maxParameters)
          else
            match readFrom stop rest with
            | .ok more => .ok (⟨kind, String.ofList [c], parameters⟩ :: more)
            | .error e => .error e
termination_by cs.length

def read (text : String) : Except WordError Word := readFrom text.utf8ByteSize text.toList

end Word

end Lindenmayer
