import Lindenmayer.Decimal.Reading
import Lindenmayer.Word.Basic
import Lindenmayer.Word.Error

/-!
# Placeholders

A parameter may leave a gap for a value that is filled in when a word is drawn: a dollar
sign and a name in curly braces. A name goes to the first closing brace and does not go
over a line feed; what does not come to an end like that is no placeholder but text. What
is filled in is not looked at again.
-/

namespace Lindenmayer

/-- Where placeholders get their values: given the letter they belong to and their name, the
text to fill in. -/
abbrev Parameters := Letter → String → Option String

inductive Piece where
  | char (c : Char)
  | placeholder (name : List Char)
  deriving DecidableEq, Repr

namespace Piece

/-- The name of a placeholder, given the text behind its opening brace, and the text behind its
closing one. -/
def readName : List Char → Option (List Char × List Char)
  | [] => none
  | '}' :: cs => some ([], cs)
  | '\n' :: _ => none
  | c :: cs => (readName cs).map fun (name, rest) => (c :: name, rest)

theorem length_readName {cs name rest : List Char} (h : readName cs = some (name, rest)) :
    rest.length < cs.length := by
  fun_induction readName cs generalizing name rest with
  | case1 => cases h
  | case2 => cases h; simp
  | case3 => cases h
  | case4 c cs _ _ ih =>
    obtain ⟨⟨name', rest'⟩, hr, heq⟩ := Option.map_eq_some_iff.1 h
    cases heq
    have := ih hr
    simp only [List.length_cons]; omega

/-- The pieces of a text, from left to right. -/
def split (cs : List Char) : List Piece :=
  match cs with
  | [] => []
  | '$' :: '{' :: cs =>
    match h : readName cs with
    | some (name, rest) =>
      have := length_readName h
      .placeholder name :: split rest
    | none => .char '$' :: split ('{' :: cs)
  | c :: cs => .char c :: split cs
termination_by cs.length

def chars : Piece → List Char
  | char c => [c]
  | placeholder name => '$' :: '{' :: name ++ ['}']

/-- Pieces with every placeholder filled in. The first that has no value is an error. -/
def fill (value : String → Option String) : List Piece → Except WordError (List Char)
  | [] => .ok []
  | char c :: more =>
    match fill value more with
    | .ok rest => .ok (c :: rest)
    | .error e => .error e
  | placeholder name :: more =>
    match value (String.ofList name) with
    | none => .error (.unresolvedPlaceholder (String.ofList name))
    | some text =>
      match fill value more with
      | .ok rest => .ok (text.toList ++ rest)
      | .error e => .error e

end Piece

namespace Parameters

def empty : Parameters := fun _ _ => none

end Parameters

namespace Letter

/-- A parameter of a letter with its placeholders filled in. -/
def substitute (l : Letter) (values : Parameters) (raw : String) : Except WordError String :=
  match Piece.fill (values l) (Piece.split raw.toList) with
  | .ok cs => .ok (String.ofList cs)
  | .error e => .error e

def parameter (l : Letter) (index : Nat) (values : Parameters) : Except WordError String :=
  match l.parameters[index]? with
  | some raw => l.substitute values raw
  | none => .error (.missingParameter l.text index)

/-- A parameter as a number, read by `read` with no regard to blanks around it. -/
def numericParameter {α : Type} (read : String → Option α) (l : Letter) (index : Nat)
    (values : Parameters) : Except WordError α :=
  match l.parameter index values with
  | .error e => .error e
  | .ok value =>
    match read (String.ofList (Text.trim value.toList)) with
    | some n => .ok n
    | none => .error (.badParameter value)

def integerParameter : Letter → Nat → Parameters → Except WordError Int64 :=
  numericParameter Numeral.readInt64

def floatParameter : Letter → Nat → Parameters → Except WordError Float :=
  numericParameter Numeral.readFloat

def substituteAll (l : Letter) (values : Parameters) :
    List String → Except WordError (List String)
  | [] => .ok []
  | raw :: more =>
    match l.substitute values raw with
    | .error e => .error e
    | .ok first =>
      match l.substituteAll values more with
      | .ok rest => .ok (first :: rest)
      | .error e => .error e

/-- A letter as it is written, with its placeholders filled in. -/
def resolve (l : Letter) (values : Parameters) : Except WordError (List Char) :=
  match l.substituteAll values l.parameters with
  | .ok parameters => .ok (withParameters l.literal.toList parameters)
  | .error e => .error e

end Letter

namespace Word

/-- The characters of a word with all placeholders filled in. -/
def resolveChars (values : Parameters) : Word → Except WordError (List Char)
  | [] => .ok []
  | l :: more =>
    match l.resolve values with
    | .error e => .error e
    | .ok first =>
      match resolveChars values more with
      | .ok rest => .ok (first ++ rest)
      | .error e => .error e

/-- A word as it is written, with all placeholders filled in. -/
def resolve (w : Word) (values : Parameters) : Except WordError String :=
  match resolveChars values w with
  | .ok cs => .ok (String.ofList cs)
  | .error e => .error e

end Word

end Lindenmayer
