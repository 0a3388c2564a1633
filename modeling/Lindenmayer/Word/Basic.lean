import Lindenmayer.Text.Blank

/-!
# Words

The state of a Lindenmayer system is a word. Eleven of its letters mean something to the
turtle that draws it, and those are told apart by their kind; every other letter is just
characters for the rules to work on. A letter of the turtle's may carry parameters, as
text.
-/

namespace Lindenmayer

open Lindenmayer.Text

/-- What a letter tells the turtle. -/
inductive LetterKind where
  | pushState
  | popState
  | colorGreen
  | colorBlue
  | colorRed
  | drawCircle
  | drawFilledCircle
  | forward
  | forwardNoDraw
  | rotateLeft
  | rotateRight
  /-- Nothing. -/
  | characters
  deriving DecidableEq, Repr, Inhabited

/-- A letter with its parameters. -/
structure Letter where
  kind : LetterKind
  literal : String
  parameters : List String
  deriving DecidableEq, Repr, Inhabited

abbrev Word := List Letter

namespace LetterKind

/-- All kinds, the one of mere characters last. -/
def all : List LetterKind :=
  [pushState, popState, colorGreen, colorBlue, colorRed, drawCircle, drawFilledCircle,
    forward, forwardNoDraw, rotateLeft, rotateRight, characters]

def ofChar (c : Char) : LetterKind :=
  match c with
  | '[' => pushState
  | ']' => popState
  | 'g' => colorGreen
  | 'b' => colorBlue
  | 'r' => colorRed
  | 'c' => drawCircle
  | 'C' => drawFilledCircle
  | 'F' => forward
  | 'f' => forwardNoDraw
  | '+' => rotateLeft
  | '-' => rotateRight
  | _ => characters

/-- How many parameters a letter may have: one where there is a distance, an angle or a
radius. -/
def maxParameters : LetterKind → Nat
  | forward | forwardNoDraw | rotateLeft | rotateRight | drawCircle | drawFilledCircle => 1
  | _ => 0

def name : LetterKind → String
  | pushState => "PushState"
  | popState => "PopState"
  | colorGreen => "ColorGreen"
  | colorBlue => "ColorBlue"
  | colorRed => "ColorRed"
  | drawCircle => "DrawCircle"
  | drawFilledCircle => "DrawFilledCircle"
  | forward => "Forward"
  | forwardNoDraw => "ForwardNoDraw"
  | rotateLeft => "RotateLeft"
  | rotateRight => "RotateRight"
  | characters => "Characters"

end LetterKind

namespace Letter

/-- A literal with a list of parameters behind it, if there are any. -/
def withParameters (literal : List Char) (parameters : List String) : List Char :=
  if parameters.isEmpty then literal
  else literal ++ '(' :: (",".intercalate parameters).toList ++ [')']

def chars (l : Letter) : List Char := withParameters l.literal.toList l.parameters

def text (l : Letter) : String := String.ofList l.chars

end Letter

namespace Word

def chars (w : Word) : List Char := w.flatMap Letter.chars

def text (w : Word) : String := String.ofList (chars w)

end Word

end Lindenmayer
