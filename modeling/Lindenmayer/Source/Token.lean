import Lindenmayer.Region
import Lindenmayer.Text.Blank
import Lindenmayer.Text.Bytes

/-!
# Tokens of source text

A source text is a sequence of tokens with nothing between them: blanks and line ends are
tokens too, so the texts of all tokens put together are the source again. Which token comes
next is settled by its first character, and by as many of the following as can belong to
it. A reader that has no use for blanks leaves them out; see `TokenStream`.
-/

namespace Lindenmayer

open Lindenmayer.Text

inductive TokenKind where
  | quote
  | colon
  | assignment
  | parensOpen
  | parensClose
  | curlyOpen
  | curlyClose
  | arrow
  | dot
  | operator
  | number
  /-- A run of ASCII letters, digits and underscores that is no keyword. -/
  | identifier
  /-- Any other run up to a blank or a delimiter. -/
  | unparsed
  | ruleWord
  | mapWord
  | setWord
  | whitespace
  /-- A line feed, a carriage return, or both. -/
  | lineEnd
  deriving DecidableEq, Repr, Inhabited

namespace TokenKind

/-- Whether a reader that skips blanks passes over such a token. -/
def isBlank : TokenKind → Bool
  | whitespace | lineEnd => true
  | _ => false

def text : TokenKind → String
  | quote => "quote"
  | colon => "`:`"
  | assignment => "`=`"
  | parensOpen => "`(`"
  | parensClose => "`)`"
  | curlyOpen => "`\x7b`"
  | curlyClose => "`\x7d`"
  | arrow => "`->`"
  | dot => "`.`"
  | operator => "operator"
  | number => "number"
  | identifier => "identifier"
  | unparsed => "unparsed text"
  | ruleWord => "`rule`"
  | mapWord => "`map`"
  | setWord => "`set`"
  | whitespace => "whitespace"
  | lineEnd => "end of line"

end TokenKind

/-- A piece of source text with what it is and where it starts. -/
structure Token where
  kind : TokenKind
  text : String
  offset : Nat
  deriving DecidableEq, Repr, Inhabited

namespace Token

def region (t : Token) : Region := ⟨t.offset, t.text.utf8ByteSize⟩

/-- Whether the token is blanks or a line end. -/
def isBlank (t : Token) : Bool := t.kind.isBlank

/-- The characters that are a token by themselves, and so end a run. -/
def isDelimiter (c : Char) : Bool :=
  ['"', '\'', ':', '=', '(', ')', '{', '}', '-', '.', '+', '*', '/'].contains c

/-- Whether `c` may stand in a name. -/
def isNameChar (c : Char) : Bool :=
  ('A' ≤ c && c ≤ 'Z') || ('a' ≤ c && c ≤ 'z') || isDigit c || c == '_'

/-- What a run of characters is. -/
def classify (run : List Char) : TokenKind :=
  if run = ['r', 'u', 'l', 'e'] then .ruleWord
  else if run = ['m', 'a', 'p'] then .mapWord
  else if run = ['s', 'e', 't'] then .setWord
  else if run.all isNameChar then .identifier
  else .unparsed

/-- The digits that go on a number, with a fraction if a digit follows the point. -/
def numberTail (cs : List Char) : List Char :=
  let digits := cs.takeWhile isDigit
  match cs.dropWhile isDigit with
  | '.' :: d :: more =>
    if isDigit d then digits ++ '.' :: d :: more.takeWhile isDigit else digits
  | _ => digits

/-- The kind of the token that starts with `c`, and which characters of those that follow
still belong to it. -/
def lexeme (c : Char) (following : List Char) : TokenKind × List Char :=
  match c with
  | '"' => (.quote, [])
  | '\'' => (.quote, [])
  | ':' => (.colon, [])
  | '=' => (.assignment, [])
  | '(' => (.parensOpen, [])
  | ')' => (.parensClose, [])
  | '{' => (.curlyOpen, [])
  | '}' => (.curlyClose, [])
  | '-' =>
    match following with
    | '>' :: _ => (.arrow, ['>'])
    | _ => (.operator, [])
  | '.' => (.dot, [])
  | '+' => (.operator, [])
  | '*' => (.operator, [])
  | '/' => (.operator, [])
  | '\n' => (.lineEnd, [])
  | '\r' =>
    match following with
    | '\n' :: _ => (.lineEnd, ['\n'])
    | _ => (.lineEnd, [])
  | c =>
    if Text.isBlank c then
      (.whitespace, following.takeWhile fun d => Text.isBlank d && d != '\n' && d != '\r')
    else if isDigit c then (.number, numberTail following)
    else
      let run := following.takeWhile fun d => !Text.isBlank d && !isDelimiter d
      (classify (c :: run), run)

/-- The tokens of a text whose first byte is at `offset`. -/
def scanFrom (offset : Nat) : List Char → List Token
  | [] => []
  | c :: cs =>
    let more := (lexeme c cs).2
    ⟨(lexeme c cs).1, String.ofList (c :: more), offset⟩ ::
      scanFrom (offset + byteLength (c :: more)) (cs.drop more.length)
termination_by cs => cs.length
decreasing_by simp only [List.length_drop, List.length_cons]; omega

def scan (source : String) : List Token := scanFrom 0 source.toList

end Token

end Lindenmayer
