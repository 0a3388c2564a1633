import Lindenmayer.Text.Unprintable

/-!
# Quoted text

A description of a node or a rule shows a string between double quotes. The quote and the
backslash are escaped, so the end of the string is never in doubt; characters that a
reader could not see are written by code point.
-/

namespace Lindenmayer.Text

def quotedChar (c : Char) : List Char :=
  match c with
  | '\x00' => ['\\', '0']
  | '\t' => ['\\', 't']
  | '\r' => ['\\', 'r']
  | '\n' => ['\\', 'n']
  | '\\' => ['\\', '\\']
  | '"' => ['\\', '"']
  | c =>
    if isUnprintable c then ['\\', 'u', '{'] ++ Nat.toDigits 16 c.toNat ++ ['}']
    else [c]

def quoted (s : String) : String :=
  String.ofList ('"' :: s.toList.flatMap quotedChar ++ ['"'])

example : quoted "a\"\t\\" = "\"a\\\"\\t\\\\\"" := by decide +kernel

example : quoted "\u2028" = "\"\\u\x7b2028\x7d\"" := by decide +kernel

end Lindenmayer.Text
