import Lindenmayer.Report.CodeMap
import Lindenmayer.Text.Bytes

/-!
# Rendered diagnostics

A diagnostic is shown as one line with its severity and message, and then, for each label,
the place it starts at, the lines it touches, and a line of marks. The column of the place
counts characters, but the marks below and the blanks before them count bytes. Where a
label reaches over several lines, each is shown, and the marks belong to its part of the
last one.
-/

namespace Lindenmayer

open Lindenmayer.Text (byteLength cutBytes)

namespace Severity

def text : Severity → String
  | bug => "error: internal compiler error"
  | error => "error"
  | warning => "warning"
  | note => "note"
  | help => "help"

end Severity

namespace LabelStyle

def mark : LabelStyle → Char
  | primary => '^'
  | secondary => '-'

end LabelStyle

namespace Report

/-- The pieces of `cs` between its line feeds. -/
def splitLines : List Char → List (List Char)
  | [] => [[]]
  | '\n' :: cs => [] :: splitLines cs
  | c :: cs =>
    match splitLines cs with
    | [] => [[c]]
    | line :: lines => (c :: line) :: lines

/-- `line` without the carriage returns at its end. -/
def trimReturns (line : List Char) : List Char :=
  (line.reverse.dropWhile (· == '\r')).reverse

/-- A text with the number of its line in front. -/
def numbered (line : Nat) (text : List Char) : List Char :=
  (toString line).toList ++ " | ".toList ++ text ++ ['\n']

/-- The lines of a label from the second on. Only the last may go on behind the label. -/
def laterLines (tail : List Char) : Nat → List (List Char) → List Char
  | _, [] => []
  | line, [last] => numbered line (last ++ tail)
  | line, middle :: more => numbered line (trimReturns middle) ++ laterLines tail (line + 1) more

/-- The source lines of a label with its marks below. -/
def excerpt (file : SourceFile) (label : Label) : List Char :=
  let (before, rest) := cutBytes (label.span.start - file.start) file.source.toList
  let (marked, after) := cutBytes (label.span.stop - label.span.start) rest
  let earlier := splitLines before
  let indent := earlier.getLastD []
  let first := earlier.length
  let pieces := splitLines marked
  let last := first + (pieces.length - 1)
  let tail := trimReturns (after.takeWhile (· != '\n'))
  let place := s!"- {file.name.text}:{first}:{indent.length + 1}\n"
  let shown := match pieces with
    | [] => []
    | [only] => numbered first (indent ++ only ++ tail)
    | head :: more => numbered first (indent ++ head) ++ laterLines tail (first + 1) more
  let margin := List.replicate (toString last).length ' ' ++ " | ".toList
  let underline := List.replicate (byteLength indent) ' ' ++
    List.replicate (byteLength (pieces.getLastD [])) label.style.mark
  let comment := match label.message with
    | none => []
    | some message => ' ' :: message.toList
  place.toList ++ shown ++ margin ++ underline ++ comment ++ ['\n']

/-- A label as it is shown, by its message alone where it points into no file. -/
def labelText (files : CodeMap) (label : Label) : List Char :=
  match files.fileAt? label.span.start with
  | some file => excerpt file label
  | none =>
    match label.message with
    | some message => "- ".toList ++ message.toList ++ ['\n']
    | none => []

def diagnosticText (files : CodeMap) (d : Diagnostic) : List Char :=
  let code := match d.code with
    | none => ""
    | some code => s!"[{code}]"
  s!"{d.severity.text}{code}: {d.message}\n".toList ++ d.labels.flatMap (labelText files)

def render (files : CodeMap) (diagnostics : List Diagnostic) : String :=
  String.ofList (diagnostics.flatMap (diagnosticText files))

end Report

end Lindenmayer
