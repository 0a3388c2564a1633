import Lindenmayer.Region

/-!
# Diagnostics

A diagnostic is a message with a severity and labels that point into source files. It is
drafted in two stages, because the layer that knows where a fault lies is seldom the layer
that words it: labels and leading messages gather in a `Draft`, and the next diagnostic
added to the draft takes them along. Labels are spent by that; leading messages stay in
front of every later diagnostic of the same draft.
-/

namespace Lindenmayer

inductive Severity where
  | bug
  | error
  | warning
  | note
  | help
  deriving DecidableEq, Repr

/-- Whether a label shows the cause of a diagnostic or something related to it. -/
inductive LabelStyle where
  | primary
  | secondary
  deriving DecidableEq, Repr

structure Span where
  start : Nat
  stop : Nat
  deriving DecidableEq, Repr

/-- A mark on a span, with something to say about it if there is a message. -/
structure Label where
  span : Span
  style : LabelStyle
  message : Option String
  deriving DecidableEq, Repr

structure Diagnostic where
  severity : Severity
  code : Option String
  message : String
  labels : List Label
  deriving DecidableEq, Repr

namespace Span

/-- An offset as a signed word of 64 bits, so that one of half the range or more counts
back from the start of its file. -/
def signedOffset (offset : Nat) : Int :=
  let word : Int := offset % 0x10000000000000000
  if word < 0x8000000000000000 then word else word - 0x10000000000000000

/-- The position `offset` bytes from `start`. Positions are words of 32 bits. -/
def position (start : Nat) (offset : Int) : Nat :=
  ((start + offset) % 0x100000000).toNat

/-- The part of a file that a region of its text covers. A region that reaches past the end
of the file is cut off there. -/
def ofRegion (file : Span) (region : Region) : Span :=
  let length : Int := (file.stop - file.start : Nat)
  let start := min (signedOffset region.start) length
  let stop := max (min (signedOffset region.stop) length) start
  ⟨position file.start start, position file.start stop⟩

theorem signedOffset_of_lt {offset : Nat} (h : offset < 0x8000000000000000) :
    signedOffset offset = offset := by
  have word : (offset : Int) % 0x10000000000000000 = offset := by omega
  have low : (offset : Int) < 0x8000000000000000 := by omega
  unfold signedOffset
  simp only [word, low, if_true]

theorem position_of_lt {start offset : Nat} (h : start + offset < 0x100000000) :
    position start offset = start + offset := by
  simp only [position]; omega

/-- Among sizes that occur, no word overflows. -/
theorem ofRegion_eq {file : Span} {region : Region} (ordered : file.start ≤ file.stop)
    (small : file.stop < 0x100000000) (short : region.stop < 0x8000000000000000) :
    file.ofRegion region =
      ⟨file.start + min region.start (file.stop - file.start),
        file.start + min region.stop (file.stop - file.start)⟩ := by
  have le : region.start ≤ region.stop := Nat.le_add_right _ _
  have start : min (signedOffset region.start) (file.stop - file.start : Nat) =
      (min region.start (file.stop - file.start) : Nat) := by
    rw [signedOffset_of_lt (by omega)]; omega
  have stop : max (min (signedOffset region.stop) (file.stop - file.start : Nat))
      (min region.start (file.stop - file.start) : Nat) =
      (min region.stop (file.stop - file.start) : Nat) := by
    rw [signedOffset_of_lt short]; omega
  simp only [ofRegion, start, stop]
  rw [position_of_lt (by omega), position_of_lt (by omega)]

end Span

structure Draft where
  /-- The file that regions refer to, once one is set. -/
  file : Option Span
  /-- What is put in front of every diagnostic from here on. -/
  lead : Option String
  /-- The labels that wait for the next diagnostic. -/
  labels : List Label
  /-- The diagnostics so far. -/
  finished : List Diagnostic
  deriving DecidableEq, Repr

namespace Draft

def empty : Draft := ⟨none, none, [], []⟩

/-- Lets regions refer to `file` from here on. -/
def setFile (d : Draft) (file : Span) : Draft := { d with file := some file }

def addLabel (d : Draft) (label : Label) : Draft := { d with labels := d.labels ++ [label] }

/-- Labels a region of the current file. Without a file there is nothing to point into, and
nothing changes. -/
def addRegion (d : Draft) (region : Region) (style : LabelStyle)
    (message : Option String) : Draft :=
  match d.file with
  | none => d
  | some file => d.addLabel ⟨file.ofRegion region, style, message⟩

def addCause (d : Draft) (region : Region) : Draft := d.addRegion region .primary none

/-- `message` behind what leads it, if anything does. -/
def led (d : Draft) (message : String) : String :=
  match d.lead with
  | none => message
  | some lead => lead ++ ": " ++ message

/-- Puts `message` in front of every later diagnostic, behind what is there already. -/
def addLead (d : Draft) (message : String) : Draft := { d with lead := some (d.led message) }

/-- Finishes a diagnostic with the labels that waited for it. -/
def add (d : Draft) (severity : Severity) (code : Option String) (message : String) :
    Draft :=
  { d with
    labels := []
    finished := d.finished ++ [⟨severity, code, d.led message, d.labels⟩] }

@[simp] theorem finished_add (d : Draft) (severity : Severity) (code : Option String)
    (message : String) :
    (d.add severity code message).finished =
      d.finished ++ [⟨severity, code, d.led message, d.labels⟩] := rfl

@[simp] theorem labels_add (d : Draft) (severity : Severity) (code : Option String)
    (message : String) : (d.add severity code message).labels = [] := rfl

end Draft

end Lindenmayer
