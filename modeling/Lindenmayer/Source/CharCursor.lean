import Lindenmayer.Source.SyntaxError

/-!
# A cursor over characters

The plainest way to go through a source text: one character at a time, with a step back
allowed as long as there is something to step back over.
-/

namespace Lindenmayer

open Lindenmayer.Text

structure CharCursor where
  /-- The characters passed, the last of them first. -/
  passed : List Char
  /-- The characters that are left. -/
  ahead : List Char
  deriving DecidableEq, Repr

namespace CharCursor

def ofSource (source : String) : CharCursor := ⟨[], source.toList⟩

/-- The whole text, wherever the cursor stands in it. -/
def source (c : CharCursor) : List Char := c.passed.reverse ++ c.ahead

def atEnd (c : CharCursor) : Bool := c.ahead.isEmpty

/-- The number of bytes passed. -/
def offset (c : CharCursor) : Nat := byteLength c.passed

def peek (c : CharCursor) : Except SyntaxError Char :=
  match c.ahead with
  | [] => .error (.prematureEnd c.offset)
  | a :: _ => .ok a

def next (c : CharCursor) : Except SyntaxError (Char × CharCursor) :=
  match c.ahead with
  | [] => .error (.prematureEnd c.offset)
  | a :: ahead => .ok (a, ⟨a :: c.passed, ahead⟩)

/-- Undoes one `next`. -/
def pushBack (c : CharCursor) : Except SyntaxError CharCursor :=
  match c.passed with
  | [] => .error .pushBackAtStart
  | a :: passed => .ok ⟨passed, a :: c.ahead⟩

def text (c : CharCursor) (start stop : Nat) : String :=
  String.ofList (sliceBytes start stop c.source)

/-- Moving the cursor does not change what it moves over. -/
theorem source_next {c d : CharCursor} {a : Char} (h : c.next = .ok (a, d)) :
    d.source = c.source := by
  unfold next at h
  split at h
  · cases h
  · next b ahead hb =>
    cases h
    simp [source, hb]

theorem pushBack_next {c d : CharCursor} {a : Char} (h : c.next = .ok (a, d)) :
    d.pushBack = .ok c := by
  unfold next at h
  split at h
  · cases h
  · next b ahead hb =>
    cases h
    cases c
    simp_all [pushBack]

end CharCursor

end Lindenmayer
