import Lindenmayer.Report.Diagnostic

/-!
# The map of source files

Every byte of every file that a session has seen has one position in the code map, so a
span says by itself which file it lies in. Positions count from one, and a file starts one
past the end of the file before it; that leaves the end of a file to that file alone.
-/

namespace Lindenmayer

/-- Where a source text came from, which settles how its name is shown. -/
inductive FileName where
  /-- A text that is no file, shown in angle brackets. -/
  | described (name : String)
  /-- A file, shown by its path. -/
  | path (path : String)
  deriving DecidableEq, Repr

structure SourceFile where
  name : FileName
  source : String
  start : Nat
  deriving DecidableEq, Repr

structure CodeMap where
  files : List SourceFile
  deriving DecidableEq, Repr

namespace FileName

def text : FileName → String
  | described name => s!"<{name}>"
  | path p => p

end FileName

namespace SourceFile

/-- The positions of the file, its end included as an empty place after the last byte. -/
def span (f : SourceFile) : Span := ⟨f.start, f.start + f.source.utf8ByteSize⟩

end SourceFile

namespace CodeMap

def empty : CodeMap := ⟨[]⟩

/-- The position at which the next file will start. -/
def next (m : CodeMap) : Nat :=
  match m.files.getLast? with
  | none => 1
  | some file => file.span.stop + 1

def add (m : CodeMap) (name : FileName) (source : String) : Span × CodeMap :=
  let file : SourceFile := ⟨name, source, m.next⟩
  (file.span, ⟨m.files ++ [file]⟩)

def fileAt? (m : CodeMap) (position : Nat) : Option SourceFile :=
  m.files.find? fun f => f.span.start ≤ position && position ≤ f.span.stop

end CodeMap

end Lindenmayer
