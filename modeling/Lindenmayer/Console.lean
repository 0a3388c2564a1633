import Lindenmayer.CommandLine

/-!
# Runs of the command line

What a run of the command line leaves behind, as a value: the files of the directory that
it ran in and all that it printed. `Console.perform` says what each action does to them, so
that a statement about a whole run needs no outside world.

A path is followed one name at a time. The directory that the command runs in is all there
is, but for the standard devices: no path leads above it.
-/

namespace Lindenmayer

/-- A directory with what was typed to and printed by a command that runs in it. -/
structure Console where
  /-- Contents by the names that lead to them, the files written last in front. A directory
  is there if a file is in it. -/
  files : List (List String × String)
  input : String
  output : String
  complaints : String
  deriving Repr

inductive Device where
  | null
  | input
  | output
  | complaints
  deriving DecidableEq, Repr

namespace Device

def at? (path : String) : Option Device :=
  if path = "/dev/null" then some null
  else if path = "/dev/stdin" then some input
  else if path = "/dev/stdout" then some output
  else if path = "/dev/stderr" then some complaints
  else none

end Device

namespace Console

/-- Whether a name is one that says where to stay rather than where to go. -/
def isIdle (name : String) : Bool := name = "" || name = "."

def parts (path : String) : List String := (path.toList.splitOn '/').map String.ofList

def put (c : Console) (file : List String) (text : String) : Console :=
  { c with files := (file, text) :: c.files.filter fun f => f.1 != file }

/-- A directory of files, with something to read for a command that runs in it. -/
def ofFiles (files : List (String × String)) (input : String) : Console :=
  files.foldl (fun c (path, text) => c.put ((parts path).filter (!isIdle ·)) text)
    ⟨[], input, "", ""⟩

def isDirectory (c : Console) (names : List String) : Bool :=
  names.isEmpty || c.files.any fun f => names.isPrefixOf f.1 && names != f.1

/-- The names that the parts of a path lead to from `here`. Only in a directory is there a
next part to follow, and no name is longer than 255 bytes. -/
def follow (c : Console) (here : List String) : List String → Option (List String)
  | [] => some here
  | name :: more =>
    if !c.isDirectory here || name.utf8ByteSize > 255 then none
    else if isIdle name then c.follow here more
    else if name = ".." then
      if here.isEmpty then none else c.follow here.dropLast more
    else c.follow (here ++ [name]) more

/-- The names that a path leads to. A path starts with one and is shorter than 4096 bytes. -/
def locate (c : Console) (path : String) : Option (List String) :=
  if path.toList.head?.all (· == '/') || path.utf8ByteSize ≥ 4096 then none
  else c.follow [] (parts path)

def file? (c : Console) (path : String) : Option String :=
  match Device.at? path with
  | some .null => some ""
  | some .input => some c.input
  | some _ => none
  | none => (c.locate path).bind fun file => c.files.lookup file

/-- Writes a file. There has to be a directory for it, and it cannot take the place of one. -/
def write (c : Console) (path text : String) : Option Console :=
  match Device.at? path with
  | some .null => some c
  | some .input => none
  | some .output => some { c with output := c.output ++ text }
  | some .complaints => some { c with complaints := c.complaints ++ text }
  | none =>
    (c.locate path).bind fun file =>
      if c.isDirectory file then none else some (c.put file text)

/-- Carries out actions up to the first that fails; the number is the exit status. -/
def perform (c : Console) : List Action → Nat × Console
  | [] => (0, c)
  | .print text :: more => { c with output := c.output ++ text }.perform more
  | .complain text :: more => { c with complaints := c.complaints ++ text }.perform more
  | .write path text :: more =>
    match c.write path text with
    | some c => c.perform more
    | none => (1, c)
  | .fail :: _ => (1, c)

def run (c : Console) (arguments : List String) (entropy : UInt64) : Nat × Console :=
  match Options.unset.read arguments with
  | none => (1, c)
  | some o =>
    match o.source.elim (some c.input) c.file? with
    | none => (1, c)
    | some source => c.perform (CommandLine.actions o entropy source)

end Console

end Lindenmayer
