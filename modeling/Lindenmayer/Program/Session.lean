import Lindenmayer.Program.Build
import Lindenmayer.Report.Rendering
import Lindenmayer.Tree.Planting
import Lindenmayer.Tree.Printer

/-!
# Sessions

A session remembers every source text that was loaded, so that whatever goes wrong later can
be shown with the lines it comes from. A program remembers which of the texts is its own.
Building and running leave a program as it was; they work on a tree of their own.
-/

namespace Lindenmayer

structure Session where
  files : CodeMap
  deriving Repr

structure Program where
  span : Span
  tree : Tree
  deriving Repr

/-- Which stage of a program's life failed, and why. -/
inductive ProgramFault where
  | reading (cause : SyntaxError)
  | validation (findings : List Finding)
  | build (cause : BuildError)
  | rewriting (cause : WordError)
  deriving Repr

/-- A fault with the file that it is in. -/
structure ProgramError where
  file : Span
  fault : ProgramFault
  deriving Repr

namespace ProgramError

def message (e : ProgramError) : String :=
  match e.fault with
  | .reading _ => "syntax error"
  | .validation _ => "validation error"
  | .build _ => "could not create the L-system"
  | .rewriting _ => "could not rewrite the L-system"

def causes (e : ProgramError) : List String :=
  match e.fault with
  | .reading cause => [cause.message]
  | .validation findings => [Finding.refusal findings]
  | .build cause => cause.message :: cause.causes
  | .rewriting cause => [cause.message]

/-- Where in its file the error was found. -/
def region? (e : ProgramError) : Option Region :=
  match e.fault with
  | .reading cause => cause.region?
  | .build cause => cause.region?
  | _ => none

/-- Adds the error to a draft, with labels in its file. -/
def report (e : ProgramError) (d : Draft) : Draft :=
  let d := d.setFile e.file
  match e.fault with
  | .reading cause => cause.report d
  | .validation findings => Finding.reportAll findings d
  | .build cause => cause.report d
  | .rewriting cause => cause.report d

def diagnostics (e : ProgramError) : List Diagnostic := (e.report .empty).finished

end ProgramError

namespace Session

def empty : Session := ⟨.empty⟩

/-- Reads a source text. The session remembers it, readable or not. -/
def load (s : Session) (name : FileName) (source : String) :
    Except ProgramError Program × Session :=
  let (span, files) := s.files.add name source
  match Tree.ofSource source with
  | .ok tree => (.ok ⟨span, tree⟩, ⟨files⟩)
  | .error cause => (.error ⟨span, .reading cause⟩, ⟨files⟩)

def render (s : Session) (e : ProgramError) : String := Report.render s.files e.diagnostics

end Session

namespace Program

def validate (p : Program) : Except ProgramError Unit :=
  match p.tree.validate with
  | [] => .ok ()
  | findings => .error ⟨p.span, .validation findings⟩

def compile (p : Program) : Except ProgramError System :=
  match p.tree.build.1 with
  | .ok system => .ok system
  | .error cause => .error ⟨p.span, .build cause⟩

/-- The system that a program describes, grown as far as it says. -/
def run {σ : Type} (draw : σ → Float × σ) (p : Program) (source : σ) :
    Except ProgramError System × σ :=
  match p.compile with
  | .error e => (.error e, source)
  | .ok system =>
    match system.grow draw source with
    | (.ok (), system, source) => (.ok system, source)
    | (.error cause, _, source) => (.error ⟨p.span, .rewriting cause⟩, source)

/-- The state of a system of the program, with its placeholders filled in. -/
def resolve (p : Program) (system : System) : Except ProgramError String :=
  match system.resolvedState with
  | .ok text => .ok text
  | .error cause => .error ⟨p.span, .rewriting cause⟩

def print (p : Program) : String := p.tree.print Tree.root

end Program

end Lindenmayer
