import Lindenmayer.Program.Interpreter
import Lindenmayer.Program.Validation
import Lindenmayer.Rewriting.System
import Lindenmayer.Word.Reading

/-!
# From programs to systems

A program that passes validation is run, and then its variables and rules are put together
to a system: the axiom read as a word, the number of generations, every rule of the
program, and the variables of the global scope as the values of placeholders. Rules inside
blocks count like any others, each at its place in the text.

A rule of a program matches by literal. Its pattern is read as a word, so that it is held
against letters as they come out of reading, and must be exactly one letter.
-/

namespace Lindenmayer

inductive BuildError where
  | validation (findings : List Finding)
  | run (cause : RunError)
  /-- The axiom is no word. -/
  | initiator (cause : WordError)
  | rule (region : Region) (cause : WordError)
  | system (cause : WordError)
  deriving Repr

namespace BuildError

def message : BuildError → String
  | validation _ => "validation failed"
  | run _ => "running the program failed"
  | initiator _ => "invalid axiom"
  | rule _ _ => "invalid rule"
  | system _ => "invalid L-system"

def causes : BuildError → List String
  | validation findings => [Finding.refusal findings]
  | run cause => cause.message :: cause.causes
  | initiator cause | rule _ cause | system cause => [cause.message]

def region? : BuildError → Option Region
  | rule region _ => some region
  | _ => none

def report (e : BuildError) (d : Draft) : Draft :=
  match e with
  | validation findings => Finding.reportAll findings d
  | run cause => cause.report d
  | initiator cause => cause.report (d.addLead e.message)
  | rule region cause => cause.report ((d.addCause region).addLead e.message)
  | system cause => cause.report (d.addLead e.message)

end BuildError

namespace SimpleRule

def ofDefinition (name : Option String) (expected replacement : String) :
    Except WordError SimpleRule :=
  match Word.read expected with
  | .error e => .error e
  | .ok [letter] =>
    match Word.read replacement with
    | .error e => .error e
    | .ok replacement => .ok ⟨name, .literal letter.literal, replacement⟩
  | .ok letters => .error (.multiLetterPattern expected letters.length)

end SimpleRule

namespace Tree

/-- The nodes of all rules, in document order. -/
def ruleNodes (t : Tree) : List NodeId :=
  t.find fun | .rule _ _ _ => true | _ => false

/-- The rule that a node defines, if it defines one. -/
def ruleOf (t : Tree) (n : NodeId) : Option (Except BuildError SimpleRule) :=
  match t.kind n with
  | .rule name expected replacement =>
    some (match SimpleRule.ofDefinition name expected replacement with
      | .ok rule => .ok rule
      | .error cause => .error (.rule (t.region n) cause))
  | _ => none

/-- The results of a list of steps, up to the first that failed. -/
def collect {ε α : Type} : List (Except ε α) → Except ε (List α)
  | [] => .ok []
  | .error e :: _ => .error e
  | .ok a :: more =>
    match collect more with
    | .ok rest => .ok (a :: rest)
    | .error e => .error e

/-- All rules of a program, in document order. -/
def rules (t : Tree) : Except BuildError (List SimpleRule) :=
  collect (t.ruleNodes.filterMap t.ruleOf)

end Tree

namespace Parameters

/-- Placeholders that stand for variables, whichever letter they belong to. -/
def ofValues (values : List (String × Value)) : Parameters :=
  fun _ name => (values.lookup name).map Value.text

end Parameters

namespace Tree

/-- The system of a program that was run. -/
def assemble (t : Tree) (v : Variables) : Except BuildError System :=
  match v.globalString t axiomName with
  | .error cause => .error (.run cause)
  | .ok text =>
    match Word.read text with
    | .error cause => .error (.initiator cause)
    | .ok initiator =>
      match v.globalInteger t recursionCountName with
      | .error cause => .error (.run cause)
      | .ok count =>
        if count.toInt < 1 then .error (.system (.invalidRecursionCount count))
        else
          match t.rules with
          | .error e => .error e
          | .ok rules =>
            .ok { System.new initiator count.toInt.toNat with
              rules := rules.map .simple
              parameters := .ofValues (v.globals t) }

/-- The system of a program, and the tree with what the run wrote into its scopes. -/
def build (t : Tree) : Except BuildError System × Tree :=
  match t.validate with
  | [] =>
    match Variables.empty.run t with
    | (.error cause, _, t) => (.error (.run cause), t)
    | (.ok (), v, t) => (t.assemble v, t)
  | findings => (.error (.validation findings), t)

end Tree

end Lindenmayer
