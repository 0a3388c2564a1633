import Lindenmayer.Evaluation.Basic
import Lindenmayer.Program.Assignments

/-!
# Validation

Before a program runs it is checked for what can be known without running it: no variable
is assigned twice at top level, there is an axiom and it can be a string, there is a number
of generations and it can be an integer of at least one, and no two rules share a name.
All problems are found, not just the first.

A value that depends on another variable passes unless its type alone rules it out; the run
will tell.
-/

namespace Lindenmayer

inductive Problem where
  | duplicateAssignment (name : String)
  | missingAxiom
  | missingRecursionCount
  | axiomType (type : ValueType)
  | recursionCountType (type : ValueType)
  | recursionCountTooSmall (count : Int64)
  /-- The value of the axiom or of the number of generations can never be had. -/
  | evaluation (cause : EvalError)
  | duplicateRuleName (name : String)
  deriving DecidableEq, Repr

/-- A problem and where it is. -/
structure Finding where
  problem : Problem
  node : NodeId
  region : Region
  deriving DecidableEq, Repr

/-- What is known of a value before the program runs. -/
inductive StaticValue where
  | value (v : Value)
  | type (t : ValueType)
  | unknown
  deriving Repr

namespace Problem

def message : Problem → String
  | duplicateAssignment name => s!"duplicate assignment of `{name}`"
  | missingAxiom => s!"missing {axiomName}"
  | missingRecursionCount => s!"missing {recursionCountName}"
  | axiomType type => s!"`{axiomName}` must be a string but is {type.text}"
  | recursionCountType type => s!"`{recursionCountName}` must be an integer but is {type.text}"
  | recursionCountTooSmall count =>
    s!"`{recursionCountName}` must be at least 1 but is {count.toInt}"
  | evaluation cause => cause.message
  | duplicateRuleName name => s!"duplicate rule name `{name}`"

end Problem

namespace Tree

/-- What the value of an assignment is known to be without any variable. -/
def staticValue (t : Tree) (assignment : NodeId) : Except EvalError StaticValue :=
  match t.firstChild assignment with
  | none => .ok .unknown
  | some expression =>
    match t.reduce .empty expression with
    | .error e => .error e
    | .ok (.literal v) => .ok (.value v)
    | .ok (.unchanged _) =>
      match t.typeOf .empty expression with
      | .error e => .error e
      | .ok type => .ok (if type.isConcrete then .type type else .unknown)

/-- The first assignment of a name at top level. -/
def firstAssignment (t : Tree) (name : String) : Option NodeId :=
  (t.assignments.find? (·.name == name)).map Assignment.node

/-- The items whose key occurred before. -/
def repeated {α : Type} (key : α → String) (seen : List String) : List α → List α
  | [] => []
  | a :: more =>
    if seen.contains (key a) then a :: repeated key seen more
    else repeated key (key a :: seen) more

/-- Every assignment at top level of a variable that has been assigned before. -/
def duplicateAssignments (t : Tree) : List Finding :=
  (repeated Assignment.name [] t.assignments).map fun a =>
    ⟨.duplicateAssignment a.name, a.node, t.region a.node⟩

/-- A value that can never be had, found at the expression of an assignment. -/
def evaluationFinding (t : Tree) (assignment : NodeId) (e : EvalError) : Finding :=
  let n := (t.firstChild assignment).getD assignment
  ⟨.evaluation e, n, t.fullRegion n⟩

def axiomFindings (t : Tree) : List Finding :=
  match t.firstAssignment axiomName with
  | none => [⟨.missingAxiom, root, t.region root⟩]
  | some n =>
    let unlessString (type : ValueType) : List Finding :=
      if type = .string then [] else [⟨.axiomType type, n, t.fullRegion n⟩]
    match t.staticValue n with
    | .ok (.value v) => unlessString v.type
    | .ok (.type type) => unlessString type
    | .ok .unknown => []
    | .error e => [t.evaluationFinding n e]

def recursionCountFindings (t : Tree) : List Finding :=
  match t.firstAssignment recursionCountName with
  | none => [⟨.missingRecursionCount, root, t.region root⟩]
  | some n =>
    let unlessInteger (type : ValueType) : List Finding :=
      if type = .integer then [] else [⟨.recursionCountType type, n, t.fullRegion n⟩]
    match t.staticValue n with
    | .ok (.value (.integer count)) =>
      if count.toInt < 1 then [⟨.recursionCountTooSmall count, n, t.fullRegion n⟩] else []
    | .ok (.value v) => unlessInteger v.type
    | .ok (.type type) => unlessInteger type
    | .ok .unknown => []
    | .error e => [t.evaluationFinding n e]

def namedRules (t : Tree) : List (String × NodeId) :=
  (t.find fun | .rule (some _) _ _ => true | _ => false).filterMap fun n =>
    match t.kind n with
    | .rule (some name) _ _ => some (name, n)
    | _ => none

/-- Every rule whose name an earlier rule has. -/
def duplicateRuleNames (t : Tree) : List Finding :=
  (repeated Prod.fst [] t.namedRules).map fun (name, n) =>
    ⟨.duplicateRuleName name, n, t.region n⟩

def validate (t : Tree) : List Finding :=
  t.duplicateAssignments ++ t.axiomFindings ++ t.recursionCountFindings ++ t.duplicateRuleNames

end Tree

namespace Finding

def textOfAll (findings : List Finding) : String :=
  "; ".intercalate (findings.map (·.problem.message))

/-- The message of a program that is refused for these findings. -/
def refusal (findings : List Finding) : String := "invalid program: " ++ textOfAll findings

/-- Adds a finding to a draft. There is nothing to mark where something is missing. -/
def report (f : Finding) (d : Draft) : Draft :=
  let d := if 0 < f.region.length then d.addCause f.region else d
  d.add .error none f.problem.message

def reportAll (findings : List Finding) (d : Draft) : Draft :=
  findings.foldl (fun d f => f.report d) d

end Finding

end Lindenmayer
