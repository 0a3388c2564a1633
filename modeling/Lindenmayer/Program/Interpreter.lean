import Lindenmayer.Evaluation.Basic
import Lindenmayer.Program.Assignments

/-!
# Running a program

A run executes the assignments at top level in document order. Each must have a value,
calculated from the variables assigned before it, and gives its variable the type of that
value for good. The tree takes part, because the types are kept with its scopes. A run that
fails keeps what it did.

Values belong to symbols and not to names. A name means the nearest symbol that has a value,
so a name that is merely mentioned in a block does not hide the variable outside.
-/

namespace Lindenmayer

inductive RunError where
  /-- The value depends on something that has none. -/
  | notALiteral (name : String)
  | undefinedVariable (name : String)
  | wrongType (name : String) (expected actual : ValueType)
  | evaluation (name : String) (cause : EvalError)
  | scope (cause : ScopeError)
  deriving DecidableEq, Repr

structure Variables where
  values : List (SymbolId × Value)
  deriving Repr

namespace RunError

def message : RunError → String
  | notALiteral name => s!"the value assigned to `{name}` is not a literal"
  | undefinedVariable name => s!"variable `{name}` is not defined"
  | wrongType name expected actual =>
    s!"variable `{name}` should be of type {expected.text} but is of type {actual.text}"
  | evaluation name _ => s!"could not evaluate the value of `{name}`"
  | scope _ => "could not define a variable"

def causes : RunError → List String
  | evaluation _ cause => cause.message :: cause.causes
  | scope cause => [cause.message]
  | _ => []

def report (e : RunError) (d : Draft) : Draft :=
  match e with
  | evaluation _ cause => cause.report (d.addLead e.message)
  | scope cause => cause.report d
  | _ => d.add .error none e.message

end RunError

namespace Variables

def empty : Variables := ⟨[]⟩

def get? (v : Variables) (symbol : SymbolId) : Option Value := v.values.lookup symbol

/-- Gives a symbol a value in place of the one it has. -/
def set (v : Variables) (symbol : SymbolId) (value : Value) : Variables :=
  ⟨(symbol, value) :: v.values.filter fun entry => entry.1 != symbol⟩

def size (v : Variables) : Nat := v.values.length

/-- The value of the nearest symbol of a name that has one. -/
def lookup (v : Variables) (scopes : Scopes) (scope : ScopeId) (name : String) :
    Except EvalError Value :=
  match (scopes.ancestry scope).findSome? fun s => (scopes.local? s name).bind v.get? with
  | some value => .ok value
  | none => .error (.unknownIdentifier name)

/-- Variables as a context of expressions. -/
def context (v : Variables) : Context := v.lookup

def assign (v : Variables) (t : Tree) (a : Assignment) :
    Except RunError (Variables × Tree) :=
  match t.firstChild a.node with
  | none => .error (.notALiteral a.name)
  | some expression =>
    match t.reduce v.context expression with
    | .error cause => .error (.evaluation a.name cause)
    | .ok (.unchanged _) => .error (.notALiteral a.name)
    | .ok (.literal value) =>
      match t.scopes.define a.scope a.name value.type (some a.node) with
      | .error cause => .error (.scope cause)
      | .ok (symbol, scopes) => .ok (v.set symbol value, { t with scopes })

/-- Executes assignments up to the first that fails. -/
def assignAll (v : Variables) (t : Tree) :
    List Assignment → Except RunError Unit × Variables × Tree
  | [] => (.ok (), v, t)
  | a :: more =>
    match v.assign t a with
    | .error e => (.error e, v, t)
    | .ok (v, t) => v.assignAll t more

/-- Runs a program with the variables there are. -/
def run (v : Variables) (t : Tree) : Except RunError Unit × Variables × Tree :=
  v.assignAll t t.assignments

/-- The value of a variable of the global scope. -/
def global? (v : Variables) (t : Tree) (name : String) : Option Value :=
  (t.scopes.local? Scopes.global name).bind v.get?

/-- The value of a variable of the global scope that has to have one. -/
def defined (v : Variables) (t : Tree) (name : String) : Except RunError Value :=
  match v.global? t name with
  | some value => .ok value
  | none => .error (.undefinedVariable name)

/-- The value of a variable that has to be a string. -/
def globalString (v : Variables) (t : Tree) (name : String) : Except RunError String :=
  match v.defined t name with
  | .error e => .error e
  | .ok (.string s) => .ok s
  | .ok other => .error (.wrongType name .string other.type)

/-- The value of a variable that has to be an integer. -/
def globalInteger (v : Variables) (t : Tree) (name : String) : Except RunError Int64 :=
  match v.defined t name with
  | .error e => .error e
  | .ok (.integer n) => .ok n
  | .ok other => .error (.wrongType name .integer other.type)

/-- The variables of the global scope with their values, in the order of their names. -/
def globals (v : Variables) (t : Tree) : List (String × Value) :=
  (t.scopes.scope Scopes.global).table.filterMap fun (name, symbol) =>
    (v.get? symbol).map fun value => (name, value)

end Variables

end Lindenmayer
