import Lindenmayer.Report.Diagnostic
import Lindenmayer.Term.ValueType

/-!
# Errors of scopes

What can go wrong when a name is looked up or given a type.
-/

namespace Lindenmayer

inductive ScopeError where
  /-- No symbol of that name is visible. -/
  | unknownIdentifier (name : String)
  /-- The variable has a type, and it is another one. -/
  | typeConflict (name : String) (existing new : ValueType)
  /-- No value can have the given type. -/
  | notConcrete (name : String) (type : ValueType)
  deriving DecidableEq, Repr

namespace ScopeError

def message : ScopeError → String
  | unknownIdentifier name => s!"unknown identifier `{name}`"
  | typeConflict name existing new =>
    s!"existing variable `{name}` has type {existing.text} while new type is {new.text}"
  | notConcrete name type => s!"variable `{name}` cannot be defined with type {type.text}"

def report (e : ScopeError) (d : Draft) : Draft :=
  match e with
  | notConcrete _ _ => d.add .bug none e.message
  | _ => d.add .error none e.message

end ScopeError

end Lindenmayer
