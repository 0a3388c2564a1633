import Lindenmayer.Scopes.Error
import Lindenmayer.Tree.NodeId

/-!
# Scopes

The scopes of a program form a tree with the global scope at its root, and each holds the
symbols that were declared in it. A name is looked up in a scope and then in the scopes
around it, so an inner declaration hides an outer one. The type of a symbol starts out
unknown and is settled once.

Scopes and symbols are kept in the order they were made in and named by their place there.
A scope is made inside one that exists already, so the way outwards goes to ever smaller
names and ends; `ancestry` recurses on that.
-/

namespace Lindenmayer

/-- The name of a scope for the program, as opposed to its name in source text. -/
structure ScopeId where
  index : Nat
  deriving DecidableEq, Repr, Inhabited

structure SymbolId where
  index : Nat
  deriving DecidableEq, Repr, Inhabited

/-- A variable that was declared. -/
structure Symbol where
  name : String
  scope : ScopeId
  type : ValueType
  /-- The node that declared it, if there is one. -/
  site : Option NodeId
  deriving DecidableEq, Repr, Inhabited

structure Scope where
  name : String
  parent : Option ScopeId
  /-- In the order they were made. -/
  children : List ScopeId
  /-- The symbols declared in this very scope, in the order of their names. -/
  table : List (String × SymbolId)
  deriving DecidableEq, Repr, Inhabited

/-- All scopes and symbols of a program. -/
structure Scopes where
  scopes : Array Scope
  symbols : Array Symbol
  /-- How many scopes were given a name by number. -/
  anonymous : Nat
  deriving DecidableEq, Repr, Inhabited

namespace ScopeId

def text (s : ScopeId) : String := s!"scope#{s.index}"

end ScopeId

namespace Symbol

def description (s : Symbol) : String := s!"variable of type {s.type.text}"

end Symbol

namespace Scopes

/-- The name of the outermost scope. It cannot be written in source text. -/
def globalName : String := "$$GLOBAL$$"

def initial : Scopes := ⟨#[⟨globalName, none, [], []⟩], #[], 0⟩

def global : ScopeId := ⟨0⟩

def scope (s : Scopes) (id : ScopeId) : Scope := s.scopes[id.index]?.getD default

def symbol (s : Scopes) (id : SymbolId) : Symbol := s.symbols[id.index]?.getD default

def parent (s : Scopes) (id : ScopeId) : Option ScopeId := (s.scope id).parent

def isGlobal (s : Scopes) (id : ScopeId) : Bool := (s.parent id).isNone

def modifyScope (s : Scopes) (id : ScopeId) (f : Scope → Scope) : Scopes :=
  { s with scopes := s.scopes.modify id.index f }

def create (s : Scopes) (name : String) (parent : ScopeId) : ScopeId × Scopes :=
  let id : ScopeId := ⟨s.scopes.size⟩
  (id, { s with scopes := s.scopes.push ⟨name, some parent, [], []⟩ }.modifyScope parent
    fun scope => { scope with children := scope.children ++ [id] })

/-- Makes a scope inside another and names it by number. -/
def createAnonymous (s : Scopes) (parent : ScopeId) : ScopeId × Scopes :=
  let number := s.anonymous + 1
  { s with anonymous := number }.create s!"anonScope{number}" parent

/-- A scope and those around it, the innermost first. -/
def ancestry (s : Scopes) (id : ScopeId) : List ScopeId :=
  id :: match s.parent id with
    | some p => if p.index < id.index then s.ancestry p else []
    | none => []
termination_by id.index

/-- The symbol of a name in this very scope. -/
def local? (s : Scopes) (id : ScopeId) (name : String) : Option SymbolId :=
  (s.scope id).table.lookup name

/-- The symbol that a name refers to from a scope. -/
def visible? (s : Scopes) (id : ScopeId) (name : String) : Option SymbolId :=
  (s.ancestry id).findSome? fun scope => s.local? scope name

/-- The symbol of a name, with the scopes around searched as well if `outwards` says so. -/
def find (s : Scopes) (id : ScopeId) (name : String) (outwards : Bool) :
    Except ScopeError SymbolId :=
  match if outwards then s.visible? id name else s.local? id name with
  | some symbol => .ok symbol
  | none => .error (.unknownIdentifier name)

/-- `table` with an entry more, at its place in the order of names. -/
def insertByName (name : String) (id : SymbolId) :
    List (String × SymbolId) → List (String × SymbolId)
  | [] => [(name, id)]
  | (n, i) :: table =>
    if name < n then (name, id) :: (n, i) :: table else (n, i) :: insertByName name id table

/-- Adds a symbol to a scope that has none of its name. -/
def insert (s : Scopes) (id : ScopeId) (name : String) (type : ValueType)
    (site : Option NodeId) : SymbolId × Scopes :=
  let symbol : SymbolId := ⟨s.symbols.size⟩
  (symbol, { s with symbols := s.symbols.push ⟨name, id, type, site⟩ }.modifyScope id
    fun scope => { scope with table := insertByName name symbol scope.table })

/-- Declares a variable without a type. A variable that is there already stays as it is. -/
def declare (s : Scopes) (id : ScopeId) (name : String) (site : Option NodeId) :
    SymbolId × Scopes :=
  match s.local? id name with
  | some symbol => (symbol, s)
  | none => s.insert id name .unknown site

/-- Gives a variable a type, and declares it if it is not there. A type that was given
before must be the same. -/
def define (s : Scopes) (id : ScopeId) (name : String) (type : ValueType)
    (site : Option NodeId) : Except ScopeError (SymbolId × Scopes) :=
  if !type.isConcrete then .error (.notConcrete name type)
  else
    match s.local? id name with
    | none => .ok (s.insert id name type site)
    | some symbol =>
      let existing := (s.symbol symbol).type
      if existing = type then .ok (symbol, s)
      else if existing = .unknown then
        .ok (symbol, { s with symbols := s.symbols.modify symbol.index fun v =>
          { v with type, site := site <|> v.site } })
      else .error (.typeConflict name existing type)

/-- The names of a scope and of those around it, from the outside in. -/
def absoluteName (s : Scopes) (id : ScopeId) : String :=
  ".".intercalate ((s.ancestry id).reverse.map fun scope => (s.scope scope).name)

/-- The name of a symbol behind the names of its scopes. -/
def symbolAbsoluteName (s : Scopes) (id : SymbolId) : String :=
  s.absoluteName (s.symbol id).scope ++ "$" ++ (s.symbol id).name

end Scopes

end Lindenmayer
