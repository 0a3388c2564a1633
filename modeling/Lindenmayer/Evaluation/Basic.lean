import Lindenmayer.Evaluation.Arithmetic
import Lindenmayer.Tree.Subtree

/-!
# Evaluating expressions

An expression is evaluated from left to right, and names are looked up in a context that
says which variables have values. The same walk without values gives the type: it asks the
context first and then takes the type that the scopes know for a name.

Both are defined on subtrees, where they follow the structure, and lifted to the nodes of a
tree.
-/

namespace Lindenmayer

/-- Where names get their values: given the scopes and the scope that a name stands in, its
value or the reason why there is none. -/
abbrev Context := Scopes → ScopeId → String → Except EvalError Value

namespace Context

def empty : Context := fun _ _ name => .error (.unknownIdentifier name)

end Context

namespace Subtree

def evaluate (lookup : ScopeId → String → Except EvalError Value) :
    Subtree → Except EvalError Value
  | node _ .statement _ [inner] => evaluate lookup inner
  | node _ .expression _ [inner] => evaluate lookup inner
  | node _ (.number n) _ _ => .ok (.ofNumber n)
  | node _ (.string s) _ _ => .ok (.string s)
  | node _ (.identifier name scope) _ _ => lookup scope name
  | node _ (.operation operator) _ [lhs, rhs] =>
    match evaluate lookup lhs with
    | .error e => .error e
    | .ok l =>
      match evaluate lookup rhs with
      | .error e => .error e
      | .ok r => Value.apply operator l r
  | node _ kind _ _ => .error (.notAnExpression kind.text)

/-- The type of a name: that of its value, or else the one that was declared. -/
def identifierType (lookup : ScopeId → String → Except EvalError Value)
    (declared : ScopeId → String → ValueType) (scope : ScopeId) (name : String) :
    Except EvalError ValueType :=
  match lookup scope name with
  | .ok value => .ok value.type
  | .error (.unknownIdentifier _) => .ok (declared scope name)
  | .error e => .error e

/-- The type of an expression; what is no expression has no value to have a type. -/
def typeOf (lookup : ScopeId → String → Except EvalError Value)
    (declared : ScopeId → String → ValueType) : Subtree → Except EvalError ValueType
  | node _ .statement _ [inner] => typeOf lookup declared inner
  | node _ .expression _ [inner] => typeOf lookup declared inner
  | node _ (.number n) _ _ => .ok (Value.ofNumber n).type
  | node _ (.string _) _ _ => .ok .string
  | node _ (.identifier name scope) _ _ => identifierType lookup declared scope name
  | node _ (.operation operator) _ [lhs, rhs] =>
    match typeOf lookup declared lhs with
    | .error e => .error e
    | .ok l =>
      match typeOf lookup declared rhs with
      | .error e => .error e
      | .ok r =>
        match ValueType.combine operator l r with
        | some type => .ok type
        | none => .error (.typeMismatch operator l r)
  | node _ .statement _ _ => .error (.notAnExpression NodeKind.statement.text)
  | node _ .expression _ _ => .error (.notAnExpression NodeKind.expression.text)
  | node _ (.operation operator) _ _ =>
    .error (.notAnExpression (NodeKind.operation operator).text)
  | node _ _ _ _ => .ok .void

/-- Whether this is a literal, with nothing around it but the nodes that hold one thing. -/
def isLiteralValue : Subtree → Bool
  | node _ .statement _ [inner] => isLiteralValue inner
  | node _ .expression _ [inner] => isLiteralValue inner
  | node _ kind _ _ => kind.isLiteral

end Subtree

inductive Reduced where
  | literal (value : Value)
  /-- Something in it has no value yet. -/
  | unchanged (n : NodeId)
  deriving Repr, BEq

namespace Tree

/-- The type that the scopes know for a name. -/
def declaredType (t : Tree) (scope : ScopeId) (name : String) : ValueType :=
  match t.scopes.visible? scope name with
  | some symbol => (t.scopes.symbol symbol).type
  | none => .unknown

def evaluate (t : Tree) (ctx : Context) (n : NodeId) : Except EvalError Value :=
  (t.subtree n).evaluate (ctx t.scopes)

def typeOf (t : Tree) (ctx : Context) (n : NodeId) : Except EvalError ValueType :=
  (t.subtree n).typeOf (ctx t.scopes) t.declaredType

/-- The value of an expression if it has one by now; the name of something unknown in it is
no error. -/
def reduce (t : Tree) (ctx : Context) (n : NodeId) : Except EvalError Reduced :=
  match t.evaluate ctx n with
  | .ok value => .ok (.literal value)
  | .error (.unknownIdentifier _) => .ok (.unchanged n)
  | .error e => .error e

end Tree

end Lindenmayer
