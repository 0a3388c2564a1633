import Lindenmayer.Source.SyntaxError
import Lindenmayer.Source.Syntax

/-!
# Reading expressions

Infix expressions are read with two stacks. Operands go onto the stack of values; an
operator goes onto the stack of operators, but first applies those on top of it that bind
at least as tightly. A closing parenthesis applies everything down to the opening one. An
expression ends in front of a line end, a closing curly brace or the end of input; blanks
in it mean nothing, so it is read from tokens that include them.

Every step consumes a token, and an expression that was read has consumed one: this is
what lets readers of statements recurse (`remaining_readExpression`).
-/

namespace Lindenmayer

/-- The two stacks, each with its top in front. -/
structure ShuntingYard where
  values : List Expr
  operators : List (Operator × Region)
  /-- What has been consumed so far, if anything. -/
  region : Option Region
  deriving Repr

namespace ShuntingYard

def empty : ShuntingYard := ⟨[], [], none⟩

/-- Applies an operator to the two values on top. -/
def apply (operator : Operator) (region : Region) :
    List Expr → Except SyntaxError (List Expr)
  | rhs :: lhs :: values => .ok (.operation operator region lhs rhs :: values)
  | _ => .error (.malformed (.missingOperand operator) region)

/-- Whether an operator on the stack is applied before the next one goes on top of it. -/
def yields (top next : Operator) : Bool :=
  top != .parens && (next.precedence < top.precedence ||
    (next.isLeftAssociative && top.precedence == next.precedence))

/-- Applies the operators on top that bind at least as tightly as the next one. -/
def applyTighter (next : Operator) :
    List (Operator × Region) → List Expr →
      Except SyntaxError (List (Operator × Region) × List Expr)
  | [], values => .ok ([], values)
  | (top, place) :: operators, values =>
    if yields top next then
      match apply top place values with
      | .ok values => applyTighter next operators values
      | .error e => .error e
    else .ok ((top, place) :: operators, values)

/-- Applies all operators down to the innermost opening parenthesis, which goes away. -/
def closeParens (close : Region) :
    List (Operator × Region) → List Expr →
      Except SyntaxError (List (Operator × Region) × List Expr)
  | [], _ => .error (.malformed .misplacedClosingParenthesis close)
  | (top, place) :: operators, values =>
    if top = .parens then .ok (operators, values)
    else
      match apply top place values with
      | .ok values => closeParens close operators values
      | .error e => .error e

def applyAll :
    List (Operator × Region) → List Expr → Except SyntaxError (List Expr)
  | [], values => .ok values
  | (top, place) :: operators, values =>
    if top = .parens then .error (.malformed .missingClosingParenthesis place)
    else
      match apply top place values with
      | .ok values => applyAll operators values
      | .error e => .error e

/-- The yard after `region` has been consumed too. -/
def cover (y : ShuntingYard) (region : Region) : ShuntingYard :=
  { y with region := some (match y.region with
    | none => region
    | some before => before.merge region) }

def push (y : ShuntingYard) (value : Expr) (region : Region) : ShuntingYard :=
  { y with values := value :: y.values }.cover region

end ShuntingYard

/-- The content of a string up to the next quote like the one that opened it, that quote, and
what follows. Line ends are not part of a string. -/
def readString (quote : String) : List Token → Option (String × Token × List Token)
  | [] => none
  | t :: ts =>
    if t.kind = .quote ∧ t.text = quote then some ("", t, ts)
    else (readString quote ts).map fun (content, close, rest) =>
      (if t.kind = .lineEnd then content else t.text ++ content, close, rest)

theorem length_readString {quote content : String} {ts rest : List Token} {close : Token}
    (h : readString quote ts = some (content, close, rest)) : rest.length < ts.length := by
  induction ts generalizing content close rest with
  | nil => simp [readString] at h
  | cons t ts ih =>
    simp only [readString] at h
    split at h
    · cases h; simp
    · obtain ⟨⟨content', close', rest'⟩, hr, heq⟩ := Option.map_eq_some_iff.1 h
      cases heq
      have := ih hr
      simp only [List.length_cons]; omega

namespace ShuntingYard

/-- Reads operands and operators up to the end of the expression, in a source of `stop` bytes.
Also answers the tokens that follow it. -/
def read (stop : Nat) (ts : List Token) (y : ShuntingYard) :
    Except SyntaxError (ShuntingYard × List Token) :=
  match ts with
  | [] => .ok (y, [])
  | t :: ts =>
    match t.kind with
    | .whitespace => read stop ts y
    | .lineEnd => .ok (y, t :: ts)
    | .curlyClose => .ok (y, t :: ts)
    | .identifier => read stop ts (y.push (.identifier t.text t.region) t.region)
    | .number =>
      match Number.ofLiteral? t.text with
      | some n => read stop ts (y.push (.number n t.region) t.region)
      | none => .error (.illegalNumber t.text t.region)
    | .quote =>
      match hs : readString t.text ts with
      | some (content, close, rest) =>
        have := length_readString hs
        let region := t.region.merge close.region
        read stop rest (y.push (.string content region) region)
      | none => .error (.prematureEnd stop)
    | .parensOpen =>
      read stop ts ({ y with operators := (.parens, t.region) :: y.operators }.cover t.region)
    | .parensClose =>
      match closeParens t.region y.operators y.values with
      | .ok (operators, values) =>
        read stop ts ({ y with operators, values }.cover t.region)
      | .error e => .error e
    | .operator =>
      match Operator.ofSymbol? t.text with
      | none => .error (.malformed (.unknownOperator t.text) t.region)
      | some operator =>
        match applyTighter operator y.operators y.values with
        | .ok (operators, values) =>
          read stop ts
            ({ y with operators := (operator, t.region) :: operators, values }.cover t.region)
        | .error e => .error e
    | kind => .error (.malformed (.unexpected kind t.text) t.region)
termination_by ts.length

/-- The expression of a yard, once everything is read. `offset` is where reading ended. -/
def finish (y : ShuntingYard) (offset : Nat) : Except SyntaxError Expression :=
  let region := y.region.getD ⟨offset, 0⟩
  match applyAll y.operators y.values with
  | .error e => .error e
  | .ok [] => .error (.malformed .expectedExpression region)
  | .ok [value] => .ok ⟨value, region⟩
  | .ok _ => .error (.malformed .danglingValues region)

end ShuntingYard

/-- Reads an expression from the tokens of a source of `stop` bytes, and answers the tokens
that follow it. -/
def readExpression (stop : Nat) (ts : List Token) :
    Except SyntaxError (Expression × List Token) :=
  match ShuntingYard.read stop ts .empty with
  | .error e => .error e
  | .ok (y, rest) =>
    match y.finish ((rest.head?.map Token.offset).getD stop) with
    | .error e => .error e
    | .ok expression => .ok (expression, rest)

namespace ShuntingYard

/-- Reading consumes tokens, or else leaves the yard alone. -/
theorem length_read {stop : Nat} {ts rest : List Token} {y y' : ShuntingYard}
    (h : read stop ts y = .ok (y', rest)) :
    rest.length < ts.length ∨ (rest = ts ∧ y' = y) := by
  fun_induction read stop ts y <;> simp_all
  all_goals
    rename_i ih
    rcases ih with hlt | ⟨rfl, _⟩ <;> left <;> omega

end ShuntingYard

/-- An expression that was read has consumed a token. -/
theorem remaining_readExpression {stop : Nat} {ts rest : List Token} {e : Expression}
    (h : readExpression stop ts = .ok (e, rest)) : rest.length < ts.length := by
  unfold readExpression at h
  split at h
  · cases h
  · next y rest' hread =>
    split at h
    · cases h
    · next e' hfinish =>
      cases h
      rcases ShuntingYard.length_read hread with hlt | ⟨_, rfl⟩
      · exact hlt
      · simp [ShuntingYard.finish, ShuntingYard.empty, ShuntingYard.applyAll] at hfinish

end Lindenmayer
