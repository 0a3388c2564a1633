import Lindenmayer.Proofs.CharReader
import Lindenmayer.Tree.Planting

/-!
# Parsing in one pass

A program is read and planted in two steps, and nothing in them can run on for
ever: readers take what is left of the tokens apart, and planting follows the
statements. Here is the same in one step. A `Parser` has a reader that makes a
token when one is asked for, and the tree so far; it makes nodes while it reads,
with loops that go on until the reader says otherwise, and it switches to
significant blanks and back, and into the scope of a block and out again, where
an expression or a block starts and ends.

Nothing about the loops says that they come to an end, so each round of one is
paid for with fuel, and where that runs out there is no answer. Fuel decides
nothing else. That a parser comes to an end is to say that it has an answer as
soon as there is enough of it.
-/

namespace Lindenmayer

/-- What a parser goes by: what is left of the source, the tree so far, and the
scope that the next name is in. -/
structure Parser where
  reader : CharReader
  tree : Tree
  scope : ScopeId

/-- What a parser does. It may fail, and it may run out of fuel. -/
abbrev Parsing := StateT Parser (ExceptT SyntaxError Option)

namespace Parser

def outOfFuel {α : Type} : Parsing α := fun _ => none

/-! ## Asking the reader -/

def ask {α : Type} (f : CharReader → Except SyntaxError α × CharReader) : Parsing α := fun p =>
  match f p.reader with
  | (.ok a, reader) => some (.ok (a, { p with reader }))
  | (.error e, _) => some (.error e)

def test (f : CharReader → Bool × CharReader) : Parsing Bool := fun p =>
  some (.ok ((f p.reader).1, { p with reader := (f p.reader).2 }))

def atEnd : Parsing Bool := test CharReader.atEnd

def peek : Parsing Token := ask CharReader.peek

def peekKind (kind : TokenKind) : Parsing Bool := test (CharReader.peekKind kind)

def next : Parsing Token := ask CharReader.next

def nextKind (kind : TokenKind) : Parsing Token := ask (CharReader.nextKind kind)

def offset : Parsing Nat := do return (← get).reader.offset

def skipping : Parsing Bool := do return (← get).reader.skipping

def setSkipping (b : Bool) : Parsing Unit :=
  modify fun p => { p with reader := p.reader.setSkipping b }

/-! ## Making nodes -/

def grow {α : Type} (f : Tree → α × Tree) : Parsing α := fun p =>
  some (.ok ((f p.tree).1, { p with tree := (f p.tree).2 }))

/-- Makes a node with what is below it. -/
def make (kind : NodeKind) (region : Region) (children : List NodeId) : Parsing NodeId :=
  grow fun t =>
    let (n, t) := t.newNode kind region
    (n, t.addChildren n children)

def identifier (t : Token) : Parsing NodeId := do
  let scope := (← get).scope
  let n ← make (.identifier t.text scope) t.region []
  grow fun tree => ((), { tree with scopes := (tree.scopes.declare scope t.text (some n)).2 })
  return n

def number (t : Token) : Parsing NodeId :=
  match Number.ofLiteral? t.text with
  | some n => make (.number n) t.region []
  | none => throw (.illegalNumber t.text t.region)

/-- Reads a string up to the quote that closes it. -/
def stringContent (quote : String) : Nat → String → Parsing (String × Token)
  | 0, _ => outOfFuel
  | fuel + 1, content => do
    if ← atEnd then throw (.prematureEnd (← offset))
    else
      let t ← next
      if t.kind = .quote ∧ t.text = quote then return (content, t)
      else if t.kind = .lineEnd then stringContent quote fuel content
      else stringContent quote fuel (content ++ t.text)

def string (fuel : Nat) : Parsing NodeId := do
  let start ← nextKind .quote
  let before ← skipping
  setSkipping false
  let (content, close) ← stringContent start.text fuel ""
  setSkipping before
  make (.string content) (start.region.merge close.region) []

/-! ## Expressions -/

/-- Applies an operator to the values on top of a stack. -/
def reduce (operator : Operator) (place : Region) (values : List NodeId) :
    Parsing (List NodeId) :=
  if values.length < operator.arity then throw (.malformed (.missingOperand operator) place)
  else do
    let n ← make (.operation operator) place (values.take operator.arity).reverse
    return n :: values.drop operator.arity

def reduceTighter (next : Operator) :
    List (Operator × Region) → List NodeId → Parsing (List (Operator × Region) × List NodeId)
  | [], values => return ([], values)
  | (top, place) :: operators, values =>
    if ShuntingYard.yields top next then do
      let values ← reduce top place values
      reduceTighter next operators values
    else return ((top, place) :: operators, values)

def reduceToParens (close : Region) :
    List (Operator × Region) → List NodeId → Parsing (List (Operator × Region) × List NodeId)
  | [], _ => throw (.malformed .misplacedClosingParenthesis close)
  | (top, place) :: operators, values =>
    if top = .parens then return (operators, values)
    else do
      let values ← reduce top place values
      reduceToParens close operators values

def reduceAll : List (Operator × Region) → List NodeId → Parsing (List NodeId)
  | [], values => return values
  | (top, place) :: operators, values =>
    if top = .parens then throw (.malformed .missingClosingParenthesis place)
    else do
      let values ← reduce top place values
      reduceAll operators values

/-- The two stacks of an expression, with nodes for values. -/
structure Yard where
  values : List NodeId
  operators : List (Operator × Region)
  /-- What has been consumed so far, if anything. -/
  region : Option Region

/-- The yard after `region` has been consumed too. -/
def Yard.cover (y : Yard) (region : Region) : Yard :=
  { y with region := some (match y.region with
    | none => region
    | some before => before.merge region) }

/-- Reads operands and operators up to the end of the expression. -/
def operands : Nat → Yard → Parsing Yard
  | 0, _ => outOfFuel
  | fuel + 1, y => do
    if ← atEnd then return y
    else
    let t ← peek
    match t.kind with
    | .whitespace => do
      let _ ← next
      operands fuel y
    | .lineEnd => return y
    | .curlyClose => return y
    | .identifier => do
      let n ← identifier (← next)
      operands fuel ({ y with values := n :: y.values }.cover t.region)
    | .number => do
      let n ← number (← next)
      operands fuel ({ y with values := n :: y.values }.cover t.region)
    | .quote => do
      let n ← string fuel
      let region := (← get).tree.region n
      operands fuel ({ y with values := n :: y.values }.cover region)
    | .parensOpen => do
      let _ ← next
      operands fuel ({ y with operators := (.parens, t.region) :: y.operators }.cover t.region)
    | .parensClose => do
      let _ ← next
      let (operators, values) ← reduceToParens t.region y.operators y.values
      operands fuel ({ y with operators, values }.cover t.region)
    | .operator => do
      let u ← next
      match Operator.ofSymbol? u.text with
      | none => throw (.malformed (.unknownOperator u.text) t.region)
      | some operator => do
        let (operators, values) ← reduceTighter operator y.operators y.values
        operands fuel
          ({ y with operators := (operator, t.region) :: operators, values }.cover t.region)
    | kind => do
      let u ← next
      throw (.malformed (.unexpected kind u.text) t.region)

def operatorPrecedence (fuel : Nat) : Parsing (NodeId × Region) := do
  let y ← operands fuel ⟨[], [], none⟩
  let region := y.region.getD ⟨← offset, 0⟩
  match ← reduceAll y.operators y.values with
  | [] => throw (.malformed .expectedExpression region)
  | [value] => return (value, region)
  | _ => throw (.malformed .danglingValues region)

def expression (fuel : Nat) : Parsing NodeId := do
  let before ← skipping
  setSkipping false
  let (value, region) ← operatorPrecedence fuel
  setSkipping before
  make .expression region [value]

/-! ## Statements -/

/-- Reads the tokens up to the next blank. -/
def runOn : Nat → String × Region → Parsing (String × Region)
  | 0, _ => outOfFuel
  | fuel + 1, run => do
    if ← atEnd then return run
    else
      let t ← peek
      if t.isBlank then return run
      else
        let u ← next
        runOn fuel (run.1 ++ u.text, run.2.merge u.region)

def unbrokenRun (fuel : Nat) : Parsing (String × Region) := do
  if ← atEnd then throw (.prematureEnd (← offset))
  else
    let before ← skipping
    let first ← next
    setSkipping false
    let run ← runOn fuel (first.text, first.region)
    setSkipping before
    return run

/-- The name of a rule, which may be missing. -/
def ruleName : Parsing (Option String) := do
  if ← peekKind .identifier then return some (← next).text
  else return none

def ruleDefinition (fuel : Nat) : Parsing NodeId := do
  let word ← nextKind .ruleWord
  let name ← ruleName
  let _ ← nextKind .colon
  let (expected, _) ← unbrokenRun fuel
  let _ ← nextKind .arrow
  let (replacement, last) ← unbrokenRun fuel
  make (.rule name expected replacement) (word.region.merge last) []

def assignment (fuel : Nat) : Parsing NodeId := do
  let set ← nextKind .setWord
  let name ← nextKind .identifier
  let equals ← nextKind .assignment
  let value ← expression fuel
  make (.assignment name.text (← get).scope) (set.region.merge equals.region) [value]

/-- Opens the scope of a block, and answers it with the one it is in. -/
def enter : Parsing (ScopeId × ScopeId) := do
  let outer := (← get).scope
  let inner ← grow fun t =>
    let (inner, scopes) := t.scopes.createAnonymous outer
    (inner, { t with scopes })
  modify fun p => { p with scope := inner }
  return (inner, outer)

mutual

def statement : Nat → Parsing NodeId
  | 0 => outOfFuel
  | fuel + 1 => do
    let t ← peek
    let inner ← (match t.kind with
      | .curlyOpen => block fuel
      | .ruleWord => ruleDefinition fuel
      | .setWord => assignment fuel
      | .curlyClose => do
        let u ← next
        throw (.malformed .strayClosingBrace u.region)
      | _ => expression fuel)
    grow (·.wrapStatement inner)

def block : Nat → Parsing NodeId
  | 0 => outOfFuel
  | fuel + 1 => do
    let start ← nextKind .curlyOpen
    let (inner, outer) ← enter
    let statements ← body fuel []
    let close ← nextKind .curlyClose
    modify fun p => { p with scope := outer }
    make (.block inner) (start.region.merge close.region) statements

/-- Reads statements up to the brace that closes their block, behind those there
are. -/
def body : Nat → List NodeId → Parsing (List NodeId)
  | 0, _ => outOfFuel
  | fuel + 1, statements => do
    if ← atEnd then throw (.prematureEnd (← offset))
    else if ← peekKind .curlyClose then return statements
    else
      let n ← statement fuel
      body fuel (statements ++ [n])

end

/-- Reads statements up to the end, and puts them below the root. -/
def program : Nat → Parsing Unit
  | 0 => outOfFuel
  | fuel + 1 => do
    if ← atEnd then return
    else
      let n ← statement fuel
      grow fun t => ((), t.addChild Tree.root n)
      program fuel

def start (source : String) : Parser := ⟨.ofSource source, .empty, Scopes.global⟩

/-- Parses a source text, with as much fuel as there is. -/
def parse (fuel : Nat) (source : String) : Option (Except SyntaxError Tree) :=
  match program fuel (start source) with
  | some (.ok (_, p)) => some (.ok p.tree)
  | some (.error e) => some (.error e)
  | none => none

/-! ## Running -/

section Run

variable {α β : Type} {x : Parsing α} {f : α → Parsing β} {p q : Parser} {a : α} {e : SyntaxError}

theorem bind_ok (h : x p = some (.ok (a, q))) : (x >>= f) p = f a q := by
  show ExceptT.bindCont _ =<< x p = _
  rw [h]
  rfl

theorem bind_error (h : x p = some (.error e)) : (x >>= f) p = some (.error e) := by
  show ExceptT.bindCont _ =<< x p = _
  rw [h]
  rfl

theorem bind_none (h : x p = none) : (x >>= f) p = none := by
  show ExceptT.bindCont _ =<< x p = _
  rw [h]
  rfl

end Run

end Parser

end Lindenmayer
