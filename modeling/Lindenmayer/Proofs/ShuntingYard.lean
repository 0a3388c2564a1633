import Lindenmayer.Proofs.Planting
import Lindenmayer.Proofs.YardSteps

/-!
# The grammar of expressions is what is read

The reader never sees a derivation. It keeps two stacks, and in the middle of
an expression they hold operators that have not been applied. `Pending` says
what such a piece of the stacks amounts to: the tree that applying its
operators from the top leads to. The invariant of the induction,
`read_of_derives`, is that reading a part puts a pending piece for its tree on
top of the stacks, all of whose operators bind at least as tightly as parts of
that level do. Whatever comes next, a looser operator, a closing parenthesis or
the end, applies the piece as a whole, and one lemma (`Pending.run`) serves all
three.
-/

namespace Lindenmayer

namespace ShuntingYard

/-! ## Pieces of the stacks -/

/-- Operators and values, the top in front, that amount to one tree once the
operators are applied from the top. None binds less tightly than `p`. -/
inductive Pending (p : Nat) : List (Operator × Region) → List Expr → Expr → Prop where
  | value (e : Expr) : Pending p [] [e] e
  | operation {o : Operator} {ops : List (Operator × Region)} {vals : List Expr} {l r : Expr}
      (place : Region) (ho : o ≠ .parens) (hp : p ≤ o.precedence) (h : Pending p ops vals r) :
      Pending p (ops ++ [(o, place)]) (vals ++ [l]) (.operation o place l r)

namespace Pending

variable {p q : Nat} {ops : List (Operator × Region)} {vals : List Expr} {e : Expr}

theorem mono (hqp : q ≤ p) (h : Pending p ops vals e) : Pending q ops vals e := by
  induction h with
  | value e => exact .value e
  | operation place ho hp _ ih => exact .operation place ho (Nat.le_trans hqp hp) ih

/-- Whatever applies operators that bind as tightly as `p` applies a pending
piece as a whole. -/
theorem run {α : Type} (f : List (Operator × Region) → List Expr → α)
    (hstep : ∀ o place ops l r vals, o ≠ .parens → p ≤ o.precedence →
      f ((o, place) :: ops) (r :: l :: vals) = f ops (.operation o place l r :: vals))
    (h : Pending p ops vals e) : ∀ base below, f (ops ++ base) (vals ++ below) =
      f base (e :: below) := by
  induction h with
  | value e => intro base below; rfl
  | @operation o ops vals l r place ho hp _ ih =>
      intro base below
      rw [List.append_assoc, List.append_assoc, List.singleton_append, List.singleton_append,
        ih, hstep o place base l r below ho hp]

end Pending

/-! ## Applying a pending piece -/

/-- Whether an operator that binds as tightly as `p` would go on top of these
without applying any. -/
def Waits (p : Nat) : List (Operator × Region) → Prop
  | [] => True
  | (top, _) :: _ => top = .parens ∨ top.precedence < p

theorem waits_three (ops : List (Operator × Region)) : Waits 3 ops := by
  cases ops with
  | nil => exact trivial
  | cons op ops =>
      obtain ⟨o, place⟩ := op
      cases o with
      | parens => exact .inl rfl
      | add => exact .inr (by decide)
      | subtract => exact .inr (by decide)
      | multiply => exact .inr (by decide)
      | divide => exact .inr (by decide)

theorem waits_mono {p q : Nat} {ops : List (Operator × Region)} (hpq : p ≤ q)
    (h : Waits p ops) : Waits q ops := by
  cases ops with
  | nil => exact trivial
  | cons op ops => exact h.imp_right fun hlt => Nat.lt_of_lt_of_le hlt hpq

theorem yields_of_le {top next : Operator} (htop : top ≠ .parens) (hnext : next ≠ .parens)
    (hle : next.precedence ≤ top.precedence) : yields top next = true := by
  have hassoc : next.isLeftAssociative = true := by
    cases next with
    | parens => exact absurd rfl hnext
    | add | subtract | multiply | divide => rfl
  rw [yields, hassoc]
  rcases Nat.lt_or_eq_of_le hle with hlt | heq
  · simp [htop, hlt]
  · simp [htop, heq]

theorem applyTighter_of_waits {next : Operator} {ops : List (Operator × Region)}
    (h : Waits next.precedence ops) (vals : List Expr) :
    applyTighter next ops vals = .ok (ops, vals) := by
  cases ops with
  | nil => rw [applyTighter]
  | cons op ops =>
      obtain ⟨top, place⟩ := op
      have hno : yields top next = false := by
        rw [yields]
        rcases h with htop | hlt
        · simp [htop]
        · have hne : top.precedence ≠ next.precedence := Nat.ne_of_lt hlt
          simp [Nat.not_lt.2 (Nat.le_of_lt hlt), hne]
      rw [applyTighter, hno]
      rfl

namespace Pending

variable {p : Nat} {ops base : List (Operator × Region)} {vals below : List Expr} {e : Expr}

theorem applyTighter {next : Operator} (h : Pending p ops vals e) (hnext : next ≠ .parens)
    (hp : next.precedence ≤ p) :
    applyTighter next (ops ++ base) (vals ++ below) = applyTighter next base (e :: below) := by
  refine h.run (ShuntingYard.applyTighter next) (fun o place ops l r vals ho hpo => ?_) base below
  rw [ShuntingYard.applyTighter, yields_of_le ho hnext (Nat.le_trans hp hpo)]
  rfl

theorem closeParens (h : Pending p ops vals e) (close : Region) :
    closeParens close (ops ++ base) (vals ++ below) = closeParens close base (e :: below) := by
  refine h.run (ShuntingYard.closeParens close) (fun o place ops l r vals ho _ => ?_) base below
  rw [ShuntingYard.closeParens, if_neg ho]
  rfl

theorem applyAll (h : Pending p ops vals e) :
    applyAll (ops ++ base) (vals ++ below) = applyAll base (e :: below) := by
  refine h.run ShuntingYard.applyAll (fun o place ops l r vals ho _ => ?_) base below
  rw [ShuntingYard.applyAll, if_neg ho]
  rfl

end Pending

/-! ## Reading a derivation -/

/-- Reading these tokens puts a pending piece for the tree on the stacks,
provided nothing below it is still to be applied first. -/
def Reads (stop p : Nat) (ts : List Token) (e : Expr) : Prop :=
  ∀ (y : ShuntingYard) (rest : List Token), Waits p y.operators →
    ∃ ops vals region, Pending p ops vals e ∧
      read stop (ts ++ rest) y = read stop rest ⟨vals ++ y.values, ops ++ y.operators, region⟩

variable {stop p : Nat} {ts us : List Token} {e l r : Expr}

theorem reads_of_push {region : Region}
    (h : ∀ y rest, read stop (ts ++ rest) y = read stop rest (y.push e region)) :
    Reads stop p ts e := by
  intro y rest _
  exact ⟨[], [e], _, .value e, h y rest⟩

theorem reads_parens {opening closing : Token} (hopen : opening.kind = .parensOpen)
    (inner : Reads stop 1 ts e) (hclose : closing.kind = .parensClose) :
    Reads stop p (opening :: (ts ++ [closing])) e := by
  intro y rest _
  have hwaits : Waits 1 ((.parens, opening.region) :: y.operators) := .inl rfl
  obtain ⟨ops, vals, region, hpending, hread⟩ :=
    inner ({ y with operators := (.parens, opening.region) :: y.operators }.cover opening.region)
      (closing :: rest) hwaits
  have hpop : ShuntingYard.closeParens closing.region
      (ops ++ (.parens, opening.region) :: y.operators) (vals ++ y.values) =
      .ok (y.operators, e :: y.values) := by
    rw [hpending.closeParens, ShuntingYard.closeParens, if_pos rfl]
  have hreadc : read stop (closing :: rest)
      ⟨vals ++ y.values, ops ++ (.parens, opening.region) :: y.operators, region⟩ =
        read stop rest (cover ⟨e :: y.values, y.operators, region⟩ closing.region) :=
    read_of_step (.parensClose hclose hpop)
  have hreado : read stop (opening :: (ts ++ [closing]) ++ rest) y =
      read stop (closing :: rest)
        ⟨vals ++ y.values, ops ++ (.parens, opening.region) :: y.operators, region⟩ := by
    rw [List.cons_append, List.append_assoc, List.singleton_append,
      read_of_step (.parensOpen hopen), hread]
    rfl
  exact ⟨[], [e], _, .value e, hreado.trans hreadc⟩

/-- An operation between two parts, of which the right one binds tighter than
the operator and the left one at least as tightly. -/
theorem reads_operation {sign : Token} {o : Operator} (ho : o ≠ .parens)
    (lhs : Reads stop o.precedence ts l) (hsign : sign.isSign o)
    (rhs : Reads stop (o.precedence + 1) us r) :
    Reads stop o.precedence (ts ++ sign :: us) (.operation o sign.region l r) := by
  intro y rest hwaits
  obtain ⟨ops, vals, region, hl, hreadl⟩ := lhs y (sign :: (us ++ rest)) hwaits
  have hyield : ShuntingYard.applyTighter o (ops ++ y.operators) (vals ++ y.values) =
      .ok (y.operators, l :: y.values) := by
    rw [hl.applyTighter ho (Nat.le_refl _), applyTighter_of_waits hwaits]
  have hreado : read stop (sign :: (us ++ rest))
      ⟨vals ++ y.values, ops ++ y.operators, region⟩ = read stop (us ++ rest)
        (cover ⟨l :: y.values, (o, sign.region) :: y.operators, region⟩ sign.region) :=
    read_of_step (.operator hsign hyield)
  obtain ⟨ops', vals', region', hr, hreadr⟩ :=
    rhs (cover ⟨l :: y.values, (o, sign.region) :: y.operators, region⟩ sign.region) rest
      (.inr (Nat.lt_succ_self _))
  refine ⟨ops' ++ [(o, sign.region)], vals' ++ [l], region', ?_, ?_⟩
  · exact .operation sign.region ho (Nat.le_refl _) (hr.mono (Nat.le_succ _))
  · rw [List.append_assoc, List.cons_append, hreadl, hreado]
    rw [List.append_assoc, List.append_assoc, List.singleton_append, List.singleton_append]
    exact hreadr

/-- The invariant of reading an expression. -/
theorem read_of_derives {level : Level} (h : Derives level ts e) :
    Reads stop level.precedence ts e := by
  induction h with
  | number hkind hvalue => exact reads_of_push fun y rest => read_of_operand (.number hkind hvalue)
  | identifier hkind => exact reads_of_push fun y rest => read_of_operand (.identifier hkind)
  | @string opening closing body hopen hbody hclose =>
      refine reads_of_push fun y rest => read_of_operand (.string hopen ?_)
      have hassoc : (body ++ [closing]).append rest = body ++ closing :: rest :=
        List.append_assoc body [closing] rest
      rw [hassoc]
      exact readString_of_body hbody hclose
  | parens hopen _ hclose ih => exact reads_parens hopen ih hclose
  | ofFactor _ ih =>
      intro y rest _
      obtain ⟨ops, vals, region, hpending, hread⟩ := ih y rest (waits_three _)
      exact ⟨ops, vals, region, hpending.mono (by decide), hread⟩
  | product _ ho hsign _ ihl ihr =>
      rcases ho with rfl | rfl
      · exact reads_operation (by decide) ihl hsign ihr
      · exact reads_operation (by decide) ihl hsign ihr
  | ofTerm _ ih =>
      intro y rest hwaits
      obtain ⟨ops, vals, region, hpending, hread⟩ := ih y rest (waits_mono (by decide) hwaits)
      exact ⟨ops, vals, region, hpending.mono (by decide), hread⟩
  | sum _ ho hsign _ ihl ihr =>
      rcases ho with rfl | rfl
      · exact reads_operation (by decide) ihl hsign ihr
      · exact reads_operation (by decide) ihl hsign ihr
  | blankBefore hkind _ ih =>
      intro y rest hwaits
      obtain ⟨ops, vals, region, hpending, hread⟩ := ih y rest hwaits
      exact ⟨ops, vals, region, hpending, (read_of_step (.blank hkind)).trans hread⟩
  | blankAfter _ hkind ih =>
      intro y rest hwaits
      obtain ⟨ops, vals, region, hpending, hread⟩ := ih y (_ :: rest) hwaits
      refine ⟨ops, vals, region, hpending, ?_⟩
      rw [List.append_assoc, List.singleton_append, hread, read_of_step (.blank hkind)]

end ShuntingYard

/-- An expression of the grammar is read as its tree, up to where it ends. -/
theorem readExpression_eq {stop : Nat} {ts rest : List Token} {e : Expr}
    (h : Derives .sum ts e) (hend : EndsExpression rest) :
    ∃ region, readExpression stop (ts ++ rest) = .ok (⟨e, region⟩, rest) := by
  have hreads : ShuntingYard.Reads stop 1 ts e := ShuntingYard.read_of_derives h
  obtain ⟨ops, vals, region, hpending, hread⟩ := hreads .empty rest trivial
  have hall : ShuntingYard.applyAll (ops ++ []) (vals ++ []) = .ok [e] := by
    rw [hpending.applyAll, ShuntingYard.applyAll]
  rw [ShuntingYard.read_end hend] at hread
  rw [readExpression, hread]
  simp only [ShuntingYard.finish, ShuntingYard.empty, hall]
  exact ⟨_, rfl⟩

/-- Every infix expression is read as the tree of its derivation, reading stops
in front of what ends it, and the node made of it is the root of that tree. -/
theorem readExpression_of_derives {stop : Nat} {ts rest : List Token} {e : Expr}
    (h : Derives .sum ts e) (hend : EndsExpression rest) :
    ∃ region, readExpression stop (ts ++ rest) = .ok (⟨e, region⟩, rest) ∧
      ∀ (scope : ScopeId) (t : Tree), t.WellLinked →
        e.Shows scope ((t.plantExpr scope e).2.subtree (t.plantExpr scope e).1) := by
  obtain ⟨region, hread⟩ := readExpression_eq h hend
  exact ⟨region, hread, fun scope t hw => (Tree.plantExpr_shows scope e hw).2⟩

/-- The tokens of `7 - (2+x)*"a"` derive what one would expect. -/
theorem derives_difference :
    Derives .sum (Token.scan "7 - (2+x)*\"a\"")
      (.operation .subtract ⟨2, 1⟩ (.number (.integer 7) ⟨0, 1⟩)
        (.operation .multiply ⟨9, 1⟩
          (.operation .add ⟨6, 1⟩ (.number (.integer 2) ⟨5, 1⟩) (.identifier "x" ⟨7, 1⟩))
          (.string "a" ⟨10, 3⟩))) := by
  have hscan : Token.scan "7 - (2+x)*\"a\"" =
      [⟨.number, "7", 0⟩, ⟨.whitespace, " ", 1⟩, ⟨.operator, "-", 2⟩, ⟨.whitespace, " ", 3⟩,
        ⟨.parensOpen, "(", 4⟩, ⟨.number, "2", 5⟩, ⟨.operator, "+", 6⟩, ⟨.identifier, "x", 7⟩,
        ⟨.parensClose, ")", 8⟩, ⟨.operator, "*", 9⟩, ⟨.quote, "\"", 10⟩, ⟨.identifier, "a", 11⟩,
        ⟨.quote, "\"", 12⟩] := by decide +kernel
  have hseven : Number.ofLiteral? "7" = some (.integer 7) := rfl
  have htwo : Number.ofLiteral? "2" = some (.integer 2) := rfl
  have hinner := Derives.sum (.ofTerm (.ofFactor (@Derives.number ⟨.number, "2", 5⟩ _ rfl htwo)))
    (.inl rfl) (⟨rfl, rfl⟩ : Token.isSign ⟨.operator, "+", 6⟩ .add)
    (.ofFactor (@Derives.identifier ⟨.identifier, "x", 7⟩ rfl))
  have hparens := Derives.parens (rfl : (⟨.parensOpen, "(", 4⟩ : Token).kind = _) hinner
    (rfl : (⟨.parensClose, ")", 8⟩ : Token).kind = _)
  have hstring := @Derives.string ⟨.quote, "\"", 10⟩ ⟨.quote, "\"", 12⟩ [⟨.identifier, "a", 11⟩] rfl
    (by decide) ⟨rfl, rfl⟩
  have hproduct := Derives.product (.ofFactor hparens) (.inl rfl)
    (⟨rfl, rfl⟩ : Token.isSign ⟨.operator, "*", 9⟩ .multiply) hstring
  have hseven := (Derives.ofTerm
      (.ofFactor (@Derives.number ⟨.number, "7", 0⟩ _ rfl hseven))).blankAfter
    (rfl : (⟨.whitespace, " ", 1⟩ : Token).kind = _)
  rw [hscan]
  exact .sum hseven (.inr rfl) (⟨rfl, rfl⟩ : Token.isSign ⟨.operator, "-", 2⟩ .subtract)
    (.blankBefore rfl hproduct)

theorem readExpression_of_derives_difference :
    ∃ region, readExpression 13 (Token.scan "7 - (2+x)*\"a\"" ++ []) =
      .ok (⟨.operation .subtract ⟨2, 1⟩ (.number (.integer 7) ⟨0, 1⟩)
        (.operation .multiply ⟨9, 1⟩
          (.operation .add ⟨6, 1⟩ (.number (.integer 2) ⟨5, 1⟩) (.identifier "x" ⟨7, 1⟩))
          (.string "a" ⟨10, 3⟩)), region⟩, []) := by
  obtain ⟨region, hread, _⟩ := @readExpression_of_derives 13 _ [] _ derives_difference trivial
  exact ⟨region, hread⟩

end Lindenmayer
