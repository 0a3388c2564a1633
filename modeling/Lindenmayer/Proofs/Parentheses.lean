import Lindenmayer.Proofs.Chains
import Lindenmayer.Proofs.Expressions
import Lindenmayer.Proofs.NumberTexts
import Lindenmayer.Proofs.RoundTrip

/-!
# Printed parentheses are needed

Any pair of parentheses in the text of an expression can be taken out, and what is left is an
expression again, but another one (`Tree.parens_needed`).

That it is one does not depend on where the pair was. It may well be that much around the pair
is grouped in another way then, operands of operations far outside included. But the text is a
chain of factors still, and in a chain nothing is grouped (`chain_without`).

That it is another one is seen by counting. An expression can only be derived from tokens with
all the parentheses that it needs (`Derives.openings_le`), and a printed text has just those
(`count_print`), so with one pair less it has too few. Parentheses in strings count like all
others, on both sides; that the rest are those around operands is `length_parens`.
-/

namespace Lindenmayer

open Lindenmayer.Text (isDigit)

/-! ## Pairs of parentheses in a text -/

/-- A pair of parentheses in a text. -/
structure Parens where
  before : List Char
  inner : List Char
  after : List Char
  deriving DecidableEq

namespace Parens

def text (p : Parens) : List Char := p.before ++ '(' :: p.inner ++ ')' :: p.after

/-- The text without the pair. -/
def without (p : Parens) : List Char := p.before ++ p.inner ++ p.after

/-- The pair with more of a text around it. -/
def within (front back : List Char) (p : Parens) : Parens :=
  ⟨front ++ p.before, p.inner, p.after ++ back⟩

theorem text_within (front back : List Char) (p : Parens) :
    (p.within front back).text = front ++ p.text ++ back := by
  simp [text, within]

theorem without_within (front back : List Char) (p : Parens) :
    (p.within front back).without = front ++ p.without ++ back := by
  simp [without, within]

theorem count_text (p : Parens) : p.text.count '(' = p.without.count '(' + 1 := by
  have hclose : (')' :: p.after).count '(' = p.after.count '(' := List.count_cons_of_ne (by decide)
  simp only [text, without, List.count_append, List.count_cons_self, hclose]
  omega

theorem length_before_lt (p : Parens) : p.before.length < p.text.length := by
  simp [text]

end Parens

namespace Subtree

/-- The pairs in the text of an operand: one around it, if it needs one, and those in it. -/
def operandParens (around : Operator) (onRight : Bool) (operand : Subtree) (printed : List Char)
    (inside : List Parens) : List Parens :=
  if needsParens around onRight operand then
    ⟨[], printed, []⟩ :: inside.map (.within ['('] [')'])
  else inside

/-- The pairs in the text of an operation: those in its operands. -/
def operationParens (operator : Operator) (lhs rhs : List Char) (left right : List Parens) :
    List Parens :=
  left.map (.within [] (' ' :: operator.symbol.toList ++ ' ' :: rhs)) ++
    right.map (.within (lhs ++ ' ' :: operator.symbol.toList ++ [' ']) [])

/-- The pairs of parentheses that are put when an expression is printed, from left to right. -/
def parens : Subtree → List Parens
  | node _ .expression _ [value] => value.parens
  | node _ (.operation operator) _ [lhs, rhs] =>
    operationParens operator (operandText operator false lhs (lhs.print 0))
      (operandText operator true rhs (rhs.print 0))
      (operandParens operator false lhs (lhs.print 0) lhs.parens)
      (operandParens operator true rhs (rhs.print 0) rhs.parens)
  | _ => []

section Operands

variable {around operator : Operator} {onRight : Bool} {operand : Subtree}
  {printed lhs rhs : List Char} {inside left right : List Parens}

theorem text_of_mem_operandParens (h : ∀ p ∈ inside, p.text = printed) :
    ∀ p ∈ operandParens around onRight operand printed inside,
      p.text = operandText around onRight operand printed := by
  rw [operandParens, operandText]
  split
  · refine List.forall_mem_cons.2 ⟨rfl, List.forall_mem_map.2 fun p hp => ?_⟩
    rw [Parens.text_within, h p hp]
    rfl
  · exact h

theorem text_of_mem_operationParens (hl : ∀ p ∈ left, p.text = lhs)
    (hr : ∀ p ∈ right, p.text = rhs) : ∀ p ∈ operationParens operator lhs rhs left right,
      p.text = lhs ++ ' ' :: operator.symbol.toList ++ ' ' :: rhs := by
  refine List.forall_mem_append.2 ⟨List.forall_mem_map.2 fun p hp => ?_,
    List.forall_mem_map.2 fun p hp => ?_⟩
  · rw [Parens.text_within, hl p hp]
    simp
  · rw [Parens.text_within, hr p hp]
    simp

theorem pairwise_operandParens
    (h : inside.Pairwise fun p q => p.before.length < q.before.length) :
    (operandParens around onRight operand printed inside).Pairwise fun p q =>
      p.before.length < q.before.length := by
  rw [operandParens]
  split
  · refine List.pairwise_cons.2 ⟨List.forall_mem_map.2 fun p _ => Nat.succ_pos _, ?_⟩
    exact List.pairwise_map.2 (h.imp Nat.succ_lt_succ)
  · exact h

theorem pairwise_operationParens (htext : ∀ p ∈ left, p.text = lhs)
    (hl : left.Pairwise fun p q => p.before.length < q.before.length)
    (hr : right.Pairwise fun p q => p.before.length < q.before.length) :
    (operationParens operator lhs rhs left right).Pairwise fun p q =>
      p.before.length < q.before.length := by
  refine List.pairwise_append.2 ⟨List.pairwise_map.2 hl, List.pairwise_map.2 (hr.imp ?_), ?_⟩
  · intro p q hlt
    simp only [Parens.within, List.length_append]
    omega
  · refine List.forall_mem_map.2 fun p hp => List.forall_mem_map.2 fun q _ => ?_
    have hlt := p.length_before_lt
    rw [htext p hp] at hlt
    simp only [Parens.within, List.length_append, List.length_nil, List.length_cons]
    omega

end Operands

/-- The pairs are in the text that is printed. -/
theorem text_of_mem_parens (s : Subtree) : ∀ p ∈ s.parens, p.text = s.print 0 := by
  fun_induction parens s with
  | case1 id region value ih =>
      rw [print, printAll, printAll, List.append_nil]
      exact ih
  | case2 id operator region lhs rhs ihl ihr =>
      rw [print, printOperation]
      exact text_of_mem_operationParens (text_of_mem_operandParens ihl)
        (text_of_mem_operandParens ihr)
  | case3 => exact fun p hp => absurd hp List.not_mem_nil

/-- The pairs are in the order of their opening parentheses. -/
theorem pairwise_parens (s : Subtree) :
    s.parens.Pairwise fun p q => p.before.length < q.before.length := by
  fun_induction parens s with
  | case1 id region value ih => exact ih
  | case2 id operator region lhs rhs ihl ihr =>
      exact pairwise_operationParens (text_of_mem_operandParens (text_of_mem_parens lhs))
        (pairwise_operandParens ihl) (pairwise_operandParens ihr)
  | case3 => exact .nil

end Subtree

/-! ## How many parentheses an expression needs -/

/-- How many opening parentheses an expression needs to stand at a level. -/
def Expr.raised (level : Level) (e : Expr) : ℕ :=
  if e.level.precedence < level.precedence then 1 else 0

/-- How many opening parentheses are in the text of an expression, with those in strings. -/
def Expr.openings : Expr → ℕ
  | .string s _ => s.toList.count '('
  | .operation operator _ lhs rhs =>
    lhs.raised operator.level + lhs.openings +
      (rhs.raised operator.level.tighter + rhs.openings)
  | _ => 0

theorem Expr.raised_eq_zero {level : Level} {e : Expr}
    (h : level.precedence ≤ e.level.precedence) : e.raised level = 0 :=
  if_neg (Nat.not_lt.2 h)

theorem Expr.raised_le_one (level : Level) (e : Expr) : e.raised level ≤ 1 := by
  rw [raised]
  split
  · exact Nat.le_refl 1
  · exact Nat.zero_le 1

theorem Expr.raised_mono {level level' : Level} (e : Expr)
    (h : level.precedence ≤ level'.precedence) : e.raised level ≤ e.raised level' := by
  rw [raised, raised]
  split
  · next hlt => rw [if_pos (Nat.lt_of_lt_of_le hlt h)]
  · exact Nat.zero_le _

theorem Expr.raised_add_openings_le {level : Level} {e : Expr} {n : ℕ}
    (h : level.precedence ≤ e.level.precedence) (hn : e.openings ≤ n) :
    e.raised level + e.openings ≤ n := by
  rw [raised_eq_zero h, Nat.zero_add]
  exact hn

theorem count_stringContent_le (ts : List Token) :
    (stringContent ts).toList.count '(' ≤ (ts.flatMap fun t => t.text.toList).count '(' := by
  induction ts with
  | nil => exact Nat.le_refl _
  | cons t ts ih =>
      rw [stringContent, List.flatMap_cons, List.count_append]
      split
      · exact Nat.le_add_left_of_le ih
      · rw [String.toList_append, List.count_append]
        exact Nat.add_le_add_left ih _

/-- Tokens have all the opening parentheses that an expression needs that is derived from
them. -/
theorem Derives.openings_le {level : Level} {ts : List Token} {e : Expr} (h : Derives level ts e)
    (hts : ∀ t ∈ ts, t.Lexical) :
    e.raised level + e.openings ≤ (ts.flatMap fun t => t.text.toList).count '(' := by
  induction h with
  | number | identifier => exact Nat.zero_le _
  | @string opening closing body =>
      refine Expr.raised_add_openings_le (Nat.le_refl _) ((count_stringContent_le body).trans ?_)
      rw [List.flatMap_cons, List.flatMap_append, List.count_append, List.count_append]
      omega
  | @parens opening closing ts e hopen _ _ ih =>
      have hone : opening.text.toList = ['('] :=
        Token.IsLexeme.of_parensOpen (hts _ List.mem_cons_self) hopen
      have hinner := ih fun t ht => hts t (List.mem_cons_of_mem _ (List.mem_append_left _ ht))
      have hraised := e.raised_le_one .factor
      rw [List.flatMap_cons, List.flatMap_append, hone, List.count_append, List.count_append,
        List.count_singleton_self]
      omega
  | ofFactor _ ih | ofTerm _ ih =>
      exact (Nat.add_le_add_right (Expr.raised_mono _ (by decide)) _).trans (ih hts)
  | product _ ho _ _ ihl ihr | sum _ ho _ _ ihl ihr =>
      have hl := ihl fun t ht => hts t (List.mem_append_left _ ht)
      have hr := ihr fun t ht => hts t (List.mem_append_right _ (List.mem_cons_of_mem _ ht))
      rw [List.flatMap_append, List.flatMap_cons, List.count_append, List.count_append]
      -- The level of the operation is this one, so it needs no parentheses around it.
      rcases ho with rfl | rfl
      all_goals
        refine Expr.raised_add_openings_le (Nat.le_refl _) ?_
        exact Nat.add_le_add hl (Nat.le_add_left_of_le hr)
  | blankBefore _ _ ih =>
      rw [List.flatMap_cons, List.count_append]
      exact Nat.le_add_left_of_le (ih fun t ht => hts t (List.mem_cons_of_mem _ ht))
  | blankAfter _ _ ih =>
      rw [List.flatMap_append, List.count_append]
      exact Nat.le_add_right_of_le (ih fun t ht => hts t (List.mem_append_left _ ht))

theorem Token.IsLexeme.count_eq_zero {kind : TokenKind} {w : List Char} (h : IsLexeme kind w)
    (hkind : kind ≠ .parensOpen) : w.count '(' = 0 :=
  List.count_eq_zero.2 fun hmem =>
    hkind (h.of_isDelimiter hmem (by decide) (by decide) (by decide)).1

/-- The string that a node stands for, if it stands for one. -/
def NodeKind.string? : NodeKind → Option String
  | .string s => some s
  | _ => none

namespace Subtree

/-- What the strings in a subtree say, from left to right. -/
def strings (s : Subtree) : List String := s.kinds.filterMap NodeKind.string?

theorem count_quotedLiteral (s : String) : (quotedLiteral s).count '(' = s.toList.count '(' := by
  have hquote : ∀ q : Char, q ≠ '(' → (q :: s.toList ++ [q]).count '(' = s.toList.count '(' := by
    intro q hq
    rw [List.count_append, List.count_cons_of_ne hq, List.count_cons_of_ne hq, List.count_nil,
      Nat.add_zero]
  rw [quotedLiteral]
  split
  · exact hquote _ (by decide)
  · exact hquote _ (by decide)

section Operands

variable {around : Operator} (haround : around ≠ .parens) (onRight : Bool) {scope : ScopeId}
  {e : Expr} {s : Subtree} (he : e.WellWritten) (hs : e.Shows scope s)

include haround he hs

theorem count_operandText (cs : List Char) : (operandText around onRight s cs).count '(' =
      e.raised (operandLevel around onRight) + cs.count '(' := by
  rw [operandText, needsParens_of_shows haround onRight he hs, Expr.raised]
  simp only [decide_eq_true_eq]
  split
  · rw [List.cons_append, List.count_cons_self, List.count_append,
      List.count_cons_of_ne (by decide), List.count_nil, Nat.add_zero, Nat.add_comm]
  · rw [Nat.zero_add]

theorem length_operandParens (printed : List Char) (inside : List Parens) :
    (operandParens around onRight s printed inside).length =
      e.raised (operandLevel around onRight) + inside.length := by
  rw [operandParens, needsParens_of_shows haround onRight he hs, Expr.raised]
  simp only [decide_eq_true_eq]
  split
  · rw [List.length_cons, List.length_map, Nat.add_comm]
  · rw [Nat.zero_add]

end Operands

end Subtree

/-- There are just the opening parentheses in a printed expression that it needs. -/
theorem count_print {scope : ScopeId} (e : Expr) : ∀ {s : Subtree}, e.WellWritten →
    e.Shows scope s → s.Every NodeKind.FloatPlain → (s.print 0).count '(' = e.openings := by
  induction e with
  | number n region =>
      rintro s he ⟨id, rfl⟩ hplain
      rw [Subtree.print]
      exact (readsBack_of_floatPlain he hplain.1).1.count_eq_zero (by decide)
  | string str region =>
      rintro s he ⟨id, rfl⟩ _
      rw [Subtree.print]
      exact Subtree.count_quotedLiteral str
  | identifier name region =>
      rintro s he ⟨id, rfl⟩ _
      rw [Subtree.print]
      exact Token.IsLexeme.count_eq_zero he (by decide)
  | operation o region lhs rhs ihl ihr =>
      rintro s ⟨ho, hel, her⟩ ⟨id, l, r, rfl, hsl, hsr⟩ ⟨_, hpl, hpr, _⟩
      have hsign := (Token.isLexeme_symbol ho).count_eq_zero (by decide)
      have hl := Subtree.count_operandText ho false hel hsl (l.print 0)
      have hr := Subtree.count_operandText ho true her hsr (r.print 0)
      rw [ihl hel hsl hpl] at hl
      rw [ihr her hsr hpr] at hr
      have hblank : ∀ cs : List Char, (' ' :: cs).count '(' = cs.count '(' := fun cs =>
        List.count_cons_of_ne (by decide)
      rw [Subtree.print, Subtree.printOperation]
      simp only [List.count_append, hblank, hl, hr, hsign, Nat.add_zero]
      rfl

/-- All opening parentheses that are not in strings are those of pairs. -/
theorem length_parens {scope : ScopeId} (e : Expr) : ∀ {s : Subtree}, e.WellWritten →
    e.Shows scope s →
    s.parens.length + (s.strings.map fun str => str.toList.count '(').sum = e.openings := by
  induction e with
  | number | identifier =>
      rintro s _ ⟨id, rfl⟩
      rfl
  | string str region =>
      rintro s _ ⟨id, rfl⟩
      exact Nat.zero_add _
  | operation o region lhs rhs ihl ihr =>
      rintro s ⟨ho, hel, her⟩ ⟨id, l, r, rfl, hsl, hsr⟩
      have hstrings : (Subtree.node id (.operation o) region [l, r]).strings =
          l.strings ++ r.strings := by
        rw [Subtree.strings, Subtree.kinds, Subtree.kindsAll, Subtree.kindsAll, Subtree.kindsAll,
          List.append_nil, List.filterMap_cons_none rfl, List.filterMap_append]
        rfl
      rw [hstrings, Subtree.parens, Subtree.operationParens, List.length_append, List.length_map,
        List.length_map, Subtree.length_operandParens ho false hel hsl,
        Subtree.length_operandParens ho true her hsr, List.map_append, List.sum_append,
        Expr.openings, ← ihl hel hsl, ← ihr her hsr, operandLevel, operandLevel]
      simp only [if_true, Bool.false_eq_true, if_false]
      omega

/-! ## Texts without a pair -/

theorem Written.chain {level : Level} {e : Expr} {cs : List Char} (h : Written level e cs) :
    Scans Chain cs := by
  refine h.imp fun ts hts => ?_
  obtain ⟨e', hderives, _⟩ := hts
  exact hderives.chain

namespace Scans

variable {cs ds : List Char} {around o : Operator} {onRight : Bool} {operand : Subtree}
  {inside left right : List Parens}

theorem chain_parens (h : Scans Chain cs) : Scans Chain ('(' :: cs ++ [')']) := by
  refine h.parens fun opening ts closing hopen hts hclose => ?_
  obtain ⟨e, hderives⟩ := hts.exists_derives
  exact .factor (.parens hopen hderives hclose)

theorem chain_operation (ho : o ≠ .parens) (hl : Scans Chain cs) (hr : Scans Chain ds) :
    Scans Chain (cs ++ ' ' :: o.symbol.toList ++ ' ' :: ds) :=
  hl.operation ho hr fun _ _ _ _ _ hts hbefore hsign hafter hus =>
    (hts.blankAfter hbefore).append ho hsign (hus.blankBefore hafter)

theorem chain_operandParens (h : Scans Chain cs) (hinside : ∀ p ∈ inside, Scans Chain p.without) :
    ∀ p ∈ Subtree.operandParens around onRight operand cs inside, Scans Chain p.without := by
  rw [Subtree.operandParens]
  split
  · refine List.forall_mem_cons.2 ⟨?_, List.forall_mem_map.2 fun p hp => ?_⟩
    · rw [Parens.without, List.nil_append, List.append_nil]
      exact h
    · rw [Parens.without_within]
      exact (hinside p hp).chain_parens
  · exact hinside

theorem chain_operationParens (ho : o ≠ .parens) (hl : Scans Chain cs) (hr : Scans Chain ds)
    (hleft : ∀ p ∈ left, Scans Chain p.without) (hright : ∀ p ∈ right, Scans Chain p.without) :
    ∀ p ∈ Subtree.operationParens o cs ds left right, Scans Chain p.without := by
  refine List.forall_mem_append.2 ⟨List.forall_mem_map.2 fun p hp => ?_,
    List.forall_mem_map.2 fun p hp => ?_⟩
  · rw [Parens.without_within, List.nil_append, ← List.append_assoc]
    exact chain_operation ho (hleft p hp) hr
  · rw [Parens.without_within, List.append_nil, List.append_assoc _ [' '], List.singleton_append]
    exact chain_operation ho hl (hright p hp)

end Scans

/-- Without a pair of parentheses a printed expression is a chain still. -/
theorem chain_without {scope : ScopeId} (e : Expr) : ∀ {s : Subtree}, e.WellWritten →
    e.Shows scope s → s.Every NodeKind.FloatPlain → ∀ p ∈ s.parens, Scans Chain p.without := by
  induction e with
  | number | string | identifier =>
      rintro s _ ⟨id, rfl⟩ _ p hp
      exact absurd hp List.not_mem_nil
  | operation o region lhs rhs ihl ihr =>
      rintro s ⟨ho, hel, her⟩ ⟨id, l, r, rfl, hsl, hsr⟩ ⟨_, hpl, hpr, _⟩
      have hl := written_print 0 lhs hel hsl hpl
      have hr := written_print 0 rhs her hsr hpr
      rw [Subtree.parens]
      exact Scans.chain_operationParens ho (written_operandText ho false hel hsl hl).chain
        (written_operandText ho true her hsr hr).chain
        (Scans.chain_operandParens hl.chain (ihl hel hsl hpl))
        (Scans.chain_operandParens hr.chain (ihr her hsr hpr))

/-- Without a pair of parentheses a text is an expression that needs fewer. -/
theorem exists_derives_without {scope : ScopeId} {e : Expr} {s : Subtree} (he : e.WellWritten)
    (hs : e.Shows scope s) (hplain : s.Every NodeKind.FloatPlain) {p : Parens}
    (hp : p ∈ s.parens) : ∃ t ts e', Token.scan (String.ofList p.without) = t :: ts ∧
      Statement.StartsValue t ∧ Derives .sum (t :: ts) e' ∧ e'.openings < e.openings := by
  obtain ⟨t, ts, hscan, hstart, hchain⟩ := chain_without e he hs hplain p hp 0 [] nofun
  obtain ⟨e', hderives⟩ := hchain.exists_derives
  rw [List.append_nil, Token.scanFrom, List.append_nil] at hscan
  have hlexical : ∀ u ∈ t :: ts, u.Lexical := by
    rw [← hscan]
    exact fun u hu => Token.lexical_of_mem_scanFrom hu
  have hle := hderives.openings_le hlexical
  rw [← hscan, Token.flatMap_text_scanFrom, Expr.raised_eq_zero (sum_le_precedence _),
    Nat.zero_add] at hle
  have hcount := p.count_text
  rw [s.text_of_mem_parens p hp, count_print e he hs hplain] at hcount
  refine ⟨t, ts, e', ?_, hstart, hderives, by omega⟩
  rw [Token.scan, String.toList_ofList, hscan]

/-! ## What stands where -/

/-- What a node stands for, wherever its names are looked up. -/
def NodeKind.unscoped : NodeKind → NodeKind
  | .root _ => .root Scopes.global
  | .assignment name _ => .assignment name Scopes.global
  | .block _ => .block Scopes.global
  | .identifier name _ => .identifier name Scopes.global
  | kind => kind

namespace Subtree

mutual

/-- A subtree without the names of its nodes, their regions and their scopes. -/
def form : Subtree → Subtree
  | node _ kind _ children => .saying kind.unscoped (formAll children)

def formAll : List Subtree → List Subtree
  | [] => []
  | s :: more => form s :: formAll more

end

end Subtree

theorem Expr.Shows.form_eq {scope : ScopeId} {e : Expr} : ∀ {s : Subtree}, e.Shows scope s →
    s.form = e.content Scopes.global := by
  induction e with
  | number | string | identifier =>
      rintro s ⟨id, rfl⟩
      rfl
  | operation operator region lhs rhs ihl ihr =>
      rintro s ⟨id, l, r, rfl, hl, hr⟩
      rw [Subtree.form, Subtree.formAll, Subtree.formAll, Subtree.formAll, ihl hl, ihr hr]
      rfl

/-- An expression is told from its content, regions aside. -/
theorem Expr.bare_eq_of_content {scope : ScopeId} {e e' : Expr}
    (h : e.content scope = e'.content scope) : e.bare = e'.bare := by
  induction e generalizing e' with
  | number | string | identifier =>
      cases e' <;> simp_all [content, Subtree.saying, bare]
  | operation operator region lhs rhs ihl ihr =>
      cases e' with
      | operation operator' region' lhs' rhs' =>
          simp only [content, Subtree.saying, Subtree.node.injEq, NodeKind.operation.injEq,
            List.cons.injEq, true_and, and_true] at h
          rw [bare, bare, h.1, ihl h.2.1, ihr h.2.2]
      | _ => simp [content, Subtree.saying] at h

theorem Expr.level_bare (e : Expr) : e.bare.level = e.level := by
  cases e <;> rfl

theorem Expr.openings_bare (e : Expr) : e.bare.openings = e.openings := by
  induction e with
  | number | string | identifier => rfl
  | operation operator region lhs rhs ihl ihr =>
      rw [bare, openings, openings, ihl, ihr, raised, raised, raised, raised, level_bare,
        level_bare]

/-! ## Numbers with their digits in place -/

/-- Whether a double is written as digits, a point and digits. -/
def InDigits (x : Float) : Prop :=
  ∃ whole fraction, whole ≠ [] ∧ fraction ≠ [] ∧ (∀ c ∈ whole ++ fraction, isDigit c = true) ∧
    (Number.float x).text.toList = whole ++ '.' :: fraction

namespace Tree

variable {source : String} {t : Tree} {n : NodeId}

theorem plainlyWritten_of_inDigits (h : ofSource source = .ok t) {x : Float}
    (hn : t.kind n = .number (.float x)) (hx : InDigits x) : PlainlyWritten x := by
  obtain ⟨token, htoken, hkind, hvalue, _⟩ := exists_token_of_number h hn
  have hlexeme : Token.IsLexeme token.kind token.text.toList := Token.lexical_of_mem_scanFrom htoken
  rw [hkind] at hlexeme
  obtain ⟨bits, hbits, rfl⟩ := exists_bits_of_ofLiteral? hlexeme hvalue
  refine ((plainlyWritten_or_not_isLexeme hbits).resolve_right fun hnot => hnot.2 ?_).2
  obtain ⟨whole, fraction, hwhole, hfraction, hdigits, htext⟩ := hx
  rw [htext]
  exact .of_point hwhole hfraction hdigits

theorem every_floatPlain (h : ofSource source = .ok t)
    (hplain : ∀ m ∈ (t.subtree n).preorder, ∀ x, t.kind m = .number (.float x) → InDigits x) :
    (t.subtree n).Every NodeKind.FloatPlain := by
  refine (Subtree.every_iff _).2 fun kind hkind x hx => ?_
  rw [subtree, ← kinds_subtreeWithin] at hkind
  obtain ⟨m, hm, rfl⟩ := List.mem_map.1 hkind
  exact plainlyWritten_of_inDigits h hx (hplain m hm x hx)

/-- The opening parentheses in a printed expression are those in strings and those of pairs
around operands. Without such a pair the text is read as another expression. -/
theorem parens_needed (h : ofSource source = .ok t) (hn : t.kind n = .expression)
    (hplain : ∀ m ∈ (t.subtree n).preorder, ∀ x, t.kind m = .number (.float x) → InDigits x) :
    (t.print n).toList.count '(' = (t.subtree n).parens.length +
        ((t.subtree n).strings.map fun str => str.toList.count '(').sum ∧
    ((t.subtree n).parens.Pairwise fun p q => p.before.length < q.before.length) ∧
    ∀ p ∈ (t.subtree n).parens, (t.print n).toList = p.before ++ '(' :: p.inner ++ ')' :: p.after ∧
      ∃ t' outer statement full expression,
        ofSource (String.ofList (p.before ++ p.inner ++ p.after)) = .ok t' ∧
        t'.subtree root =
          .node root (.root Scopes.global) outer [.node statement .statement full [expression]] ∧
        expression.kind = .expression ∧ expression.form ≠ (t.subtree n).form := by
  obtain ⟨scope, e, he, id, value, hsub, hvalue⟩ := exists_expression h hn
  have hevery := every_floatPlain h hplain
  rw [hsub] at hevery
  have hprint : (t.print n).toList = value.print 0 := by
    rw [print, hsub, Subtree.print, Subtree.printAll, Subtree.printAll, List.append_nil,
      String.toList_ofList]
  have hstrings : (t.subtree n).strings = value.strings := by
    rw [hsub, Subtree.strings, Subtree.kinds, Subtree.kindsAll, Subtree.kindsAll, List.append_nil]
    rfl
  have hparens : (t.subtree n).parens = value.parens := by rw [hsub, Subtree.parens]
  rw [hparens, hstrings, hprint]
  refine ⟨?_, value.pairwise_parens, fun p hp => ⟨(value.text_of_mem_parens p hp).symm, ?_⟩⟩
  · rw [count_print _ he hvalue hevery.2.1, length_parens _ he hvalue]
  · obtain ⟨token, ts, e', hscan, hstart, hderives, hlt⟩ :=
      exists_derives_without he hvalue hevery.2.1 hp
    obtain ⟨t', outer, statement, full, id', region, value', ht', hroot, hvalue'⟩ :=
      exists_of_derives hscan hstart hderives
    refine ⟨t', outer, statement, full, _, ht', hroot, rfl, fun hsame => ?_⟩
    rw [hsub, Subtree.form, Subtree.form, Subtree.formAll, Subtree.formAll, Subtree.formAll,
      Subtree.formAll, hvalue'.form_eq, hvalue.form_eq] at hsame
    have hcontent : e'.content Scopes.global = e.value.content Scopes.global := by
      simpa [Subtree.saying] using hsame
    rw [← Expr.openings_bare, Expr.bare_eq_of_content hcontent, Expr.openings_bare] at hlt
    exact Nat.lt_irrefl _ hlt

/-- A pair within another, and a parenthesis in a string. -/
theorem parens_needed_difference : ∃ t, ofSource "x - (y - (0.5 + 2)) * 'f('" = .ok t ∧
    t.kind ⟨10⟩ = .expression ∧ (t.print ⟨10⟩).toList.count '(' = 3 ∧
    (∃ t' outer statement full expression,
      ofSource "x - y - (0.5 + 2) * \"f(\"" = .ok t' ∧ t'.subtree root =
        .node root (.root Scopes.global) outer [.node statement .statement full [expression]] ∧
      expression.kind = .expression ∧ expression.form ≠ (t.subtree ⟨10⟩).form) ∧
    ∃ t' outer statement full expression,
      ofSource "x - (y - 0.5 + 2) * \"f(\"" = .ok t' ∧ t'.subtree root =
        .node root (.root Scopes.global) outer [.node statement .statement full [expression]] ∧
      expression.kind = .expression ∧ expression.form ≠ (t.subtree ⟨10⟩).form := by
  have hcheck : (ofSource "x - (y - (0.5 + 2)) * 'f('").toOption.any (fun t =>
      (t.kind ⟨10⟩).isExpression ∧ (t.subtree ⟨10⟩).strings = ["f("] ∧
      (t.subtree ⟨10⟩).parens =
        [⟨"x - ".toList, "y - (0.5 + 2)".toList, " * \"f(\"".toList⟩,
          ⟨"x - (y - ".toList, "0.5 + 2".toList, ") * \"f(\"".toList⟩] ∧
      ∀ m ∈ (t.subtree ⟨10⟩).preorder, (t.kind m).float?.all fun x => x = 0.5) = true := by
    decide +kernel
  obtain ⟨t, ht, hfacts⟩ := exists_of_checked hcheck
  obtain ⟨hkind, hstrings, hparens, hhalf⟩ := of_decide_eq_true hfacts
  have hn : t.kind ⟨10⟩ = .expression := NodeKind.isExpression_iff.1 hkind
  have hplain : ∀ m ∈ (t.subtree ⟨10⟩).preorder, ∀ x, t.kind m = .number (.float x) →
      InDigits x := by
    intro m hm x hx
    have heq := hhalf m hm
    rw [hx] at heq
    rw [of_decide_eq_true heq]
    exact plainlyWritten_half.1
  obtain ⟨hcount, _, hneeded⟩ := parens_needed ht hn hplain
  rw [hparens, hstrings] at hcount
  rw [hparens] at hneeded
  have houter := (hneeded _ List.mem_cons_self).2
  have hinner := (hneeded _ (List.mem_cons_of_mem _ List.mem_cons_self)).2
  have houterText : String.ofList ("x - ".toList ++ "y - (0.5 + 2)".toList ++
      " * \"f(\"".toList) = "x - y - (0.5 + 2) * \"f(\"" := by decide
  have hinnerText : String.ofList ("x - (y - ".toList ++ "0.5 + 2".toList ++
      ") * \"f(\"".toList) = "x - (y - 0.5 + 2) * \"f(\"" := by decide
  rw [houterText] at houter
  rw [hinnerText] at hinner
  exact ⟨t, ht, hn, hcount, houter, hinner⟩

end Tree

end Lindenmayer
