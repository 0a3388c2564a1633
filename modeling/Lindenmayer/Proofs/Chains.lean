import Lindenmayer.Proofs.Grammar

/-!
# Expressions as chains

However it is grouped, an expression is a chain of factors with signs between them. Of two
chains with a sign between them there is a longer one, whatever the sign, and any chain is an
expression again (`Chain.exists_derives`), though in general not of the expressions that the
two chains were. So it is chains that a text is made of when it is put together without
regard to how tightly its signs bind.

To derive a chain is to put its signs at their levels from left to right. A loose sign takes
all in front of it as its left operand; a tight one takes the last term alone, which may be
in the middle of a derivation. Hence what an induction carries is a last term that can be
exchanged for any other (`Chain.exists_last`).
-/

namespace Lindenmayer

/-- The tokens of factors with signs between them. -/
inductive Chain : List Token → Prop where
  | factor {ts : List Token} {e : Expr} (h : Derives .factor ts e) : Chain ts
  | next {ts us : List Token} {sign : Token} {o : Operator} {e : Expr} (h : Chain ts)
      (ho : o ≠ .parens) (hsign : sign.isSign o) (h' : Derives .factor us e) :
      Chain (ts ++ sign :: us)

namespace Chain

variable {ts us : List Token} {t sign : Token} {o : Operator}

theorem append (h : Chain ts) (ho : o ≠ .parens) (hsign : sign.isSign o) (h' : Chain us) :
    Chain (ts ++ sign :: us) := by
  induction h' with
  | factor h' => exact .next h ho hsign h'
  | next _ ho' hsign' h'' ih =>
      rw [← List.cons_append, ← List.append_assoc]
      exact .next ih ho' hsign' h''

theorem blankBefore (hkind : t.kind = .whitespace) (h : Chain ts) : Chain (t :: ts) := by
  induction h with
  | factor h => exact .factor (.blankBefore hkind h)
  | next _ ho hsign h' ih => exact .next ih ho hsign h'

theorem blankAfter (h : Chain ts) (hkind : t.kind = .whitespace) : Chain (ts ++ [t]) := by
  cases h with
  | factor h => exact .factor (.blankAfter h hkind)
  | next h ho hsign h' =>
      rw [List.append_assoc, List.cons_append]
      exact .next h ho hsign (.blankAfter h' hkind)

/-- A chain begins with all but a term, and this term can be exchanged. -/
theorem exists_last (h : Chain ts) : ∃ front last e, ts = front ++ last ∧ Derives .term last e ∧
    ∀ last' e', Derives .term last' e' → ∃ e'', Derives .sum (front ++ last') e'' := by
  induction h with
  | factor h => exact ⟨[], _, _, rfl, .ofFactor h, fun last' e' h' => ⟨e', .ofTerm h'⟩⟩
  | @next ts us sign o e h ho hsign h' ih =>
      obtain ⟨front, last, r, rfl, hlast, hfront⟩ := ih
      cases o with
      | parens => exact absurd rfl ho
      | add | subtract =>
          obtain ⟨l, hl⟩ := hfront last r hlast
          refine ⟨front ++ last ++ [sign], us, _, by simp, .ofFactor h', fun last' e' h'' => ?_⟩
          rw [List.append_assoc _ [sign], List.singleton_append]
          exact ⟨_, .operation ho hl hsign h''⟩
      | multiply | divide =>
          exact ⟨front, last ++ sign :: us, _, List.append_assoc .., .operation ho hlast hsign h',
            hfront⟩

/-- Any chain is an expression. -/
theorem exists_derives (h : Chain ts) : ∃ e, Derives .sum ts e := by
  obtain ⟨front, last, e, rfl, hlast, hfront⟩ := h.exists_last
  exact hfront last e hlast

end Chain

/-- Any expression is a chain. -/
theorem Derives.chain {level : Level} {ts : List Token} {e : Expr} (h : Derives level ts e) :
    Chain ts := by
  induction h with
  | number hkind hvalue => exact .factor (.number hkind hvalue)
  | identifier hkind => exact .factor (.identifier hkind)
  | string hopen hbody hclose => exact .factor (.string hopen hbody hclose)
  | parens hopen inner hclose _ => exact .factor (.parens hopen inner hclose)
  | ofFactor _ ih | ofTerm _ ih => exact ih
  | product _ ho hsign _ ihl ihr | sum _ ho hsign _ ihl ihr =>
      refine ihl.append ?_ hsign ihr
      rcases ho with rfl | rfl
      · decide
      · decide
  | blankBefore hkind _ ih => exact ih.blankBefore hkind
  | blankAfter _ hkind ih => exact ih.blankAfter hkind

end Lindenmayer
