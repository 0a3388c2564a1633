import Lindenmayer.Proofs.Listing
import Lindenmayer.Proofs.Shape
import Lindenmayer.Proofs.Validation

/-!
# Typed expressions only fail as numbers do

The rules for types and the rules for values are two tables, written apart. An
expression that has a type may still have no value, since a type does not say
whether a divisor is zero; what it does say is that nothing else goes wrong.
And an expression without a type has no value either, in whatever order its
parts are looked at.

Both are one statement about an expression whose names all have values. Its
type fails for operands that do not go together and for nothing else; where its
value fails, it fails as numbers do, or for such operands, and then the type
fails too. The two tables meet where both operands have values
(`Value.fault_of_apply`). The rest follows the tree, on whose shape it depends
that an operation has two operands and is no parenthesis.
-/

namespace Lindenmayer

/-- Whether an error is of the numbers themselves, which no type foresees. -/
def EvalError.IsArithmetic : EvalError → Prop
  | .divisionByZero => True
  | .overflow _ _ _ => True
  | _ => False

/-- Whether an error is of operands that do not go together. -/
def EvalError.IsMismatch : EvalError → Prop
  | .typeMismatch _ _ _ => True
  | _ => False

theorem EvalError.OfOperation.cases {e : EvalError} (h : e.OfOperation) :
    e.IsMismatch ∨ e.IsArithmetic := by
  cases e with
  | typeMismatch => exact Or.inl trivial
  | divisionByZero => exact Or.inr trivial
  | overflow => exact Or.inr trivial
  | unknownIdentifier => cases h
  | notAnExpression => cases h
  | scope => cases h

namespace Value

theorem applyInteger_ne_mismatch {operator : Operator} {a b : Int64} {e : EvalError}
    (h : applyInteger operator a b = .error e) : ¬ e.IsMismatch := by
  intro hmismatch
  rw [applyInteger] at h
  split at h
  · next cause hcause =>
      cases h
      cases operator with
      | divide =>
          rw [exactResult] at hcause
          split at hcause
          · cases hcause
            exact hmismatch
          · cases hcause
      | parens =>
          cases hcause
          exact hmismatch
      | _ => cases hcause
  · split at h
    · cases h
    · cases h
      exact hmismatch

theorem applyFloat_ne_mismatch {operator : Operator} {a b : Float} {e : EvalError}
    (h : applyFloat operator a b = .error e) : ¬ e.IsMismatch := by
  intro hmismatch
  cases operator with
  | parens =>
      cases h
      exact hmismatch
  | _ => cases h

/-- Operands that are refused have no type together. -/
theorem combine_of_mismatch {operator : Operator} {l r : Value} {e : EvalError}
    (h : apply operator l r = .error e) (he : e.IsMismatch) :
    ValueType.combine operator l.type r.type = none := by
  rw [apply] at h
  split at h
  · cases h
  · next hsum =>
      cases l with
      | integer a =>
          cases r with
          | integer b => exact absurd he (applyInteger_ne_mismatch h)
          | float b => exact absurd he (applyFloat_ne_mismatch h)
          | string b => rw [ValueType.combine, if_neg hsum]; rfl
      | float a =>
          cases r with
          | integer b => exact absurd he (applyFloat_ne_mismatch h)
          | float b => exact absurd he (applyFloat_ne_mismatch h)
          | string b => rw [ValueType.combine, if_neg hsum]; rfl
      | string a => rw [ValueType.combine, if_neg hsum]; rfl

/-- An operation on values fails as numbers do, or for operands that have no
type together. -/
theorem fault_of_apply {operator : Operator} {l r : Value} {e : EvalError}
    (ho : operator ≠ .parens) (h : apply operator l r = .error e) :
    e.IsArithmetic ∨ (e.IsMismatch ∧ ValueType.combine operator l.type r.type = none) := by
  rcases (apply_error ho h).cases with he | he
  · exact Or.inr ⟨he, combine_of_mismatch h he⟩
  · exact Or.inl he

end Value

namespace Subtree

variable {lookup : ScopeId → String → Except EvalError Value}
  {declared : ScopeId → String → ValueType}

theorem typeStep_operation (operator : Operator) (l r : ValueType) :
    typeStep lookup declared (.operation operator) [.ok l, .ok r] =
      match ValueType.combine operator l r with
      | some type => .ok type
      | none => .error (.typeMismatch operator l r) := rfl

/-- What a type that came out one way says of a value that came out another. -/
structure Foretells (type : Except EvalError ValueType) (value : Except EvalError Value) :
    Prop where
  mismatch : ∀ e, type = .error e → e.IsMismatch
  sound : ∀ v, value = .ok v → type = .ok v.type
  fault : ∀ e, value = .error e → e.IsArithmetic ∨ (e.IsMismatch ∧ ∃ e', type = .error e')

theorem Foretells.of_value (v : Value) : Foretells (.ok v.type) (.ok v) where
  mismatch e h := by cases h
  sound w h := by cases h; rfl
  fault e h := by cases h

/-- What the types of two operands say of their values, the type of the
operation says of its value. -/
theorem Foretells.operation {operator : Operator} (ho : operator ≠ .parens)
    {tl tr : Except EvalError ValueType} {vl vr : Except EvalError Value}
    (hl : Foretells tl vl) (hr : Foretells tr vr) :
    Foretells (typeStep lookup declared (.operation operator) [tl, tr])
      (valueStep lookup (.operation operator) [vl, vr]) where
  mismatch e h := by
    cases tl with
    | error cause =>
        cases h
        exact hl.mismatch _ rfl
    | ok l =>
        cases tr with
        | error cause =>
            cases h
            exact hr.mismatch _ rfl
        | ok r =>
            rw [typeStep_operation] at h
            split at h
            · cases h
            · cases h
              trivial
  sound v h := by
    cases vl with
    | error cause => cases h
    | ok l =>
        cases vr with
        | error cause => cases h
        | ok r =>
            rw [hl.sound l rfl, hr.sound r rfl, typeStep_operation, Value.combine_of_apply h]
  fault e h := by
    cases vl with
    | error cause =>
        -- The left operand has no value, and where it has no type there is none.
        cases h
        refine (hl.fault _ rfl).imp_right fun ⟨he, e', htype⟩ => ⟨he, e', ?_⟩
        rw [htype]
        rfl
    | ok l =>
        rw [hl.sound l rfl]
        cases vr with
        | error cause =>
            cases h
            refine (hr.fault _ rfl).imp_right fun ⟨he, e', htype⟩ => ⟨he, e', ?_⟩
            rw [htype]
            rfl
        | ok r =>
            refine (Value.fault_of_apply ho h).imp_right fun ⟨he, hnone⟩ =>
              ⟨he, .typeMismatch operator l.type r.type, ?_⟩
            rw [hr.sound r rfl, typeStep_operation, hnone]

end Subtree

namespace Tree

variable {t : Tree} {ctx : Context} {n : NodeId}

theorem children_of_expression (h : t.AdmitsChildren n)
    (hkind : (t.kind n).isExpression = true) :
    ∃ c, t.kind n = .expression ∧ t.children n = [c] ∧ (t.kind c).isOperand = true := by
  rw [AdmitsChildren] at h
  cases hk : t.kind n with
  | expression =>
      rw [hk] at h
      rcases hc : t.children n with _ | ⟨c, _ | ⟨b, more⟩⟩
      · rw [hc] at h; cases h
      · rw [hc] at h; exact ⟨c, rfl, rfl, h⟩
      · rw [hc] at h; cases h
  | _ => rw [hk] at hkind; cases hkind

theorem children_of_operation {operator : Operator} (h : t.AdmitsChildren n)
    (hkind : t.kind n = .operation operator) :
    ∃ l r, t.children n = [l, r] ∧ operator ≠ .parens ∧ (t.kind l).isOperand = true ∧
      (t.kind r).isOperand = true := by
  rw [AdmitsChildren, hkind] at h
  rcases hc : t.children n with _ | ⟨l, _ | ⟨r, _ | ⟨b, more⟩⟩⟩
  · rw [hc] at h; cases h
  · rw [hc] at h; cases h
  · rw [hc] at h
    obtain ⟨⟨ho, hl⟩, hr⟩ : (operator ≠ .parens ∧ (t.kind l).isOperand = true) ∧
        (t.kind r).isOperand = true := by simpa [NodeKind.admits] using h
    exact ⟨l, r, rfl, ho, hl, hr⟩
  · rw [hc] at h; cases h

/-- The names at or below a node all have values. -/
def KnowsNames (t : Tree) (ctx : Context) (n : NodeId) : Prop :=
  ∀ m ∈ (t.subtree n).preorder, ∀ name scope, t.kind m = .identifier name scope →
    ∃ v, ctx t.scopes scope name = .ok v

theorem KnowsNames.child (h : t.KnowsNames ctx n) (hw : t.WellLinked) {c : NodeId}
    (hc : c ∈ t.children n) : t.KnowsNames ctx c := fun m hm =>
  h m ((mem_preorder_iff hw).2 (((mem_preorder_iff hw).1 hm).head hc))

theorem KnowsNames.self (h : t.KnowsNames ctx n) (hw : t.WellLinked) {name : String}
    {scope : ScopeId} (hkind : t.kind n = .identifier name scope) :
    ∃ v, ctx t.scopes scope name = .ok v :=
  h n (mem_preorder_self hw n) name scope hkind

/-- The types of operands say of their values what types say of values, in a tree
whose nodes have below them what their kinds admit. -/
theorem foretells_of_operand (hw : t.WellLinked)
    (hshape : ∀ m, m.index < t.size → t.AdmitsChildren m) (n : NodeId) (hn : n.index < t.size)
    (hkind : (t.kind n).isOperand = true) (hknown : t.KnowsNames ctx n) :
    Subtree.Foretells (t.typeOf ctx n) (t.evaluate ctx n) := by
  induction n using hw.induction with
  | step n ih =>
      rw [typeOf_eq hw, evaluate_eq hw]
      cases hk : t.kind n with
      | number x => exact .of_value (.ofNumber x)
      | string s => exact .of_value (.string s)
      | identifier name scope =>
          obtain ⟨v, hv⟩ := hknown.self hw hk
          rw [Subtree.typeStep, Subtree.valueStep, Subtree.identifierType, hv]
          exact .of_value v
      | operation operator =>
          obtain ⟨l, r, hc, ho, hl, hr⟩ := children_of_operation (hshape n hn) hk
          have hmem : l ∈ t.children n ∧ r ∈ t.children n := by simp [hc]
          rw [hc]
          exact .operation ho
            (ih l hmem.1 (hw.child_lt hmem.1) hl (hknown.child hw hmem.1))
            (ih r hmem.2 (hw.child_lt hmem.2) hr (hknown.child hw hmem.2))
      | _ => rw [hk] at hkind; cases hkind

theorem foretells_of_ofSource {source : String} (h : ofSource source = .ok t)
    (hn : n.index < t.size)
    (hkind : (t.kind n).isExpression = true ∨ (t.kind n).isOperand = true)
    (hknown : t.KnowsNames ctx n) : Subtree.Foretells (t.typeOf ctx n) (t.evaluate ctx n) := by
  have hw := wellLinked_of_ofSource h
  have hshape := admitsChildren_of_ofSource h
  rcases hkind with hkind | hkind
  · obtain ⟨c, hk, hc, hoperand⟩ := children_of_expression (hshape n hn) hkind
    have hmem : c ∈ t.children n := by simp [hc]
    rw [typeOf_eq hw, evaluate_eq hw, hk, hc]
    exact foretells_of_operand hw hshape c (hw.child_lt hmem) hoperand (hknown.child hw hmem)
  · exact foretells_of_operand hw hshape n hn hkind hknown

/-- An expression of a program whose names all have values: if it has a type, it
has a value of that type, unless a division by zero or an overflow is in the
way; if it has none, that is for operands that do not go together, and it has no
value either. -/
theorem evaluate_of_typeOf {source : String} (h : ofSource source = .ok t)
    (hn : n.index < t.size)
    (hkind : (t.kind n).isExpression = true ∨ (t.kind n).isOperand = true)
    (hknown : t.KnowsNames ctx n) :
    (∀ type, t.typeOf ctx n = .ok type →
      (∃ v, t.evaluate ctx n = .ok v ∧ v.type = type) ∨
        ∃ e, t.evaluate ctx n = .error e ∧ e.IsArithmetic) ∧
    ∀ e, t.typeOf ctx n = .error e → e.IsMismatch ∧
      ∃ e', t.evaluate ctx n = .error e' ∧ (e'.IsMismatch ∨ e'.IsArithmetic) := by
  have hforetells := foretells_of_ofSource h hn hkind hknown
  refine ⟨fun type htype => ?_, fun e he => ⟨hforetells.mismatch e he, ?_⟩⟩
  · cases hv : t.evaluate ctx n with
    | ok v =>
        have hsame := hforetells.sound v hv
        rw [htype] at hsame
        exact Or.inl ⟨v, rfl, (Except.ok.inj hsame).symm⟩
    | error e =>
        rcases hforetells.fault e hv with he | ⟨_, e', he'⟩
        · exact Or.inr ⟨e, rfl, he⟩
        · rw [htype] at he'
          cases he'
  · cases hv : t.evaluate ctx n with
    | ok v =>
        have hsame := hforetells.sound v hv
        rw [he] at hsame
        cases hsame
    | error e' =>
        exact ⟨e', rfl, (hforetells.fault e' hv).elim Or.inr fun hfault => Or.inl hfault.1⟩

/-- The quotient has a type and divides by zero, and it does so before the string
is refused that is subtracted from it. -/
theorem evaluate_of_typeOf_quotient :
    ∃ (t : Tree) (ctx : Context), ofSource "x / (2 - 2) - 'a'" = .ok t ∧ t.size = 10 ∧
      (t.kind ⟨5⟩).isOperand = true ∧ (t.kind ⟨8⟩).isExpression = true ∧
      t.KnowsNames ctx ⟨5⟩ ∧ t.KnowsNames ctx ⟨8⟩ ∧
      t.typeOf ctx ⟨5⟩ = .ok .integer ∧
      ((∃ v, t.evaluate ctx ⟨5⟩ = .ok v ∧ v.type = .integer) ∨
        ∃ e, t.evaluate ctx ⟨5⟩ = .error e ∧ e.IsArithmetic) ∧
      t.typeOf ctx ⟨8⟩ = .error (.typeMismatch .subtract .integer .string) ∧
      ∃ e, t.evaluate ctx ⟨8⟩ = .error e ∧ (e.IsMismatch ∨ e.IsArithmetic) := by
  have hcheck : (ofSource "x / (2 - 2) - 'a'").toOption.any (fun t =>
      t.size = 10 ∧ (t.kind ⟨5⟩).isOperand = true ∧ (t.kind ⟨8⟩).isExpression = true ∧
      t.typeOf (fun _ _ _ => .ok (.integer 7)) ⟨5⟩ = .ok .integer ∧
      t.typeOf (fun _ _ _ => .ok (.integer 7)) ⟨8⟩ =
        .error (.typeMismatch .subtract .integer .string)) = true := by decide +kernel
  obtain ⟨t, ht, hfacts⟩ := exists_of_checked hcheck
  obtain ⟨hsize, hquotient, hexpression, htype, hmismatch⟩ := of_decide_eq_true hfacts
  have hknown : ∀ n, t.KnowsNames (fun _ _ _ => .ok (.integer 7)) n := fun _ _ _ _ _ _ => ⟨_, rfl⟩
  exact ⟨t, _, ht, hsize, hquotient, hexpression, hknown ⟨5⟩, hknown ⟨8⟩, htype,
    (evaluate_of_typeOf ht (by rw [hsize]; decide) (Or.inr hquotient) (hknown ⟨5⟩)).1 _ htype,
    hmismatch,
    ((evaluate_of_typeOf ht (by rw [hsize]; decide) (Or.inl hexpression) (hknown ⟨8⟩)).2 _
      hmismatch).2⟩

end Tree

end Lindenmayer
