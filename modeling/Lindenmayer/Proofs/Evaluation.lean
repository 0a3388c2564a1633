import Lindenmayer.Evaluation.Basic
import Lindenmayer.Proofs.Links

/-!
# Evaluation, one node at a time

The value of an expression depends on what its top stands for and on the
values of its children, and on nothing else; so does its type. `valueStep` and
`typeStep` are those two dependencies, and in a tree whose links are in order
they lead from the children of a node to the node (`evaluate_eq`, `typeOf_eq`).
What is proved about the value of a node after a change of the tree is proved
through them.

What follows a whole evaluation is proved along `Evaluates` and `FailsWith`.
They tell how an expression comes by its value or by none, with what has a
value to the left of a failure, and `evaluate` answers nothing else
(`evaluate_eq_ok_iff`, `evaluate_eq_error_iff`).

Two facts connect values with contexts and types. A value that an expression
has is the value it has in every context that knows more, since a context
that knows more only answers where the other had no answer. And an expression
that has a value in a context has the type of that value there: the rules for
types and the rules for values are written apart, and `combine_of_apply` is
where they meet.
-/

namespace Lindenmayer

variable {lookup lookup' : ScopeId → String → Except EvalError Value}
  {declared : ScopeId → String → ValueType}

namespace Subtree

/-- The value of an expression, from the values of the children. -/
def valueStep (lookup : ScopeId → String → Except EvalError Value) (kind : NodeKind)
    (values : List (Except EvalError Value)) : Except EvalError Value :=
  match kind, values with
  | .statement, [inner] => inner
  | .expression, [inner] => inner
  | .number n, _ => .ok (.ofNumber n)
  | .string s, _ => .ok (.string s)
  | .identifier name scope, _ => lookup scope name
  | .operation operator, [lhs, rhs] =>
    match lhs with
    | .error e => .error e
    | .ok l =>
      match rhs with
      | .error e => .error e
      | .ok r => Value.apply operator l r
  | kind, _ => .error (.notAnExpression kind.text)

/-- The type of an expression, from the types of the children. -/
def typeStep (lookup : ScopeId → String → Except EvalError Value)
    (declared : ScopeId → String → ValueType) (kind : NodeKind)
    (types : List (Except EvalError ValueType)) : Except EvalError ValueType :=
  match kind, types with
  | .statement, [inner] => inner
  | .expression, [inner] => inner
  | .number n, _ => .ok (Value.ofNumber n).type
  | .string _, _ => .ok .string
  | .identifier name scope, _ => identifierType lookup declared scope name
  | .operation operator, [lhs, rhs] =>
    match lhs with
    | .error e => .error e
    | .ok l =>
      match rhs with
      | .error e => .error e
      | .ok r =>
        match ValueType.combine operator l r with
        | some type => .ok type
        | none => .error (.typeMismatch operator l r)
  | .statement, _ => .error (.notAnExpression NodeKind.statement.text)
  | .expression, _ => .error (.notAnExpression NodeKind.expression.text)
  | .operation operator, _ => .error (.notAnExpression (NodeKind.operation operator).text)
  | _, _ => .ok .void

theorem evaluate_node (id : NodeId) (kind : NodeKind) (region : Region) (cs : List Subtree) :
    evaluate lookup (.node id kind region cs) =
      valueStep lookup kind (cs.map (evaluate lookup)) := by
  match cs with
  | [] => cases kind <;> rfl
  | [a] => cases kind <;> rfl
  | [a, b] => cases kind <;> rfl
  | a :: b :: c :: ds => cases kind <;> rfl

theorem typeOf_node (id : NodeId) (kind : NodeKind) (region : Region) (cs : List Subtree) :
    typeOf lookup declared (.node id kind region cs) =
      typeStep lookup declared kind (cs.map (typeOf lookup declared)) := by
  match cs with
  | [] => cases kind <;> rfl
  | [a] => cases kind <;> rfl
  | [a, b] => cases kind <;> rfl
  | a :: b :: c :: ds => cases kind <;> rfl

end Subtree

namespace Value

theorem applyInteger_type {operator : Operator} {a b : Int64} {v : Value}
    (h : applyInteger operator a b = .ok v) : v.type = .integer := by
  rw [applyInteger] at h
  split at h
  · cases h
  · split at h
    · cases h
      rfl
    · cases h

theorem applyFloat_type {operator : Operator} {a b : Float} {v : Value}
    (h : applyFloat operator a b = .ok v) : v.type = .float := by
  cases operator <;> cases h <;> rfl

theorem applyNumbers_type {operator : Operator} {l r v : Value}
    (h : applyNumbers operator l r = .ok v) :
    l.type.isNumeric = true ∧ r.type.isNumeric = true ∧
      v.type = if l.type = r.type then l.type else .float := by
  cases l with
  | integer a =>
      cases r with
      | integer b => exact ⟨rfl, rfl, applyInteger_type h⟩
      | float b => exact ⟨rfl, rfl, applyFloat_type h⟩
      | string b => cases h
  | float a =>
      cases r with
      | integer b => exact ⟨rfl, rfl, applyFloat_type h⟩
      | float b => exact ⟨rfl, rfl, applyFloat_type h⟩
      | string b => cases h
  | string a => cases h

/-- An operation that has a value has the type of that value. -/
theorem combine_of_apply {operator : Operator} {l r v : Value} (h : apply operator l r = .ok v) :
    ValueType.combine operator l.type r.type = some v.type := by
  rw [apply] at h
  rw [ValueType.combine]
  split at h
  · next hsum =>
      cases h
      have hvoid : ¬ (l.type = .void ∨ r.type = .void) := by
        rintro (hl | hr)
        · cases l <;> cases hl
        · cases r <;> cases hr
      rw [if_pos hsum, if_neg hvoid]
      rfl
  · next hsum =>
      obtain ⟨hl, hr, htype⟩ := applyNumbers_type h
      rw [if_neg hsum, if_pos ⟨hl, hr⟩, htype]

end Value

namespace Subtree

/-! ## Where values and failures come from -/

/-- How an expression comes by its value. -/
inductive Evaluates (lookup : ScopeId → String → Except EvalError Value) :
    Subtree → Value → Prop
  | only {id : NodeId} {kind : NodeKind} {region : Region} {inner : Subtree} {v : Value}
      (hkind : kind = .statement ∨ kind = .expression) (h : Evaluates lookup inner v) :
      Evaluates lookup (node id kind region [inner]) v
  | number {id : NodeId} {n : Number} {region : Region} {children : List Subtree} :
      Evaluates lookup (node id (.number n) region children) (.ofNumber n)
  | string {id : NodeId} {text : String} {region : Region} {children : List Subtree} :
      Evaluates lookup (node id (.string text) region children) (.string text)
  | name {id : NodeId} {name : String} {scope : ScopeId} {region : Region}
      {children : List Subtree} {v : Value} (h : lookup scope name = .ok v) :
      Evaluates lookup (node id (.identifier name scope) region children) v
  | operation {id : NodeId} {operator : Operator} {region : Region} {lhs rhs : Subtree}
      {l r v : Value} (hl : Evaluates lookup lhs l) (hr : Evaluates lookup rhs r)
      (h : Value.apply operator l r = .ok v) :
      Evaluates lookup (node id (.operation operator) region [lhs, rhs]) v

/-- How an expression comes to have none: what stands to the left of a failure has a
value. -/
inductive FailsWith (lookup : ScopeId → String → Except EvalError Value) :
    Subtree → EvalError → Prop
  | only {id : NodeId} {kind : NodeKind} {region : Region} {inner : Subtree} {e : EvalError}
      (hkind : kind = .statement ∨ kind = .expression) (h : FailsWith lookup inner e) :
      FailsWith lookup (node id kind region [inner]) e
  | name {id : NodeId} {name : String} {scope : ScopeId} {region : Region}
      {children : List Subtree} {e : EvalError} (h : lookup scope name = .error e) :
      FailsWith lookup (node id (.identifier name scope) region children) e
  | left {id : NodeId} {operator : Operator} {region : Region} {lhs rhs : Subtree}
      {e : EvalError} (hl : FailsWith lookup lhs e) :
      FailsWith lookup (node id (.operation operator) region [lhs, rhs]) e
  | right {id : NodeId} {operator : Operator} {region : Region} {lhs rhs : Subtree} {l : Value}
      {e : EvalError} (hl : Evaluates lookup lhs l) (hr : FailsWith lookup rhs e) :
      FailsWith lookup (node id (.operation operator) region [lhs, rhs]) e
  | operation {id : NodeId} {operator : Operator} {region : Region} {lhs rhs : Subtree}
      {l r : Value} {e : EvalError} (hl : Evaluates lookup lhs l) (hr : Evaluates lookup rhs r)
      (h : Value.apply operator l r = .error e) :
      FailsWith lookup (node id (.operation operator) region [lhs, rhs]) e
  /-- It is no expression, whatever the names stand for. -/
  | shape {s : Subtree}
      (h : ∀ lookup, evaluate lookup s = .error (.notAnExpression s.kind.text)) :
      FailsWith lookup s (.notAnExpression s.kind.text)

theorem Evaluates.evaluate_eq {s : Subtree} {v : Value} (h : Evaluates lookup s v) :
    evaluate lookup s = .ok v := by
  induction h with
  | only hkind _ ih => rcases hkind with rfl | rfl <;> rw [evaluate, ih]
  | number | string => rfl
  | name h => exact h
  | operation _ _ h ihl ihr =>
      rw [evaluate, ihl]
      dsimp only
      rw [ihr]
      exact h

theorem FailsWith.evaluate_eq {s : Subtree} {e : EvalError} (h : FailsWith lookup s e) :
    evaluate lookup s = .error e := by
  induction h with
  | only hkind _ ih => rcases hkind with rfl | rfl <;> rw [evaluate, ih]
  | name h => exact h
  | left _ ih => rw [evaluate, ih]
  | right hl _ ih =>
      rw [evaluate, hl.evaluate_eq]
      dsimp only
      rw [ih]
  | operation hl hr h =>
      rw [evaluate, hl.evaluate_eq]
      dsimp only
      rw [hr.evaluate_eq]
      exact h
  | shape h => exact h lookup

theorem evaluate_eq_ok_iff {s : Subtree} {v : Value} :
    evaluate lookup s = .ok v ↔ Evaluates lookup s v := by
  refine ⟨fun h => ?_, Evaluates.evaluate_eq⟩
  fun_induction evaluate lookup s generalizing v with
  | case1 id region inner ih => exact .only (.inl rfl) (ih h)
  | case2 id region inner ih => exact .only (.inr rfl) (ih h)
  | case3 => cases h; exact .number
  | case4 => cases h; exact .string
  | case5 => exact .name h
  | case6 => cases h
  | case7 => cases h
  | case8 id operator region lhs rhs l hl r hr ihl ihr =>
      exact .operation (ihl hl) (ihr hr) h
  | case9 => cases h

theorem evaluate_eq_error_iff {s : Subtree} {e : EvalError} :
    evaluate lookup s = .error e ↔ FailsWith lookup s e := by
  refine ⟨fun h => ?_, FailsWith.evaluate_eq⟩
  fun_induction evaluate lookup s with
  | case1 id region inner ih => exact .only (.inl rfl) (ih h)
  | case2 id region inner ih => exact .only (.inr rfl) (ih h)
  | case3 => cases h
  | case4 => cases h
  | case5 => exact .name h
  | case6 id operator region lhs rhs cause hl ih =>
      cases h
      exact .left (ih hl)
  | case7 id operator region lhs rhs l hl cause hr ihl ihr =>
      cases h
      exact .right (evaluate_eq_ok_iff.1 hl) (ihr hr)
  | case8 id operator region lhs rhs l hl r hr ihl ihr =>
      exact .operation (evaluate_eq_ok_iff.1 hl) (evaluate_eq_ok_iff.1 hr) h
  | case9 id kind region children =>
      cases h
      exact .shape fun _ => by simp_all [evaluate, Subtree.kind]

/-- A name that has a value keeps it where more is known. -/
theorem lookup_of_extends
    (hext : ∀ scope name, (∀ x, lookup scope name ≠ .error (.unknownIdentifier x)) →
      lookup' scope name = lookup scope name)
    (scope : ScopeId) (name : String) (v : Value) (h : lookup scope name = .ok v) :
    lookup' scope name = .ok v := by
  rw [hext scope name (fun x hx => by rw [h] at hx; cases hx), h]

/-- What has a value keeps it where more is known. -/
theorem evaluate_of_agree
    (hagree : ∀ scope name v, lookup scope name = .ok v → lookup' scope name = .ok v)
    {s : Subtree} {v : Value} (h : evaluate lookup s = .ok v) : evaluate lookup' s = .ok v := by
  rw [evaluate_eq_ok_iff] at h ⊢
  induction h with
  | only hkind _ ih => exact .only hkind ih
  | number => exact .number
  | string => exact .string
  | name h => exact .name (hagree _ _ _ h)
  | operation _ _ h ihl ihr => exact .operation ihl ihr h

/-- What has a value has the type of that value. -/
theorem typeOf_of_evaluate {s : Subtree} {v : Value} (h : evaluate lookup s = .ok v) :
    typeOf lookup declared s = .ok v.type := by
  rw [evaluate_eq_ok_iff] at h
  induction h with
  | only hkind _ ih => rcases hkind with rfl | rfl <;> rw [typeOf, ih]
  | number | string => rfl
  | name h => rw [typeOf, identifierType, h]
  | operation _ _ h ihl ihr =>
      rw [typeOf, ihl]
      dsimp only
      rw [ihr]
      dsimp only
      rw [Value.combine_of_apply h]

end Subtree

/-! ## Contexts and trees -/

/-- Whether a context answers as another does wherever that one knows
something; that a name is unknown is all it may take back. -/
def Context.Extends (ctx' ctx : Context) : Prop :=
  ∀ scopes scope name, (∀ x, ctx scopes scope name ≠ .error (.unknownIdentifier x)) →
    ctx' scopes scope name = ctx scopes scope name

namespace Tree

variable {t : Tree} {ctx ctx' : Context}

theorem evaluate_eq (hw : t.WellLinked) (ctx : Context) (n : NodeId) :
    t.evaluate ctx n =
      Subtree.valueStep (ctx t.scopes) (t.kind n) ((t.children n).map (t.evaluate ctx)) := by
  rw [evaluate, hw.subtree_eq, Subtree.evaluate_node, List.map_map]
  rfl

theorem typeOf_eq (hw : t.WellLinked) (ctx : Context) (n : NodeId) :
    t.typeOf ctx n =
      Subtree.typeStep (ctx t.scopes) t.declaredType (t.kind n)
        ((t.children n).map (t.typeOf ctx)) := by
  rw [typeOf, hw.subtree_eq, Subtree.typeOf_node, List.map_map]
  rfl

/-- The declared type of a name is a matter of the scopes. -/
theorem declaredType_congr {t' : Tree} (h : t'.scopes = t.scopes) :
    t'.declaredType = t.declaredType := by
  funext scope name
  rw [declaredType, declaredType, h]

theorem evaluate_of_extends (hext : ctx'.Extends ctx) {n : NodeId} {v : Value}
    (h : t.evaluate ctx n = .ok v) : t.evaluate ctx' n = .ok v :=
  Subtree.evaluate_of_agree (Subtree.lookup_of_extends (hext t.scopes)) h

end Tree

end Lindenmayer
