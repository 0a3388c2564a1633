import Lindenmayer.Proofs.Evaluation
import Lindenmayer.Proofs.Symbols

/-!
# Types before values

The type of an expression can be asked for while some of its names have no
value. The answer may then be that the type is unknown; what must not happen
is that it is wrong. `ValueType.Admits` is the relation between an answer and
the type that a value turns out to have, and the rules for types respect it:
an operand about which less is known makes the result less known, and neither
another type nor an error (`ValueType.combine_admits`). From there it is one
induction over the expression (`Subtree.typeOf_admits`).

The same holds of errors. An expression whose evaluation fails for anything but
a missing name fails likewise in every context that knows more, because
operands are evaluated from left to right and the first error stands
(`Subtree.evaluate_of_settled`). So what was found out without variables is
never taken back by a run.
-/

namespace Lindenmayer

/-- Whether a type that was inferred leaves room for the type that a value has. -/
def ValueType.Admits (inferred actual : ValueType) : Prop :=
  inferred = .unknown ∨ inferred = actual

theorem ValueType.Admits.eq_of_isConcrete {inferred actual : ValueType}
    (h : inferred.Admits actual) (hconcrete : inferred.isConcrete = true) : inferred = actual := by
  rcases h with rfl | rfl
  · cases hconcrete
  · rfl

theorem ValueType.combine_comm (operator : Operator) (l r : ValueType) :
    combine operator l r = combine operator r l := by
  cases operator <;> cases l <;> cases r <;> rfl

/-- An operation that has a result has one too while nothing is known of its
left operand: only a string on the right of a sum settles it by itself. -/
theorem ValueType.combine_unknown {operator : Operator} {l r type : ValueType}
    (h : combine operator l r = some type) (hl : l.isConcrete = true) (hr : r.isConcrete = true) :
    ∃ inferred, combine operator .unknown r = some inferred ∧ inferred.Admits type := by
  by_cases hsum : operator = .add ∧ r = .string
  · obtain ⟨rfl, rfl⟩ := hsum
    refine ⟨.string, rfl, Or.inr ?_⟩
    cases l <;> simp_all [combine, isConcrete]
  · have hnumeric : r.isNumeric = true := by
      cases operator <;> cases l <;> cases r <;> simp_all [combine, isNumeric, isConcrete]
    refine ⟨.unknown, ?_, Or.inl rfl⟩
    cases operator <;> cases r <;> simp_all [combine, isNumeric]

/-- Where operands have a result, operands that are less known have one too,
and at most it is less known. -/
theorem ValueType.combine_admits {operator : Operator} {tl tr l r type : ValueType}
    (h : combine operator l r = some type) (htl : tl.Admits l) (htr : tr.Admits r)
    (hl : l.isConcrete = true) (hr : r.isConcrete = true) :
    ∃ inferred, combine operator tl tr = some inferred ∧ inferred.Admits type := by
  rcases htl with rfl | rfl
  · rcases htr with rfl | rfl
    · exact ⟨.unknown, by cases operator <;> rfl, Or.inl rfl⟩
    · exact combine_unknown h hl hr
  · rcases htr with rfl | rfl
    · rw [combine_comm] at h
      rw [combine_comm operator tl]
      exact combine_unknown h hr hl
    · exact ⟨type, h, Or.inr rfl⟩

namespace Subtree

variable {lookup lookup' : ScopeId → String → Except EvalError Value}
  {declared : ScopeId → String → ValueType}

section Extension

variable (hext : ∀ scope name, (∀ x, lookup scope name ≠ .error (.unknownIdentifier x)) →
  lookup' scope name = lookup scope name)

include hext

/-- A type that is inferred with fewer names leaves room for every value that
more names give. -/
theorem typeOf_admits (hdeclared : ∀ scope name v, lookup' scope name = .ok v →
      (declared scope name).Admits v.type)
    {s : Subtree} {v : Value} (h : evaluate lookup' s = .ok v) :
    ∃ inferred, typeOf lookup declared s = .ok inferred ∧ inferred.Admits v.type := by
  rw [evaluate_eq_ok_iff] at h
  induction h with
  | only hkind _ ih =>
      rcases hkind with rfl | rfl
      · exact ih
      · exact ih
  | number => exact ⟨_, rfl, Or.inr rfl⟩
  | string => exact ⟨_, rfl, Or.inr rfl⟩
  | @name id name scope region children v h =>
      -- A name has its value already, or has none yet, or never will have one.
      rw [typeOf, identifierType]
      split
      · next w hw =>
          rw [lookup_of_extends hext scope name w hw] at h
          cases h
          exact ⟨_, rfl, Or.inr rfl⟩
      · exact ⟨_, rfl, hdeclared scope name v h⟩
      · next e hne he =>
          have hsame := hext scope name fun x hx => by
            rw [he] at hx
            cases hx
            exact hne x rfl
          rw [he, h] at hsame
          cases hsame
  | @operation id operator region lhs rhs l r v hl hr h ihl ihr =>
      obtain ⟨tl, htl, hadl⟩ := ihl
      obtain ⟨tr, htr, hadr⟩ := ihr
      obtain ⟨inferred, hcombine, hadmits⟩ := ValueType.combine_admits
        (Value.combine_of_apply h) hadl hadr l.isConcrete_type r.isConcrete_type
      refine ⟨inferred, ?_, hadmits⟩
      rw [typeOf, htl]
      dsimp only
      rw [htr]
      dsimp only
      rw [hcombine]

/-- A failure that hangs on no missing name stays where more is known. -/
theorem FailsWith.of_settled {s : Subtree} {e : EvalError} (h : FailsWith lookup s e)
    (he : ∀ x, e ≠ .unknownIdentifier x) : FailsWith lookup' s e := by
  have hvalue : ∀ {s : Subtree} {v : Value}, Evaluates lookup s v → Evaluates lookup' s v :=
    fun hv => evaluate_eq_ok_iff.1 (evaluate_of_agree (lookup_of_extends hext) hv.evaluate_eq)
  induction h with
  | only hkind _ ih => exact .only hkind (ih he)
  | name h =>
      refine .name ?_
      rw [hext _ _ fun x hx => he x (Except.error.inj (h.symm.trans hx)), h]
  | left _ ih => exact .left (ih he)
  | right hl _ ih => exact .right (hvalue hl) (ih he)
  | operation hl hr h => exact .operation (hvalue hl) (hvalue hr) h
  | shape h => exact .shape h

/-- What does not hang on a missing name is the same wherever more is known,
errors included. -/
theorem evaluate_of_settled {s : Subtree}
    (h : ∀ x, evaluate lookup s ≠ .error (.unknownIdentifier x)) :
    evaluate lookup' s = evaluate lookup s := by
  cases hs : evaluate lookup s with
  | ok v => exact evaluate_of_agree (lookup_of_extends hext) hs
  | error e =>
      refine ((evaluate_eq_error_iff.1 hs).of_settled hext fun x hx => ?_).evaluate_eq
      exact h x (hx ▸ hs)

end Extension

end Subtree

namespace Tree

variable {t : Tree} {ctx ctx' : Context}

/-- Whichever name is asked for, a program that was just read knows no type of
it. -/
theorem declaredType_of_ofSource {source : String} (h : ofSource source = .ok t) (scope : ScopeId)
    (name : String) : t.declaredType scope name = .unknown := by
  rw [declaredType]
  split
  · next symbol hsymbol =>
      obtain ⟨id, _, hlocal⟩ := List.exists_of_findSome?_eq_some hsymbol
      exact untyped_of_ofSource h symbol ((wellNamed_of_ofSource h).symbol_lt hlocal)
  · rfl

/-- The types of a program that was just read are right for every later run:
they leave room for each value that an expression can get in a context that
knows more, they are those of the values where the values are there already,
and an error rules every value out. -/
theorem typeOf_sound {source : String} (h : ofSource source = .ok t) (hext : ctx'.Extends ctx)
    (n : NodeId) :
    (∀ v, t.evaluate ctx' n = .ok v →
      ∃ type, t.typeOf ctx n = .ok type ∧ (type = .unknown ∨ type = v.type)) ∧
    (∀ v, t.evaluate ctx n = .ok v → t.typeOf ctx n = .ok v.type) ∧
    (∀ e, t.typeOf ctx n = .error e → ∀ v, t.evaluate ctx' n ≠ .ok v) ∧
    (∀ type v, t.typeOf ctx n = .ok type → type.isConcrete = true → t.evaluate ctx' n = .ok v →
      v.type = type) := by
  have hadmits : ∀ v, t.evaluate ctx' n = .ok v →
      ∃ type, t.typeOf ctx n = .ok type ∧ type.Admits v.type := fun v hv =>
    Subtree.typeOf_admits (hext t.scopes)
      (fun scope name _ _ => Or.inl (declaredType_of_ofSource h scope name)) hv
  refine ⟨hadmits, fun v hv => Subtree.typeOf_of_evaluate hv, ?_, ?_⟩
  · intro e he v hv
    obtain ⟨type, htype, _⟩ := hadmits v hv
    rw [he] at htype
    cases htype
  · intro type v htype hconcrete hv
    obtain ⟨type', htype', hadm⟩ := hadmits v hv
    rw [htype] at htype'
    cases htype'
    exact (hadm.eq_of_isConcrete hconcrete).symm

/-- Without variables the sum may be anything; with a number and a string for
its names it is a string. -/
theorem typeOf_sound_sum :
    ∃ t v, ofSource "n * 2 + x" = .ok t ∧
      Context.Extends (fun _ _ name => .ok (if name = "n" then .integer 3 else .string "s"))
        .empty ∧
      t.evaluate (fun _ _ name => .ok (if name = "n" then .integer 3 else .string "s")) ⟨5⟩ =
        .ok v ∧
      v.type = .string ∧
      ∃ type, t.typeOf .empty ⟨5⟩ = .ok type ∧ (type = .unknown ∨ type = v.type) := by
  have hrun : (ofSource "n * 2 + x").toOption.any (fun t =>
      (t.evaluate (fun _ _ name => .ok (if name = "n" then .integer 3 else .string "s"))
        ⟨5⟩).toOption.any fun v => v.type = .string) = true := by decide +kernel
  have hext : Context.Extends
      (fun _ _ name => .ok (if name = "n" then .integer 3 else .string "s")) .empty :=
    fun _ _ name h => absurd rfl (h name)
  obtain ⟨t, ht, hfacts⟩ := exists_of_checked hrun
  cases hv : t.evaluate (fun _ _ name => .ok (if name = "n" then .integer 3 else .string "s"))
      ⟨5⟩ with
  | error e => simp [Except.toOption, hv] at hfacts
  | ok v =>
      have hstring : v.type = .string := by simpa [Except.toOption, hv] using hfacts
      exact ⟨t, v, ht, hext, hv, hstring, (typeOf_sound ht hext ⟨5⟩).1 v hv⟩

end Tree

end Lindenmayer
