import Lindenmayer.Proofs.Leftmost
import Lindenmayer.Proofs.Literals

/-!
# Exact or refused

What an expression of integers stands for is a matter of arithmetic, which knows
no bounds (`exactValue?`). Evaluation has 64 bits to work with. It never answers
with another number than arithmetic does: an operation gives the exact result of
its operands or refuses, which it does for a division by zero and for a result
that does not fit (`apply_integers`).

An expression may have an exact value that fits and still be refused, since each
result on the way has to fit. Those results are the values of the parts, in the
order in which evaluation gets to them. So the operation that is refused is the
first one whose result is missing or does not fit, and the operands that are
reported with it are exact.
-/

namespace Lindenmayer

/-- Whether an integer is one of 64 bits, sign included. -/
def FitsInt64 (z : Int) : Prop := -9223372036854775808 ≤ z ∧ z ≤ 9223372036854775807

theorem fitsInt64_toInt (i : Int64) : FitsInt64 i.toInt :=
  ⟨Int64.le_toInt i, Int.le_sub_one_of_lt (Int64.toInt_lt i)⟩

theorem int64?_eq_some_iff {z : Int} {i : Int64} : Numeral.int64? z = some i ↔ i.toInt = z := by
  refine ⟨toInt_of_int64?, ?_⟩
  rintro rfl
  exact int64?_toInt i

theorem int64?_of_fits {z : Int} (h : FitsInt64 z) : Numeral.int64? z = some (Int64.ofInt z) := by
  rw [Numeral.int64?, if_pos]
  rw [Bool.and_eq_true, decide_eq_true_eq, decide_eq_true_eq]
  exact h

/-- The result of an operation in arithmetic, where no number is too large. -/
def Operator.onIntegers? : Operator → Int → Int → Option Int
  | .add, a, b => some (a + b)
  | .subtract, a, b => some (a - b)
  | .multiply, a, b => some (a * b)
  | .divide, a, b => if b = 0 then none else some (a.tdiv b)
  | .parens, _, _ => none

/-- With a zero on the right, an operation gives what was on the left, or zero, or
nothing. -/
theorem Operator.fits_onIntegers_zero {operator : Operator} {a z : Int} (ha : FitsInt64 a)
    (h : operator.onIntegers? a 0 = some z) : FitsInt64 z := by
  cases operator with
  | add =>
      rw [onIntegers?, Int.add_zero] at h
      exact Option.some.inj h ▸ ha
  | subtract =>
      rw [onIntegers?, Int.sub_zero] at h
      exact Option.some.inj h ▸ ha
  | multiply =>
      rw [onIntegers?, Int.mul_zero] at h
      exact Option.some.inj h ▸ ⟨by decide, by decide⟩
  | divide => cases h
  | parens => cases h

namespace Value

/-- Two integers give their exact result, unless there is none or it does not
fit. -/
theorem apply_integers {operator : Operator} (ho : operator ≠ .parens) (l r : Int64) :
    apply operator (.integer l) (.integer r) =
      match operator.onIntegers? l.toInt r.toInt with
      | none => .error .divisionByZero
      | some z =>
        match Numeral.int64? z with
        | some k => .ok (.integer k)
        | none => .error (.overflow operator l r) := by
  rw [apply, if_neg (by simp [type]), applyNumbers, applyInteger]
  cases operator with
  | divide =>
      by_cases hr : r.toInt = 0
      · simp only [exactResult, Operator.onIntegers?, if_pos hr]
      · cases hk : Numeral.int64? (l.toInt.tdiv r.toInt) with
        | none => simp only [exactResult, Operator.onIntegers?, if_neg hr, hk]
        | some k => simp only [exactResult, Operator.onIntegers?, if_neg hr, hk]
  | parens => exact absurd rfl ho
  | _ => rfl

theorem apply_integers_ok_iff {operator : Operator} (ho : operator ≠ .parens) {l r : Int64}
    {v : Value} : apply operator (.integer l) (.integer r) = .ok v ↔
      ∃ k, v = .integer k ∧ operator.onIntegers? l.toInt r.toInt = some k.toInt := by
  rw [apply_integers ho]
  split
  · next hnone => simp [hnone]
  · next z hz =>
      rw [hz]
      split
      · next k hk =>
          rw [← int64?_eq_some_iff.1 hk]
          simp [Int64.toInt_inj, eq_comm]
      · next hk =>
          refine ⟨nofun, fun ⟨k, _, hzk⟩ => ?_⟩
          rw [int64?_eq_some_iff.2 (Option.some.inj hzk).symm] at hk
          cases hk

/-- What is refused has no exact result that fits; and what it is refused for is
seen from the right operand. -/
theorem apply_integers_error {operator : Operator} (ho : operator ≠ .parens) {l r : Int64}
    {e : EvalError} (h : apply operator (.integer l) (.integer r) = .error e) :
    (∀ z, operator.onIntegers? l.toInt r.toInt = some z → ¬ FitsInt64 z) ∧
      e = if r.toInt = 0 then .divisionByZero else .overflow operator l r := by
  have hfit : ∀ z, operator.onIntegers? l.toInt r.toInt = some z → ¬ FitsInt64 z := by
    intro z hz hfits
    rw [apply_integers ho, hz] at h
    dsimp only at h
    rw [int64?_of_fits hfits] at h
    cases h
  refine ⟨hfit, ?_⟩
  rw [apply_integers ho] at h
  split at h
  · next hnone =>
      have hr : r.toInt = 0 := by
        cases operator with
        | divide => simpa [Operator.onIntegers?] using hnone
        | parens => exact absurd rfl ho
        | _ => cases hnone
      rw [if_pos hr]
      exact (Except.error.inj h).symm
  · next z hz =>
      have hr : r.toInt ≠ 0 := by
        intro hr
        rw [hr] at hz
        exact hfit z (hr ▸ hz) (Operator.fits_onIntegers_zero (fitsInt64_toInt l) hz)
      split at h
      · cases h
      · rw [if_neg hr]
        exact (Except.error.inj h).symm

end Value

namespace Subtree

variable {lookup : ScopeId → String → Except EvalError Value}

/-- Whether this is an expression of operations on literals that are integers and
names for integers. -/
def isOverIntegers (lookup : ScopeId → String → Except EvalError Value) : Subtree → Bool
  | node _ .statement _ [inner] => isOverIntegers lookup inner
  | node _ .expression _ [inner] => isOverIntegers lookup inner
  | node _ (.number (.integer _)) _ _ => true
  | node _ (.identifier name scope) _ _ =>
    match lookup scope name with
    | .ok (.integer _) => true
    | _ => false
  | node _ (.operation operator) _ [lhs, rhs] =>
    operator ≠ .parens && isOverIntegers lookup lhs && isOverIntegers lookup rhs
  | _ => false

/-- What an expression of integers stands for in arithmetic. -/
def exactValue? (lookup : ScopeId → String → Except EvalError Value) : Subtree → Option Int
  | node _ .statement _ [inner] => exactValue? lookup inner
  | node _ .expression _ [inner] => exactValue? lookup inner
  | node _ (.number (.integer i)) _ _ => some i.toInt
  | node _ (.identifier name scope) _ _ =>
    match lookup scope name with
    | .ok (.integer i) => some i.toInt
    | _ => none
  | node _ (.operation operator) _ [lhs, rhs] =>
    match exactValue? lookup lhs, exactValue? lookup rhs with
    | some a, some b => operator.onIntegers? a b
    | _, _ => none
  | _ => none

/-- Whether arithmetic gives an expression a value, and one of 64 bits. -/
def Fits (lookup : ScopeId → String → Except EvalError Value) (s : Subtree) : Prop :=
  ∃ z, s.exactValue? lookup = some z ∧ FitsInt64 z

theorem isOverIntegers_operation {id : NodeId} {operator : Operator} {region : Region}
    {lhs rhs : Subtree} :
    (node id (.operation operator) region [lhs, rhs]).isOverIntegers lookup = true ↔
      operator ≠ .parens ∧ lhs.isOverIntegers lookup = true ∧
        rhs.isOverIntegers lookup = true := by
  rw [isOverIntegers, Bool.and_eq_true, Bool.and_eq_true, decide_eq_true_eq, and_assoc]

theorem exactValue?_operation {id : NodeId} {operator : Operator} {region : Region}
    {lhs rhs : Subtree} {a b : Int} (hl : lhs.exactValue? lookup = some a)
    (hr : rhs.exactValue? lookup = some b) :
    (node id (.operation operator) region [lhs, rhs]).exactValue? lookup =
      operator.onIntegers? a b := by
  rw [exactValue?, hl, hr]

/-- What `isOverIntegers` decides, by what stands at the top of an expression. -/
inductive OverIntegers (lookup : ScopeId → String → Except EvalError Value) : Subtree → Prop
  | only {id : NodeId} {kind : NodeKind} {region : Region} {inner : Subtree}
      (hkind : kind = .statement ∨ kind = .expression) (h : OverIntegers lookup inner) :
      OverIntegers lookup (node id kind region [inner])
  | number {id : NodeId} {i : Int64} {region : Region} {children : List Subtree} :
      OverIntegers lookup (node id (.number (.integer i)) region children)
  | name {id : NodeId} {name : String} {scope : ScopeId} {region : Region}
      {children : List Subtree} {i : Int64} (h : lookup scope name = .ok (.integer i)) :
      OverIntegers lookup (node id (.identifier name scope) region children)
  | operation {id : NodeId} {operator : Operator} {region : Region} {lhs rhs : Subtree}
      (ho : operator ≠ .parens) (hl : OverIntegers lookup lhs) (hr : OverIntegers lookup rhs) :
      OverIntegers lookup (node id (.operation operator) region [lhs, rhs])

theorem isOverIntegers_iff {s : Subtree} :
    s.isOverIntegers lookup = true ↔ OverIntegers lookup s := by
  constructor
  · intro hs
    fun_induction isOverIntegers lookup s with
    | case1 id region inner ih => exact .only (.inl rfl) (ih hs)
    | case2 id region inner ih => exact .only (.inr rfl) (ih hs)
    | case3 => exact .number
    | case4 id name scope region children i hi => exact .name hi
    | case5 => cases hs
    | case6 id operator region lhs rhs ihl ihr =>
        rw [Bool.and_eq_true, Bool.and_eq_true, decide_eq_true_eq] at hs
        exact .operation hs.1.1 (ihl hs.1.2) (ihr hs.2)
    | case7 => cases hs
  · intro hs
    induction hs with
    | only hkind _ ih => rcases hkind with rfl | rfl <;> rw [isOverIntegers, ih]
    | number => rfl
    | name h => rw [isOverIntegers, h]
    | operation ho _ _ ihl ihr => exact isOverIntegers_operation.2 ⟨ho, ihl, ihr⟩

theorem isOverIntegers_of_mem_parts {s : Subtree} (hs : s.isOverIntegers lookup = true) :
    ∀ p ∈ s.parts, p.isOverIntegers lookup = true := by
  rw [isOverIntegers_iff] at hs
  induction hs with
  | only hkind h ih =>
      rw [parts_only (NodeKind.isLeaf_of_only hkind)]
      exact List.forall_mem_append.2
        ⟨ih, List.forall_mem_singleton.2 (isOverIntegers_iff.2 (.only hkind h))⟩
  | number =>
      rw [parts_leaf rfl]
      exact List.forall_mem_singleton.2 rfl
  | name h =>
      rw [parts_leaf rfl]
      exact List.forall_mem_singleton.2 (isOverIntegers_iff.2 (.name h))
  | operation ho hl hr ihl ihr =>
      rw [parts_operation]
      exact List.forall_mem_append.2 ⟨ihl, List.forall_mem_append.2
        ⟨ihr, List.forall_mem_singleton.2 (isOverIntegers_iff.2 (.operation ho hl hr))⟩⟩

/-- An expression of integers has the integer for its value that it stands for,
or fails in an operation. -/
theorem evaluate_cases {s : Subtree} (hs : s.isOverIntegers lookup = true) :
    (∃ k, evaluate lookup s = .ok (.integer k) ∧ s.exactValue? lookup = some k.toInt) ∨
      ∃ e, evaluate lookup s = .error e ∧ e.OfOperation := by
  rw [isOverIntegers_iff] at hs
  induction hs with
  | only hkind _ ih =>
      rcases hkind with rfl | rfl
      · exact ih
      · exact ih
  | @number id i region children => exact Or.inl ⟨i, rfl, rfl⟩
  | @name id name scope region children i hi =>
      refine Or.inl ⟨i, hi, ?_⟩
      rw [exactValue?, hi]
  | @operation id operator region lhs rhs ho _ _ ihl ihr =>
      rw [evaluate]
      rcases ihl with ⟨a, hl, ha⟩ | ⟨e, hl, he⟩
      · rw [hl]
        rcases ihr with ⟨b, hr, hb⟩ | ⟨e, hr, he⟩
        · rw [hr]
          dsimp only
          cases happly : Value.apply operator (.integer a) (.integer b) with
          | ok v =>
              obtain ⟨k, rfl, hk⟩ := (Value.apply_integers_ok_iff ho).1 happly
              exact Or.inl ⟨k, rfl, (exactValue?_operation ha hb).trans hk⟩
          | error e => exact Or.inr ⟨e, rfl, Value.apply_error ho happly⟩
        · rw [hr]
          exact Or.inr ⟨e, rfl, he⟩
      · rw [hl]
        exact Or.inr ⟨e, rfl, he⟩

theorem exactValue?_of_evaluate {s : Subtree} {v : Value} (hs : s.isOverIntegers lookup = true)
    (h : evaluate lookup s = .ok v) :
    ∃ k, v = .integer k ∧ s.exactValue? lookup = some k.toInt := by
  rcases evaluate_cases hs with ⟨k, hk, hexact⟩ | ⟨e, he, -⟩
  · exact ⟨k, Except.ok.inj (h.symm.trans hk), hexact⟩
  · cases h.symm.trans he

theorem fits_of_evaluate {s : Subtree} {v : Value} (hs : s.isOverIntegers lookup = true)
    (h : evaluate lookup s = .ok v) : s.Fits lookup := by
  obtain ⟨k, -, hk⟩ := exactValue?_of_evaluate hs h
  exact ⟨_, hk, fitsInt64_toInt k⟩

/-- The first part of an expression of integers that does not fit, if evaluation
fails: an operation on operands that do, which are reported as they are. -/
theorem exists_first_unfit {s : Subtree} {e : EvalError} (hs : s.isOverIntegers lookup = true)
    (h : evaluate lookup s = .error e) :
    ∃ left here right operator lhs rhs a b, s.parts = left ++ here :: right ∧
      (∀ p ∈ left, p.Fits lookup) ∧ ¬ here.Fits lookup ∧
      here.kind = .operation operator ∧ here.children = [lhs, rhs] ∧
      lhs.exactValue? lookup = some (Int64.toInt a) ∧
      rhs.exactValue? lookup = some (Int64.toInt b) ∧
      e = if b.toInt = 0 then .divisionByZero else .overflow operator a b := by
  have hshape : ∀ text, e ≠ .notAnExpression text := by
    rintro text rfl
    rcases evaluate_cases hs with ⟨k, hk, -⟩ | ⟨e, he, hof⟩
    · cases h.symm.trans hk
    · obtain rfl := Except.error.inj (h.symm.trans he)
      exact hof
  obtain ⟨left, here, right, hparts, hleft, hhere⟩ := exists_first_failure h hshape
  have hall := isOverIntegers_of_mem_parts hs
  rw [hparts] at hall
  have hself := hall here (List.mem_append_right _ List.mem_cons_self)
  have hfits : ∀ p ∈ left, p.Fits lookup := by
    intro p hp
    obtain ⟨v, hv⟩ := hleft p hp
    exact fits_of_evaluate (hall p (List.mem_append_left _ hp)) hv
  cases hhere with
  | @name id name scope region children hname =>
      rw [isOverIntegers, hname] at hself
      cases hself
  | @operation id operator region lhs rhs l r hl hr happly =>
      obtain ⟨ho, hlhs, hrhs⟩ := isOverIntegers_operation.1 hself
      obtain ⟨a, rfl, ha⟩ := exactValue?_of_evaluate hlhs hl
      obtain ⟨b, rfl, hb⟩ := exactValue?_of_evaluate hrhs hr
      obtain ⟨hunfit, he⟩ := Value.apply_integers_error ho happly
      refine ⟨left, _, right, operator, lhs, rhs, a, b, hparts, hfits, ?_, rfl, rfl, ha, hb, he⟩
      rintro ⟨z, hz, hzfits⟩
      rw [exactValue?_operation ha hb] at hz
      exact hunfit z hz hzfits

end Subtree

namespace Tree

variable {t : Tree} {ctx : Context} {n : NodeId}

/-- An expression of integers evaluates to an integer just if arithmetic gives
each part of it a value of 64 bits, and then to the one that it stands for. Or
else an operation is refused, the first one in order whose exact result does not
fit or is missing: as a division by zero if its right operand is zero, and as an
overflow on its exact operands if not. -/
theorem evaluate_overIntegers (h : (t.subtree n).isOverIntegers (ctx t.scopes) = true) :
    (∀ k, t.evaluate ctx n = .ok (.integer k) ↔
      (∀ p ∈ (t.subtree n).parts, p.Fits (ctx t.scopes)) ∧
        (t.subtree n).exactValue? (ctx t.scopes) = some k.toInt) ∧
    ((∀ k, t.evaluate ctx n ≠ .ok (.integer k)) →
      ∃ left here right operator lhs rhs a b, (t.subtree n).parts = left ++ here :: right ∧
        (∀ p ∈ left, p.Fits (ctx t.scopes)) ∧ ¬ here.Fits (ctx t.scopes) ∧
        here.kind = .operation operator ∧ here.children = [lhs, rhs] ∧
        lhs.exactValue? (ctx t.scopes) = some (Int64.toInt a) ∧
        rhs.exactValue? (ctx t.scopes) = some (Int64.toInt b) ∧
        t.evaluate ctx n =
          .error (if b.toInt = 0 then .divisionByZero else .overflow operator a b)) := by
  rw [evaluate]
  cases hv : (t.subtree n).evaluate (ctx t.scopes) with
  | ok v =>
      obtain ⟨i, rfl, hi⟩ := Subtree.exactValue?_of_evaluate h hv
      have hfits : ∀ p ∈ (t.subtree n).parts, p.Fits (ctx t.scopes) := by
        intro p hp
        obtain ⟨w, hw⟩ := Subtree.evaluate_of_mem_parts hv p hp
        exact Subtree.fits_of_evaluate (Subtree.isOverIntegers_of_mem_parts h p hp) hw
      refine ⟨fun k => ?_, fun hnone => absurd rfl (hnone i)⟩
      constructor
      · intro hk
        cases hk
        exact ⟨hfits, hi⟩
      · rintro ⟨-, hk⟩
        rw [Int64.toInt_inj.1 (Option.some.inj (hi.symm.trans hk))]
  | error e =>
      obtain ⟨left, here, right, operator, lhs, rhs, a, b, hparts, hleft, hunfit, hkind, hchildren,
        ha, hb, rfl⟩ := Subtree.exists_first_unfit h hv
      refine ⟨fun k => ?_, fun _ => ⟨left, here, right, operator, lhs, rhs, a, b, hparts, hleft,
        hunfit, hkind, hchildren, ha, hb, rfl⟩⟩
      constructor
      · intro hk
        cases hk
      · rintro ⟨hall, -⟩
        rw [hparts] at hall
        exact absurd (hall here (List.mem_append_right _ List.mem_cons_self)) hunfit

/-- The quotient on the left is the largest integer of 64 bits. The one on the
right has no integer of 64 bits as its result, and the difference none at all. -/
theorem evaluate_overIntegers_quotients :
    ∃ (t : Tree) (ctx : Context), ofSource "(x + 1) / y - x / y" = .ok t ∧
      (t.subtree ⟨5⟩).isOverIntegers (ctx t.scopes) = true ∧
      t.evaluate ctx ⟨5⟩ = .ok (.integer Int64.maxValue) ∧
      (t.subtree ⟨5⟩).exactValue? (ctx t.scopes) = some Int64.maxValue.toInt ∧
      (∀ p ∈ (t.subtree ⟨5⟩).parts, p.Fits (ctx t.scopes)) ∧
      (t.subtree ⟨9⟩).isOverIntegers (ctx t.scopes) = true ∧
      ∃ left here right operator lhs rhs a b, (t.subtree ⟨9⟩).parts = left ++ here :: right ∧
        (∀ p ∈ left, p.Fits (ctx t.scopes)) ∧ ¬ here.Fits (ctx t.scopes) ∧
        here.kind = .operation operator ∧ here.children = [lhs, rhs] ∧
        lhs.exactValue? (ctx t.scopes) = some (Int64.toInt a) ∧
        rhs.exactValue? (ctx t.scopes) = some (Int64.toInt b) ∧
        t.evaluate ctx ⟨9⟩ =
          .error (if b.toInt = 0 then .divisionByZero else .overflow operator a b) := by
  have hcheck : (ofSource "(x + 1) / y - x / y").toOption.any (fun t =>
      let ctx : Context := fun _ _ name =>
        .ok (.integer (if name = "x" then Int64.minValue else -1))
      (t.subtree ⟨5⟩).isOverIntegers (ctx t.scopes) = true ∧
      (t.evaluate ctx ⟨5⟩).toOption.bind Value.integer? = some Int64.maxValue ∧
      (t.subtree ⟨9⟩).isOverIntegers (ctx t.scopes) = true ∧
      (t.evaluate ctx ⟨9⟩).isOk = false) = true := by decide +kernel
  obtain ⟨t, ht, hfacts⟩ := exists_of_checked hcheck
  obtain ⟨hquotient, hmax, hdifference, hfails⟩ := of_decide_eq_true hfacts
  have hvalue := Value.ok_of_integer? hmax
  have hsettled := @evaluate_overIntegers t fun _ _ name =>
    .ok (.integer (if name = "x" then Int64.minValue else -1))
  obtain ⟨hfits, hexact⟩ := ((hsettled hquotient).1 _).1 hvalue
  refine ⟨t, _, ht, hquotient, hvalue, hexact, hfits, hdifference,
    (hsettled hdifference).2 fun k hk => ?_⟩
  rw [hk] at hfails
  cases hfails

end Tree

end Lindenmayer
