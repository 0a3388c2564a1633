import Lindenmayer.Proofs.Editing
import Lindenmayer.Proofs.Validation

/-!
# The first failure decides

An expression is evaluated from left to right, operands before what they are
operands of. `parts` lists what it is made of in that order, and evaluation is a
walk along the list: it goes on while there are values and ends at the first
part that has none by itself, a name that is not known or an operation that
fails on the values of its operands (`exists_first_failure`). What is to the
left of that part has values, and nothing to the right of it was looked at.

So what a missing name says is which one is missing first, and what more is
known can only change the answer at a name. An answer that hangs on no missing
name is final (`reduce_settled`).

A literal has its value and a name has the one it is looked up with, whatever
nodes hang below them. Those are no parts of the expression; a name among them
is never asked for, even if it is the first in the tree that has no value
(`exists_unknown_unasked`).
-/

namespace Lindenmayer

/-- Whether the value of a node does not depend on what is below it. -/
def NodeKind.isLeaf : NodeKind → Bool
  | identifier _ _ | number _ | string _ => true
  | _ => false

theorem NodeKind.isLeaf_of_only {kind : NodeKind} (h : kind = statement ∨ kind = expression) :
    kind.isLeaf = false := by
  rcases h with rfl | rfl <;> rfl

/-- No operation on values misses a name. -/
theorem Value.apply_ne_unknown {operator : Operator} {l r : Value} {e : EvalError}
    (h : apply operator l r = .error e) (x : String) : e ≠ .unknownIdentifier x := by
  rintro rfl
  by_cases ho : operator = .parens
  · subst ho
    rw [apply, if_neg (by simp)] at h
    cases l <;> cases r <;> cases h
  · exact apply_error ho h

theorem Value.ok_of_integer? {r : Except EvalError Value} {k : Int64}
    (h : r.toOption.bind integer? = some k) : r = .ok (.integer k) := by
  cases r with
  | error e => cases h
  | ok v =>
      cases v with
      | integer i => rw [Option.some.inj h]
      | float x => cases h
      | string s => cases h

namespace Subtree

variable {lookup : ScopeId → String → Except EvalError Value}

mutual

/-- What an expression is made of, itself included: from left to right, and
operands before what they are operands of. -/
def parts : Subtree → List Subtree
  | node id kind region children =>
    (if kind.isLeaf then [] else partsAll children) ++ [node id kind region children]

def partsAll : List Subtree → List Subtree
  | [] => []
  | s :: more => parts s ++ partsAll more

end

theorem parts_only {kind : NodeKind} (hkind : kind.isLeaf = false) (id : NodeId) (region : Region)
    (inner : Subtree) :
    (node id kind region [inner]).parts = inner.parts ++ [node id kind region [inner]] := by
  rw [parts, hkind, partsAll, partsAll, List.append_nil]
  rfl

theorem parts_operation (id : NodeId) (operator : Operator) (region : Region)
    (lhs rhs : Subtree) :
    (node id (.operation operator) region [lhs, rhs]).parts =
      lhs.parts ++ (rhs.parts ++ [node id (.operation operator) region [lhs, rhs]]) := by
  rw [parts, partsAll, partsAll, partsAll, List.append_nil, ← List.append_assoc]
  rfl

theorem parts_leaf {kind : NodeKind} (hkind : kind.isLeaf = true) (id : NodeId) (region : Region)
    (children : List Subtree) :
    (node id kind region children).parts = [node id kind region children] := by
  rw [parts, hkind]
  rfl

/-- Whether a part fails although what it is made of does not. -/
inductive FailsItself (lookup : ScopeId → String → Except EvalError Value) (e : EvalError) :
    Subtree → Prop
  | name {id : NodeId} {name : String} {scope : ScopeId} {region : Region}
      {children : List Subtree} (h : lookup scope name = .error e) :
      FailsItself lookup e (node id (.identifier name scope) region children)
  | operation {id : NodeId} {operator : Operator} {region : Region} {lhs rhs : Subtree}
      {l r : Value} (hl : evaluate lookup lhs = .ok l) (hr : evaluate lookup rhs = .ok r)
      (h : Value.apply operator l r = .error e) :
      FailsItself lookup e (node id (.operation operator) region [lhs, rhs])

/-- What has a value is made of parts that have values. -/
theorem evaluate_of_mem_parts {s : Subtree} {v : Value} (h : evaluate lookup s = .ok v) :
    ∀ p ∈ s.parts, ∃ w, evaluate lookup p = .ok w := by
  rw [evaluate_eq_ok_iff] at h
  induction h with
  | only hkind h ih =>
      rw [parts_only (NodeKind.isLeaf_of_only hkind)]
      exact List.forall_mem_append.2
        ⟨ih, List.forall_mem_singleton.2 ⟨_, (Evaluates.only hkind h).evaluate_eq⟩⟩
  | number | string =>
      rw [parts_leaf rfl]
      exact List.forall_mem_singleton.2 ⟨_, rfl⟩
  | name h =>
      rw [parts_leaf rfl]
      exact List.forall_mem_singleton.2 ⟨_, h⟩
  | operation hl hr h ihl ihr =>
      rw [parts_operation]
      exact List.forall_mem_append.2 ⟨ihl, List.forall_mem_append.2
        ⟨ihr, List.forall_mem_singleton.2 ⟨_, (Evaluates.operation hl hr h).evaluate_eq⟩⟩⟩

/-- An evaluation that fails does so at the first part that fails by itself;
everything before that part has a value. -/
theorem exists_first_failure {s : Subtree} {e : EvalError} (h : evaluate lookup s = .error e)
    (he : ∀ text, e ≠ .notAnExpression text) :
    ∃ left here right, s.parts = left ++ here :: right ∧
      (∀ p ∈ left, ∃ v, evaluate lookup p = .ok v) ∧ FailsItself lookup e here := by
  rw [evaluate_eq_error_iff] at h
  induction h with
  | @only id kind region inner _ hkind _ ih =>
      obtain ⟨left, here, right, hparts, hleft, hhere⟩ := ih he
      refine ⟨left, here, right ++ [node id kind region [inner]], ?_, hleft, hhere⟩
      rw [parts_only (NodeKind.isLeaf_of_only hkind), hparts, List.append_assoc, List.cons_append]
  | name h => exact ⟨[], _, [], parts_leaf rfl .., nofun, .name h⟩
  | @left id operator region lhs rhs _ _ ih =>
      obtain ⟨left, here, right, hparts, hleft, hhere⟩ := ih he
      refine ⟨left, here,
        right ++ (rhs.parts ++ [node id (.operation operator) region [lhs, rhs]]), ?_, hleft, hhere⟩
      rw [parts_operation, hparts, List.append_assoc, List.cons_append]
  | @right id operator region lhs rhs _ _ hl _ ih =>
      obtain ⟨left, here, right, hparts, hleft, hhere⟩ := ih he
      refine ⟨lhs.parts ++ left, here,
        right ++ [node id (.operation operator) region [lhs, rhs]], ?_,
        List.forall_mem_append.2 ⟨evaluate_of_mem_parts hl.evaluate_eq, hleft⟩, hhere⟩
      rw [parts_operation, hparts, List.append_assoc, List.append_assoc, List.cons_append]
  | @operation id operator region lhs rhs _ _ _ hl hr h =>
      refine ⟨lhs.parts ++ rhs.parts, node id (.operation operator) region [lhs, rhs], [], ?_,
        List.forall_mem_append.2 ⟨evaluate_of_mem_parts hl.evaluate_eq,
          evaluate_of_mem_parts hr.evaluate_eq⟩, .operation hl.evaluate_eq hr.evaluate_eq h⟩
      rw [parts_operation, List.append_assoc]
  | shape => exact absurd rfl (he _)

end Subtree

/-- Whether a context that does not know a name says so of the name that it was
asked for. -/
def Context.NamesAsked (ctx : Context) : Prop :=
  ∀ scopes scope name x, ctx scopes scope name = .error (.unknownIdentifier x) → x = name

theorem Context.namesAsked_empty : Context.empty.NamesAsked := by
  intro scopes scope name x h
  cases h
  rfl

namespace Tree

variable {t : Tree} {ctx ctx' : Context} {n : NodeId}

/-- The first name in document order, at or below a node, that has no value. -/
def firstUnknown (t : Tree) (ctx : Context) (n : NodeId) : Option NodeId :=
  (t.subtree n).preorder.find? fun m =>
    match t.kind m with
    | .identifier name scope => !(ctx t.scopes scope name).isOk
    | _ => false

/-- A reduction that fails does so by the error of the evaluation. -/
theorem reduce_error_iff {e : EvalError} : t.reduce ctx n = .error e ↔
    t.evaluate ctx n = .error e ∧ ∀ x, e ≠ .unknownIdentifier x := by
  rw [reduce]
  split
  · next v hv => simp [hv]
  · next x hx =>
      rw [hx]
      constructor
      · intro h
        cases h
      · rintro ⟨h, hne⟩
        exact absurd (Except.error.inj h).symm (hne x)
  · next cause hne hcause =>
      rw [hcause]
      constructor
      · intro h
        cases h
        exact ⟨rfl, hne⟩
      · rintro ⟨h, _⟩
        rw [Except.error.inj h]

theorem reduce_literal_iff {v : Value} : t.reduce ctx n = .ok (.literal v) ↔
    t.evaluate ctx n = .ok v := by
  rw [reduce]
  split
  · next w hw => simp [hw]
  · next x hx => simp [hx]
  · next cause hne hcause => simp [hcause]

/-- A name below a literal may be the first that has no value, and the name that
is missing another one. -/
theorem exists_unknown_unasked :
    ¬ ∀ (t : Tree) (ctx : Context) (n : NodeId) (x : String),
      Relation.ReflTransGen Edit empty t → ctx.NamesAsked →
      t.evaluate ctx n = .error (.unknownIdentifier x) →
      ∃ m scope, t.firstUnknown ctx n = some m ∧ t.kind m = .identifier x scope := by
  intro h
  -- The sum of a literal, below which there is an `x`, and of a `y`.
  have hnodes : Relation.ReflTransGen Edit empty _ :=
    (((Relation.ReflTransGen.refl.tail (.newNode (.operation .add) Region.origin)).tail
      (.newNode (.number (.integer 1)) Region.origin)).tail
      (.newNode (.identifier "x" Scopes.global) Region.origin)).tail
      (.newNode (.identifier "y" Scopes.global) Region.origin)
  have hrun := ((hnodes.tail
    (.addChild (p := ⟨2⟩) (c := ⟨3⟩) (.of_top (by decide) (by decide) (by decide) rfl))).tail
    (.addChild (p := ⟨1⟩) (c := ⟨2⟩) (.of_top (by decide) (by decide) (by decide) rfl))).tail
    (.addChild (p := ⟨1⟩) (c := ⟨4⟩) (.of_top (by decide) (by decide) (by decide) rfl))
  obtain ⟨m, scope, hfirst, hkind⟩ := h _ .empty ⟨1⟩ "y" hrun Context.namesAsked_empty rfl
  obtain rfl : (⟨3⟩ : NodeId) = m := Option.some.inj hfirst
  have hname : "x" = "y" := (NodeKind.identifier.inj hkind).1
  exact absurd hname (by decide)

/-- More knowledge never changes an answer that is settled: a literal stays the
literal, and an error stays the error. An evaluation that misses a name misses
the first one that has no value, from left to right and below no literal or
name, and every part of the expression to the left of it has a value. -/
theorem reduce_settled (hext : ctx'.Extends ctx) (n : NodeId) :
    (∀ v, t.reduce ctx n = .ok (.literal v) → t.reduce ctx' n = .ok (.literal v)) ∧
    (∀ e, t.reduce ctx n = .error e → t.reduce ctx' n = .error e) ∧
    (ctx.NamesAsked → ∀ x, t.evaluate ctx n = .error (.unknownIdentifier x) →
      ∃ left here right scope, (t.subtree n).parts = left ++ here :: right ∧
        here.kind = .identifier x scope ∧
        ctx t.scopes scope x = .error (.unknownIdentifier x) ∧
        ∀ p ∈ left, ∃ v, p.evaluate (ctx t.scopes) = .ok v) := by
  refine ⟨fun v hv => ?_, fun e he => ?_, fun hnames x hx => ?_⟩
  · rw [reduce_literal_iff] at hv ⊢
    exact evaluate_of_extends hext hv
  · rw [reduce_error_iff] at he ⊢
    refine ⟨?_, he.2⟩
    rw [← he.1]
    refine Subtree.evaluate_of_settled (hext t.scopes) fun x hx => ?_
    exact he.2 x (Except.error.inj (he.1.symm.trans hx))
  · obtain ⟨left, here, right, hparts, hleft, hhere⟩ :=
      Subtree.exists_first_failure hx (fun _ => nofun)
    cases hhere with
    | @name id name scope region children hname =>
        obtain rfl := hnames _ _ _ _ hname
        exact ⟨left, _, right, scope, hparts, rfl, hname, hleft⟩
    | operation _ _ happly => exact absurd rfl (Value.apply_ne_unknown happly x)

/-- The product has its value whatever becomes known; the sum misses `x`, and not
the name that is missing to the right of it. -/
theorem reduce_settled_sum :
    ∃ (t : Tree) (ctx : Context), ofSource "3 * 2 + x - y" = .ok t ∧ ctx.Extends .empty ∧
      Context.empty.NamesAsked ∧
      t.reduce .empty ⟨3⟩ = .ok (.literal (.integer 6)) ∧
      t.reduce ctx ⟨3⟩ = .ok (.literal (.integer 6)) ∧
      t.evaluate .empty ⟨7⟩ = .error (.unknownIdentifier "x") ∧
      ∃ left here right scope, (t.subtree ⟨7⟩).parts = left ++ here :: right ∧
        here.kind = .identifier "x" scope ∧
        Context.empty t.scopes scope "x" = .error (.unknownIdentifier "x") ∧
        ∀ p ∈ left, ∃ v, p.evaluate (Context.empty t.scopes) = .ok v := by
  have hcheck : (ofSource "3 * 2 + x - y").toOption.any (fun t =>
      (t.evaluate .empty ⟨3⟩).toOption.bind Value.integer? = some 6 ∧
      (t.evaluate .empty ⟨7⟩).map (fun _ => ()) = .error (.unknownIdentifier "x")) = true := by
    decide +kernel
  obtain ⟨t, ht, hfacts⟩ := exists_of_checked hcheck
  obtain ⟨hsix, hmissing⟩ := of_decide_eq_true hfacts
  have hext : Context.Extends (fun _ _ _ => .ok (.integer 7)) .empty :=
    fun _ _ name h => absurd rfl (h name)
  have hproduct : t.reduce .empty ⟨3⟩ = .ok (.literal (.integer 6)) := by
    rw [reduce_literal_iff]
    exact Value.ok_of_integer? hsix
  have hsum : t.evaluate .empty ⟨7⟩ = .error (.unknownIdentifier "x") := by
    cases hv : t.evaluate .empty ⟨7⟩ with
    | ok v =>
        rw [hv] at hmissing
        cases hmissing
    | error e =>
        rw [hv] at hmissing
        rw [Except.error.inj hmissing]
  have hsettled := fun n => reduce_settled (t := t) hext n
  exact ⟨t, _, ht, hext, Context.namesAsked_empty, hproduct, (hsettled ⟨3⟩).1 _ hproduct, hsum,
    (hsettled ⟨7⟩).2.2 Context.namesAsked_empty "x" hsum⟩

end Tree

end Lindenmayer
