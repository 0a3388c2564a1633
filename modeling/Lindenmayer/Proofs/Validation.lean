import Lindenmayer.Program.Build
import Lindenmayer.Proofs.Environment
import Lindenmayer.Proofs.StaticTypes
import Lindenmayer.Proofs.WellWritten

/-!
# What validation says of a build

Validation looks at a program without running it, and the run looks at it
without having validated it. This file compares the two. It does so on the
simpler run of `Environment`, where a variable is its name.

The comparison rests on one lemma. When the run has given a name its value, what
validation knew of that value is one of three things: the value itself, its
type, or nothing at all because a name without a type is in it
(`staticValue_of_evaluate`). The findings about the axiom and the number of
generations are read off these three (`axiomFindings_eq_nil_iff`,
`recursionCountFindings_eq_nil_iff`). In one direction this says that validation
refuses no program that would have run to the end. In the other it says which
faults are left to a program that passed, `LateFault`.
-/

namespace Lindenmayer

/-! ## Faults of operations -/

/-- Whether an error is that of an operation on values. -/
def EvalError.OfOperation : EvalError → Prop
  | .typeMismatch _ _ _ => True
  | .divisionByZero => True
  | .overflow _ _ _ => True
  | _ => False

theorem Value.applyInteger_error {operator : Operator} {a b : Int64} {cause : EvalError}
    (ho : operator ≠ .parens) (h : applyInteger operator a b = .error cause) :
    cause.OfOperation := by
  rw [applyInteger] at h
  split at h
  · next e he =>
      cases h
      cases operator with
      | divide =>
          rw [exactResult] at he
          split at he
          · cases he
            trivial
          · cases he
      | parens => exact absurd rfl ho
      | _ => cases he
  · split at h
    · cases h
    · cases h
      trivial

theorem Value.applyFloat_ne_error {operator : Operator} {a b : Float} {cause : EvalError}
    (ho : operator ≠ .parens) : applyFloat operator a b ≠ .error cause := by
  intro h
  cases operator with
  | parens => exact ho rfl
  | _ => cases h

theorem Value.applyNumbers_error {operator : Operator} {l r : Value} {cause : EvalError}
    (ho : operator ≠ .parens) (h : applyNumbers operator l r = .error cause) :
    cause.OfOperation := by
  cases l with
  | integer a =>
      cases r with
      | integer b => exact applyInteger_error ho h
      | float b => exact absurd h (applyFloat_ne_error ho)
      | string b => cases h; trivial
  | float a =>
      cases r with
      | integer b => exact absurd h (applyFloat_ne_error ho)
      | float b => exact absurd h (applyFloat_ne_error ho)
      | string b => cases h; trivial
  | string a => cases h; trivial

theorem Value.apply_error {operator : Operator} {l r : Value} {cause : EvalError}
    (ho : operator ≠ .parens) (h : apply operator l r = .error cause) : cause.OfOperation := by
  rw [apply] at h
  split at h
  · cases h
  · exact applyNumbers_error ho h

/-- An expression that was read has no value only because a name has none or
because of an operation. -/
theorem Expr.WellWritten.evaluate_error {lookup : String → Except EvalError Value} {e : Expr}
    {cause : EvalError} (hw : e.WellWritten)
    (hlookup : ∀ {name cause}, lookup name = .error cause → ∃ x, cause = .unknownIdentifier x)
    (h : e.evaluate lookup = .error cause) :
    (∃ x, cause = .unknownIdentifier x) ∨ cause.OfOperation := by
  induction e with
  | number n region => cases h
  | string s region => cases h
  | identifier name region => exact Or.inl (hlookup h)
  | operation operator region lhs rhs ihl ihr =>
      obtain ⟨ho, hl, hr⟩ := hw
      rw [Expr.evaluate] at h
      split at h
      · next e he =>
          cases h
          exact ihl hl he
      · split at h
        · next e he =>
            cases h
            exact ihr hr he
        · exact Or.inr (Value.apply_error ho h)

theorem Environment.lookup_error {env : Environment} {name : String} {cause : EvalError}
    (h : env.lookup name = .error cause) : ∃ x, cause = .unknownIdentifier x := by
  rw [lookup] at h
  split at h
  · cases h
  · cases h
    exact ⟨name, rfl⟩

theorem Statement.wellWritten_of_mem_assignments {program : List Statement}
    (h : AllWellWritten program) {p : String × Expression}
    (hp : p ∈ Statement.assignments program) : p.2.value.WellWritten := by
  induction program with
  | nil => cases hp
  | cons st more ih =>
      rw [AllWellWritten] at h
      cases st with
      | assignment name region value =>
          rcases List.mem_cons.1 hp with rfl | hp
          · have hst := h.1
            rw [Statement.WellWritten] at hst
            exact hst.2
          · exact ih h.2 hp
      | rule => exact ih h.2 hp
      | block => exact ih h.2 hp
      | expression => exact ih h.2 hp

/-! ## Assignments by name -/

namespace Tree

variable {t : Tree} {name : String}

/-- Whether a node is the expression that a name is assigned first. -/
def FirstValue (t : Tree) (name : String) (n : NodeId) : Prop :=
  ∃ node, t.firstAssignment name = some node ∧ t.firstChild node = some n

theorem map_name_of_assigns {as : List Assignment} {ps : List (String × Expression)}
    (hall : List.Forall₂ t.Assigns as ps) : as.map Assignment.name = ps.map Prod.fst := by
  induction hall with
  | nil => rfl
  | cons ha _ ih => rw [List.map_cons, List.map_cons, ha.name, ih]

variable {ps : List (String × Expression)} (hall : List.Forall₂ t.Assigns t.assignments ps)

include hall

theorem not_mem_of_firstAssignment (h : t.firstAssignment name = none) :
    name ∉ ps.map Prod.fst := by
  rw [← map_name_of_assigns hall]
  intro hmem
  obtain ⟨a, ha, hname⟩ := List.mem_map.1 hmem
  rw [firstAssignment, Option.map_eq_none_iff, List.find?_eq_none] at h
  exact h a ha (by simp [hname])

theorem mem_of_firstAssignment {node : NodeId} (h : t.firstAssignment name = some node) :
    ∃ e n, (name, e) ∈ ps ∧ t.firstChild node = some n ∧
      e.Shows Scopes.global (t.subtree n) := by
  obtain ⟨a, hfind, rfl⟩ := Option.map_eq_some_iff.1 h
  have hname : a.name = name := by simpa using List.find?_some hfind
  obtain ⟨p, hp, hassigns⟩ := exists_mem_of_forall₂ hall (List.mem_of_find?_eq_some hfind)
  obtain ⟨n, hchild, hshows⟩ := hassigns.value
  refine ⟨p.2, n, ?_, hchild, hshows⟩
  rw [← hname, hassigns.name]
  exact hp

/-- What a name is assigned first has the value that the name has when a run is
through. It was calculated in the global scope, from names that keep their types. -/
theorem value_of_firstAssignment {env : Environment} (hnodup : (ps.map Prod.fst).Nodup)
    (hok : (env.run ps).1 = .ok ()) {node : NodeId} (h : t.firstAssignment name = some node) :
    ∃ n lookup w, t.firstChild node = some n ∧ (t.subtree n).evaluate lookup = .ok w ∧
      (env.run ps).2 name = some w ∧ ∀ scope x u, lookup scope x = .ok u →
        scope = Scopes.global ∧ ∃ u', (env.run ps).2 x = some u' ∧ u'.type = u.type := by
  obtain ⟨e, n, hmem, hchild, hshows⟩ := mem_of_firstAssignment hall h
  obtain ⟨env', w, hw, hvalue, htypes⟩ := Environment.value_of_run hnodup hok hmem
  refine ⟨n, fun scope x => if scope = Scopes.global then env'.lookup x
    else .error (.unknownIdentifier x), w, hchild, ?_, hvalue, fun scope x u hu => ?_⟩
  · rw [hshows.evaluate, ← hw]
    exact congrArg e.value.evaluate (funext fun x => if_pos rfl)
  · dsimp only at hu
    split at hu
    · next hscope =>
        rw [Environment.lookup] at hu
        split at hu
        · next u₁ hu₁ =>
            cases hu
            exact ⟨hscope, htypes x u hu₁⟩
        · cases hu
    · cases hu

end Tree

/-! ## What was known of a value -/

namespace Tree

variable {t : Tree} {source : String} {name : String} {n node : NodeId} {w : Value}
  {lookup : ScopeId → String → Except EvalError Value}

/-- Whether the types that the scopes know leave room for the values that names get. -/
def Foresees (t : Tree) (lookup : ScopeId → String → Except EvalError Value) : Prop :=
  ∀ scope x u, lookup scope x = .ok u → (t.declaredType scope x).Admits u.type

theorem foresees_of_ofSource (h : ofSource source = .ok t) : t.Foresees lookup :=
  fun scope x _ _ => Or.inl (declaredType_of_ofSource h scope x)

/-- What validation knows of a value that there will be: the value, its type, or
nothing. -/
theorem staticValue_of_evaluate (h : t.Foresees lookup)
    (hchild : t.firstChild node = some n) (hw : (t.subtree n).evaluate lookup = .ok w) :
    (t.staticValue node = .ok (.value w) ∧ t.reduce .empty n = .ok (.literal w) ∧
      t.typeOf .empty n = .ok w.type) ∨
    (t.staticValue node = .ok (.type w.type) ∧ t.reduce .empty n = .ok (.unchanged n) ∧
      t.typeOf .empty n = .ok w.type) ∨
    (t.staticValue node = .ok .unknown ∧ t.reduce .empty n = .ok (.unchanged n) ∧
      t.typeOf .empty n = .ok .unknown) := by
  have hext : ∀ scope x, (∀ y, Context.empty t.scopes scope x ≠ .error (.unknownIdentifier y)) →
      lookup scope x = Context.empty t.scopes scope x := fun scope x hne => absurd rfl (hne x)
  have hadmits : ∃ type, t.typeOf .empty n = .ok type ∧ type.Admits w.type :=
    Subtree.typeOf_admits hext h hw
  obtain ⟨type, htype, hadmits⟩ := hadmits
  rw [staticValue, hchild]
  dsimp only
  -- Either no name is missing, and then the run finds the same; or only the type is left.
  by_cases hsettled : ∀ x, t.evaluate .empty n ≠ .error (.unknownIdentifier x)
  · have hvalue : t.evaluate .empty n = .ok w :=
      (Subtree.evaluate_of_settled hext hsettled).symm.trans hw
    have hreduce : t.reduce .empty n = .ok (.literal w) := by rw [reduce, hvalue]
    rw [hreduce]
    exact Or.inl ⟨rfl, rfl, Subtree.typeOf_of_evaluate hvalue⟩
  · obtain ⟨x, hx⟩ := not_forall_not.1 hsettled
    have hreduce : t.reduce .empty n = .ok (.unchanged n) := by rw [reduce, hx]
    rw [hreduce, htype]
    dsimp only
    rcases hadmits with rfl | rfl
    · exact Or.inr (Or.inr ⟨rfl, rfl, rfl⟩)
    · rw [w.isConcrete_type, if_pos rfl]
      exact Or.inr (Or.inl ⟨rfl, rfl, rfl⟩)

theorem unknown_ne_type (w : Value) : (.ok .unknown : Except EvalError ValueType) ≠ .ok w.type := by
  cases w <;> simp [Value.type]

/-- The axiom is accepted just if it is a string, or nothing was known of it. -/
theorem axiomFindings_eq_nil_iff (h : t.Foresees lookup)
    (hfirst : t.firstAssignment axiomName = some node) (hchild : t.firstChild node = some n)
    (hw : (t.subtree n).evaluate lookup = .ok w) :
    t.axiomFindings = [] ↔ w.type = .string ∨ t.typeOf .empty n = .ok .unknown := by
  rw [axiomFindings, hfirst]
  dsimp only
  rcases staticValue_of_evaluate h hchild hw with
    ⟨hstatic, _, htype⟩ | ⟨hstatic, _, htype⟩ | ⟨hstatic, _, htype⟩
  · rw [hstatic, htype]
    simp [(unknown_ne_type w).symm]
  · rw [hstatic, htype]
    simp [(unknown_ne_type w).symm]
  · rw [hstatic, htype]
    simp

/-- The number of generations is accepted just if it is an integer or nothing
was known of it, and if it is large enough or could not be told. -/
theorem recursionCountFindings_eq_nil_iff (h : t.Foresees lookup)
    (hfirst : t.firstAssignment recursionCountName = some node)
    (hchild : t.firstChild node = some n) (hw : (t.subtree n).evaluate lookup = .ok w) :
    t.recursionCountFindings = [] ↔
      (w.type = .integer ∨ t.typeOf .empty n = .ok .unknown) ∧
      (∀ count, w = .integer count →
        1 ≤ count.toInt ∨ t.reduce .empty n = .ok (.unchanged n)) := by
  rw [recursionCountFindings, hfirst]
  dsimp only
  rcases staticValue_of_evaluate h hchild hw with
    ⟨hstatic, hreduce, htype⟩ | ⟨hstatic, hreduce, htype⟩ | ⟨hstatic, hreduce, htype⟩
  · rw [hstatic, hreduce, htype]
    cases w with
    | integer count => simp [Value.type]
    | float x => simp [Value.type]
    | string str => simp [Value.type]
  · rw [hstatic, hreduce, htype]
    simp [(unknown_ne_type w).symm]
  · rw [hstatic, hreduce, htype]
    simp

theorem repeated_eq_nil_iff {α : Type} {key : α → String} {seen : List String} {l : List α} :
    repeated key seen l = [] ↔ (l.map key).Nodup ∧ ∀ a ∈ l, key a ∉ seen := by
  induction l generalizing seen with
  | nil => simp [repeated]
  | cons a l ih =>
      rw [repeated]
      by_cases ha : key a ∈ seen
      · simp [ha]
      · have hcons : (∀ b ∈ l, key b ∉ key a :: seen) ↔
            key a ∉ l.map key ∧ ∀ b ∈ l, key b ∉ seen := by
          simp only [List.mem_cons, not_or, List.mem_map, not_exists, not_and, ← forall_and]
        rw [if_neg (by simpa using ha), ih, hcons]
        simp [ha, and_assoc, and_left_comm]

end Tree

/-! ## Variables that a run leaves behind -/

/-- What there is to say against a variable that has to have a type. -/
def Environment.Lacks (env : Environment) (name : String) (type : ValueType) (cause : RunError) :
    Prop :=
  (env name = none ∧ cause = .undefinedVariable name) ∨
  ∃ w, env name = some w ∧ w.type ≠ type ∧ cause = .wrongType name type w.type

namespace Variables.StandsFor

variable {v : Variables} {s : Scopes} {env : Environment} {name : String} {cause : RunError}

theorem defined_eq (h : v.StandsFor s env) (t : Tree) (name : String) :
    v.defined { t with scopes := s } name =
      match env name with
      | some w => .ok w
      | none => .error (.undefinedVariable name) := by
  rw [defined, ← h.value name]
  rfl

theorem globalString_error_iff (h : v.StandsFor s env) {t : Tree} :
    v.globalString { t with scopes := s } name = .error cause ↔ env.Lacks name .string cause := by
  rw [globalString, h.defined_eq, Environment.Lacks]
  cases henv : env name with
  | none => simp [eq_comm]
  | some w => cases w <;> simp [Value.type, eq_comm]

theorem globalInteger_error_iff (h : v.StandsFor s env) {t : Tree} :
    v.globalInteger { t with scopes := s } name = .error cause ↔ env.Lacks name .integer cause := by
  rw [globalInteger, h.defined_eq, Environment.Lacks]
  cases henv : env name with
  | none => simp [eq_comm]
  | some w => cases w <;> simp [Value.type, eq_comm]

theorem globalString_ok_iff (h : v.StandsFor s env) {t : Tree} {text : String} :
    v.globalString { t with scopes := s } name = .ok text ↔ env name = some (.string text) := by
  rw [globalString, h.defined_eq]
  cases henv : env name with
  | none => simp
  | some w => cases w <;> simp

theorem globalInteger_ok_iff (h : v.StandsFor s env) {t : Tree} {n : Int64} :
    v.globalInteger { t with scopes := s } name = .ok n ↔ env name = some (.integer n) := by
  rw [globalInteger, h.defined_eq]
  cases henv : env name with
  | none => simp
  | some w => cases w <;> simp

end Variables.StandsFor

/-! ## Programs that are refused -/

namespace Tree

variable {t : Tree} {source : String} {ps : List (String × Expression)} {v : Variables}
  {s : Scopes} (h : ofSource source = .ok t) (hall : List.Forall₂ t.Assigns t.assignments ps)
  (hnodup : (ps.map Prod.fst).Nodup) (hok : (Environment.empty.run ps).1 = .ok ())
  (hstands : v.StandsFor s (Environment.empty.run ps).2)

section Refused

include h hall hnodup hok hstands

theorem globalString_fails (hfindings : t.axiomFindings ≠ []) :
    ∃ e, v.globalString { t with scopes := s } axiomName = .error e := by
  cases hfirst : t.firstAssignment axiomName with
  | none =>
      have hnone : (Environment.empty.run ps).2 axiomName = none :=
        Environment.run_of_not_mem (not_mem_of_firstAssignment hall hfirst)
      exact ⟨_, hstands.globalString_error_iff.2 (Or.inl ⟨hnone, rfl⟩)⟩
  | some node =>
      obtain ⟨n, lookup, w, hchild, hw, hvalue, _⟩ :=
        value_of_firstAssignment hall hnodup hok hfirst
      rw [Ne, axiomFindings_eq_nil_iff (foresees_of_ofSource h) hfirst hchild hw,
        not_or] at hfindings
      exact ⟨_, hstands.globalString_error_iff.2 (Or.inr ⟨w, hvalue, hfindings.1, rfl⟩)⟩

theorem globalInteger_fails (hfindings : t.recursionCountFindings ≠ []) :
    (∃ e, v.globalInteger { t with scopes := s } recursionCountName = .error e) ∨
    ∃ n, v.globalInteger { t with scopes := s } recursionCountName = .ok n ∧ n.toInt < 1 := by
  cases hfirst : t.firstAssignment recursionCountName with
  | none =>
      have hnone : (Environment.empty.run ps).2 recursionCountName = none :=
        Environment.run_of_not_mem (not_mem_of_firstAssignment hall hfirst)
      exact Or.inl ⟨_, hstands.globalInteger_error_iff.2 (Or.inl ⟨hnone, rfl⟩)⟩
  | some node =>
      obtain ⟨n, lookup, w, hchild, hw, hvalue, _⟩ :=
        value_of_firstAssignment hall hnodup hok hfirst
      rw [Ne, recursionCountFindings_eq_nil_iff (foresees_of_ofSource h) hfirst hchild
        hw] at hfindings
      cases w with
      | integer count =>
          refine Or.inr ⟨count, hstands.globalInteger_ok_iff.2 hvalue, ?_⟩
          by_contra hcount
          refine hfindings ⟨Or.inl rfl, fun count' heq => Or.inl ?_⟩
          cases heq
          omega
      | float x =>
          exact Or.inl ⟨_, hstands.globalInteger_error_iff.2
            (Or.inr ⟨_, hvalue, by simp [Value.type], rfl⟩)⟩
      | string str =>
          exact Or.inl ⟨_, hstands.globalInteger_error_iff.2
            (Or.inr ⟨_, hvalue, by simp [Value.type], rfl⟩)⟩

end Refused

/-- Whoever runs a program that was refused gets nowhere, unless it was refused
for a name that is used twice: the run fails, or there is no axiom to be had
from it or no number of generations. -/
theorem run_fails_of_validate (h : ofSource source = .ok t)
    (hnames : (t.assignments.map Assignment.name).Nodup)
    (hrules : (t.namedRules.map Prod.fst).Nodup) (hinvalid : t.validate ≠ []) :
    ∃ result v t', Variables.empty.run t = (result, v, t') ∧
      ((∃ e, result = .error e) ∨
        (∃ e, v.globalString t' axiomName = .error e) ∨
        (∃ e, v.globalInteger t' recursionCountName = .error e) ∨
        ∃ n, v.globalInteger t' recursionCountName = .ok n ∧ n.toInt < 1) := by
  obtain ⟨program, v, s, _, hall, hrun, hstands⟩ := run_stands h
  refine ⟨_, v, _, hrun, ?_⟩
  cases hresult : (Environment.empty.run (Statement.assignments program)).1 with
  | error e => exact Or.inl ⟨e, rfl⟩
  | ok u =>
      have hnodup : ((Statement.assignments program).map Prod.fst).Nodup := by
        rw [← map_name_of_assigns hall]
        exact hnames
      by_cases haxiom : t.axiomFindings = []
      · have hcount : t.recursionCountFindings ≠ [] := by
          intro hcount
          refine hinvalid ?_
          rw [validate, duplicateAssignments, duplicateRuleNames,
            repeated_eq_nil_iff.2 ⟨hnames, fun _ _ => List.not_mem_nil⟩,
            repeated_eq_nil_iff.2 ⟨hrules, fun _ _ => List.not_mem_nil⟩, haxiom, hcount]
          rfl
        exact Or.inr (Or.inr (globalInteger_fails h hall hnodup hresult hstands hcount))
      · exact Or.inr (Or.inl (globalString_fails h hall hnodup hresult hstands haxiom))

/-- Nothing can be taken away from a string, whatever `n` is. -/
theorem run_fails_of_validate_difference :
    ∃ t result v t',
      ofSource "set n = 2\nset axiom = 'F' + n\nset recursionCount = 'a' - n\nrule r: F -> FF" =
        .ok t ∧
      (t.assignments.map Assignment.name).Nodup ∧ (t.namedRules.map Prod.fst).Nodup ∧
      t.validate ≠ [] ∧ Variables.empty.run t = (result, v, t') ∧
      ((∃ e, result = .error e) ∨
        (∃ e, v.globalString t' axiomName = .error e) ∨
        (∃ e, v.globalInteger t' recursionCountName = .error e) ∨
        ∃ n, v.globalInteger t' recursionCountName = .ok n ∧ n.toInt < 1) := by
  have hcheck : (ofSource
      "set n = 2\nset axiom = 'F' + n\nset recursionCount = 'a' - n\nrule r: F -> FF").toOption.any
      (fun t => (t.assignments.map Assignment.name).Nodup ∧
        (t.namedRules.map Prod.fst).Nodup ∧ t.validate ≠ []) = true := by decide +kernel
  obtain ⟨t, ht, hfacts⟩ := exists_of_checked hcheck
  obtain ⟨hnames, hrules, hinvalid⟩ := of_decide_eq_true hfacts
  obtain ⟨result, v, t', hrun⟩ := run_fails_of_validate ht hnames hrules hinvalid
  exact ⟨t, result, v, t', ht, hnames, hrules, hinvalid, hrun⟩

/-! ## Programs that are accepted -/

/-- What can still be wrong with a program that passed validation: a value that
only the run can tell, or a word or a rule that was not looked at. -/
inductive LateFault (t : Tree) : BuildError → Prop
  | notALiteral (name : String) : LateFault t (.run (.notALiteral name))
  | evaluation {name : String} {cause : EvalError} (h : cause.OfOperation) :
    LateFault t (.run (.evaluation name cause))
  | wrongType {name : String} {expected actual : ValueType} {n : NodeId}
    (hname : name = axiomName ∨ name = recursionCountName) (hfirst : t.FirstValue name n)
    (htype : t.typeOf .empty n = .ok .unknown) :
    LateFault t (.run (.wrongType name expected actual))
  | initiator (cause : WordError) : LateFault t (.initiator cause)
  | rule (region : Region) (cause : WordError) : LateFault t (.rule region cause)
  | recursionCount {count : Int64} {n : NodeId} (hfirst : t.FirstValue recursionCountName n)
    (hreduce : t.reduce .empty n = .ok (.unchanged n)) :
    LateFault t (.system (.invalidRecursionCount count))

theorem error_of_collect {ε α : Type} {steps : List (Except ε α)} {e : ε}
    (h : collect steps = .error e) : .error e ∈ steps := by
  induction steps with
  | nil => cases h
  | cons step steps ih =>
      cases step with
      | error e' =>
          cases h
          exact List.mem_cons_self
      | ok a =>
          rw [collect] at h
          split at h
          · cases h
          · next e' he =>
              cases h
              exact List.mem_cons_of_mem _ (ih he)

theorem rules_error {e : BuildError} (h : t.rules = .error e) :
    ∃ region cause, e = .rule region cause := by
  obtain ⟨n, _, hrule⟩ := List.mem_filterMap.1 (error_of_collect h)
  rw [ruleOf] at hrule
  split at hrule
  · split at hrule
    · cases hrule
    · cases hrule
      exact ⟨_, _, rfl⟩
  · cases hrule

/-- Where a system could not be put together, either a variable that it needs
is not as it must be, or a word is not. -/
theorem assemble_error {e : BuildError} (h : t.assemble v = .error e) :
    (∃ cause, e = .run cause ∧ (v.globalString t axiomName = .error cause ∨
      v.globalInteger t recursionCountName = .error cause)) ∨
    (∃ count, e = .system (.invalidRecursionCount count) ∧
      v.globalInteger t recursionCountName = .ok count ∧ count.toInt < 1) ∨
    (∃ cause, e = .initiator cause) ∨ ∃ region cause, e = .rule region cause := by
  rw [assemble] at h
  split at h
  · next cause hcause =>
      cases h
      exact Or.inl ⟨cause, rfl, Or.inl hcause⟩
  · split at h
    · next cause _ =>
        cases h
        exact Or.inr (Or.inr (Or.inl ⟨cause, rfl⟩))
    · split at h
      · next cause hcause =>
          cases h
          exact Or.inl ⟨cause, rfl, Or.inr hcause⟩
      · next count hcount =>
          split at h
          · next hlt =>
              cases h
              exact Or.inr (Or.inl ⟨count, rfl, hcount, hlt⟩)
          · split at h
            · next hrules =>
                cases h
                exact Or.inr (Or.inr (Or.inr (rules_error hrules)))
            · cases h

theorem exists_axiom (hfindings : t.axiomFindings = []) :
    ∃ node, t.firstAssignment axiomName = some node := by
  cases hfirst : t.firstAssignment axiomName with
  | some node => exact ⟨node, rfl⟩
  | none =>
      rw [axiomFindings, hfirst] at hfindings
      cases hfindings

theorem exists_recursionCount (hfindings : t.recursionCountFindings = []) :
    ∃ node, t.firstAssignment recursionCountName = some node := by
  cases hfirst : t.firstAssignment recursionCountName with
  | some node => exact ⟨node, rfl⟩
  | none =>
      rw [recursionCountFindings, hfirst] at hfindings
      cases hfindings

/-- A variable that has a value is only lacking where its type was unknown. -/
theorem lateFault_of_lacks {env : Environment} {name : String} {type : ValueType}
    {cause : RunError} {n : NodeId} {w : Value}
    (hname : name = axiomName ∨ name = recursionCountName) (hfirst : t.FirstValue name n)
    (hvalue : env name = some w) (htype : w.type = type ∨ t.typeOf .empty n = .ok .unknown)
    (hlacks : env.Lacks name type cause) : LateFault t (.run cause) := by
  rcases hlacks with ⟨hnone, _⟩ | ⟨w', hvalue', hne, rfl⟩
  · rw [hvalue] at hnone
    cases hnone
  · rw [hvalue] at hvalue'
    cases hvalue'
    exact .wrongType hname hfirst (htype.resolve_left hne)

section Accepted

include h hall hnodup hok hstands

theorem lateFault_of_globalString (hfindings : t.axiomFindings = []) {cause : RunError}
    (herr : v.globalString { t with scopes := s } axiomName = .error cause) :
    LateFault t (.run cause) := by
  obtain ⟨node, hfirst⟩ := exists_axiom hfindings
  obtain ⟨n, lookup, w, hchild, hw, hvalue, _⟩ := value_of_firstAssignment hall hnodup hok hfirst
  have htype := (axiomFindings_eq_nil_iff (foresees_of_ofSource h) hfirst hchild hw).1 hfindings
  exact lateFault_of_lacks (Or.inl rfl) ⟨node, hfirst, hchild⟩ hvalue htype
    (hstands.globalString_error_iff.1 herr)

theorem lateFault_of_globalInteger (hfindings : t.recursionCountFindings = []) {cause : RunError}
    (herr : v.globalInteger { t with scopes := s } recursionCountName = .error cause) :
    LateFault t (.run cause) := by
  obtain ⟨node, hfirst⟩ := exists_recursionCount hfindings
  obtain ⟨n, lookup, w, hchild, hw, hvalue, _⟩ := value_of_firstAssignment hall hnodup hok hfirst
  have htype := ((recursionCountFindings_eq_nil_iff (foresees_of_ofSource h) hfirst hchild
    hw).1 hfindings).1
  exact lateFault_of_lacks (Or.inr rfl) ⟨node, hfirst, hchild⟩ hvalue htype
    (hstands.globalInteger_error_iff.1 herr)

theorem lateFault_of_recursionCount (hfindings : t.recursionCountFindings = []) {count : Int64}
    (hcount : v.globalInteger { t with scopes := s } recursionCountName = .ok count)
    (hlt : count.toInt < 1) : LateFault t (.system (.invalidRecursionCount count)) := by
  obtain ⟨node, hfirst⟩ := exists_recursionCount hfindings
  obtain ⟨n, lookup, w, hchild, hw, hvalue, _⟩ := value_of_firstAssignment hall hnodup hok hfirst
  rw [hstands.globalInteger_ok_iff, hvalue] at hcount
  cases hcount
  rcases ((recursionCountFindings_eq_nil_iff (foresees_of_ofSource h) hfirst hchild
    hw).1 hfindings).2 count rfl with
    hle | hreduce
  · omega
  · exact .recursionCount ⟨node, hfirst, hchild⟩ hreduce

end Accepted

/-- The faults that a build of an accepted program can end with. -/
theorem lateFault_of_build (h : ofSource source = .ok t) (hvalid : t.validate = [])
    {e : BuildError} (herr : t.build.1 = .error e) : LateFault t e := by
  obtain ⟨program, v, s, hprogram, hall, hrun, hstands⟩ := run_stands h
  have hparts := hvalid
  rw [validate, List.append_eq_nil_iff, List.append_eq_nil_iff, List.append_eq_nil_iff] at hparts
  obtain ⟨⟨⟨hdup, haxiom⟩, hcount⟩, _⟩ := hparts
  have hnodup : ((Statement.assignments program).map Prod.fst).Nodup := by
    rw [← map_name_of_assigns hall]
    exact (repeated_eq_nil_iff.1 (List.map_eq_nil_iff.1 hdup)).1
  rw [build, hvalid, hrun] at herr
  cases hresult : (Environment.empty.run (Statement.assignments program)).1 with
  | error cause =>
      rw [hresult] at herr
      cases herr
      obtain ⟨p, hp, rfl | ⟨env, cause, hcause, hne, rfl⟩⟩ :=
        Environment.error_of_run hnodup (fun _ _ => rfl) hresult
      · exact .notALiteral p.1
      · have hwritten := Statement.wellWritten_of_mem_assignments
          (Statement.wellWritten_ofSource hprogram) hp
        rcases hwritten.evaluate_error Environment.lookup_error hcause with ⟨x, hx⟩ | hoperation
        · exact absurd hx (hne x)
        · exact .evaluation hoperation
  | ok u =>
      rw [hresult] at herr
      rcases assemble_error herr with ⟨cause, rfl, haxiomErr | hcountErr⟩ |
          ⟨count, rfl, hcountOk, hlt⟩ | ⟨cause, rfl⟩ | ⟨region, cause, rfl⟩
      · exact lateFault_of_globalString h hall hnodup hresult hstands haxiom haxiomErr
      · exact lateFault_of_globalInteger h hall hnodup hresult hstands hcount hcountErr
      · exact lateFault_of_recursionCount h hall hnodup hresult hstands hcount hcountOk hlt
      · exact .initiator cause
      · exact .rule region cause

/-- What validation promises to a build: every variable that it needs is there,
no variable changes its type, and what fails to have a value fails for an
operation. That the axiom or the number of generations turns out to be wrong is
left to the run only where it could not be told without one. -/
theorem build_faults_of_validate (h : ofSource source = .ok t) (hvalid : t.validate = []) :
    (∀ name, t.build.1 ≠ .error (.run (.undefinedVariable name))) ∧
    (∀ cause, t.build.1 ≠ .error (.run (.scope cause))) ∧
    (∀ name cause, t.build.1 = .error (.run (.evaluation name cause)) →
      (∀ x, cause ≠ .unknownIdentifier x) ∧ (∀ kind, cause ≠ .notAnExpression kind) ∧
        ∀ e, cause ≠ .scope e) ∧
    (∀ name expected actual, t.build.1 = .error (.run (.wrongType name expected actual)) →
      (name = axiomName ∨ name = recursionCountName) ∧
        ∃ n, t.FirstValue name n ∧ t.typeOf .empty n = .ok .unknown) ∧
    (∀ count, t.build.1 = .error (.system (.invalidRecursionCount count)) →
      ∃ n, t.FirstValue recursionCountName n ∧ t.reduce .empty n = .ok (.unchanged n)) := by
  refine ⟨fun name herr => ?_, fun cause herr => ?_, fun name cause herr => ?_,
    fun name expected actual herr => ?_, fun count herr => ?_⟩
  · cases lateFault_of_build h hvalid herr
  · cases lateFault_of_build h hvalid herr
  · cases lateFault_of_build h hvalid herr with
    | evaluation hoperation =>
        refine ⟨?_, ?_, ?_⟩
        · rintro x rfl
          exact hoperation
        · rintro kind rfl
          exact hoperation
        · rintro e rfl
          exact hoperation
  · cases lateFault_of_build h hvalid herr with
    | wrongType hname hfirst htype => exact ⟨hname, _, hfirst, htype⟩
  · cases lateFault_of_build h hvalid herr with
    | recursionCount hfirst hreduce => exact ⟨_, hfirst, hreduce⟩

/-- The number of generations that a build was refused for. -/
def refusedCount? : Except BuildError System → Option Int64
  | .error (.system (.invalidRecursionCount count)) => some count
  | _ => none

theorem eq_of_refusedCount? {result : Except BuildError System} {count : Int64}
    (h : refusedCount? result = some count) :
    result = .error (.system (.invalidRecursionCount count)) := by
  unfold refusedCount? at h
  split at h
  · cases h
    rfl
  · cases h

/-- How many generations there are hangs on `n`, so it takes a run to see that
there are none. -/
theorem build_faults_of_validate_count :
    ∃ t n, ofSource "set n = 2\nset axiom = 'F' + n\nset recursionCount = n - 2" = .ok t ∧
      t.validate = [] ∧ t.build.1 = .error (.system (.invalidRecursionCount 0)) ∧
      t.FirstValue recursionCountName n ∧ t.reduce .empty n = .ok (.unchanged n) := by
  have hcheck : (ofSource
      "set n = 2\nset axiom = 'F' + n\nset recursionCount = n - 2").toOption.any (fun t =>
        t.validate = [] ∧ refusedCount? t.build.1 = some 0) = true := by decide +kernel
  obtain ⟨t, ht, hfacts⟩ := exists_of_checked hcheck
  obtain ⟨hvalid, hcount⟩ := of_decide_eq_true hfacts
  have herr := eq_of_refusedCount? hcount
  obtain ⟨n, hn⟩ := (build_faults_of_validate ht hvalid).2.2.2.2 0 herr
  exact ⟨t, n, ht, hvalid, herr, hn⟩

end Tree

end Lindenmayer
