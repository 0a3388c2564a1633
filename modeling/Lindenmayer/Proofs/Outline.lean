import Lindenmayer.Proofs.Bare
import Lindenmayer.Proofs.Definitions
import Lindenmayer.Proofs.Globals
import Lindenmayer.Proofs.Validation

/-!
# What a build can see of a program

Expressions that stand by themselves, blocks and the assignments in blocks are
planted like everything else. They declare names, open scopes and move all later
nodes and symbols to other numbers. A build sees none of this: it sees the
assignments at top level and the rules, without the places they stand at, which
is the `Outline` of a program.

Two programs with one outline are compared stage by stage. What validation
reads of the assignments is their names and what is known of their values
(`Tree.known`), and findings are alike where that is (`validate_congr`). What
the assembly reads of a run is the map from names to values that it leaves
(`assemble_congr`). Both can be calculated from expressions as they were read,
in which regions play no part; that the scopes know no type of any name before a
run is what makes the types independent of the rest of the program.
-/

namespace Lindenmayer

deriving instance DecidableEq for Expr, Expression

/-- What a program says to a build: the assignments at its top level and all its
rules, wherever they were read. -/
structure Outline where
  assignments : List (String × Expression)
  rules : List RuleDefinition
  deriving DecidableEq

def Statement.outline (program : List Statement) : Outline where
  assignments := (Statement.assignments program).map fun (name, e) => (name, e.bare)
  rules := Statement.definitionsAll program

/-! ## Expressions without their regions -/

namespace Expr

/-- The type of an expression, from the types of names. -/
def typeOf (nameType : String → Except EvalError ValueType) : Expr → Except EvalError ValueType
  | .number n _ => .ok (Value.ofNumber n).type
  | .string _ _ => .ok .string
  | .identifier name _ => nameType name
  | .operation operator _ lhs rhs =>
    match lhs.typeOf nameType with
    | .error e => .error e
    | .ok l =>
      match rhs.typeOf nameType with
      | .error e => .error e
      | .ok r =>
        match ValueType.combine operator l r with
        | some type => .ok type
        | none => .error (.typeMismatch operator l r)

/-- What is known of the value of an expression while no name has a value or a
type. -/
def staticValue (e : Expr) : Except EvalError StaticValue :=
  match e.evaluate fun name => .error (.unknownIdentifier name) with
  | .ok v => .ok (.value v)
  | .error (.unknownIdentifier _) =>
    match e.typeOf fun _ => .ok .unknown with
    | .error err => .error err
    | .ok type => .ok (if type.isConcrete then .type type else .unknown)
  | .error err => .error err

theorem Shows.typeOf {scope : ScopeId} {lookup : ScopeId → String → Except EvalError Value}
    {declared : ScopeId → String → ValueType} {e : Expr} {s : Subtree} (h : e.Shows scope s) :
    s.typeOf lookup declared = e.typeOf (Subtree.identifierType lookup declared scope) := by
  induction e generalizing s with
  | number n region =>
      obtain ⟨id, rfl⟩ := h
      rfl
  | string str region =>
      obtain ⟨id, rfl⟩ := h
      rfl
  | identifier name region =>
      obtain ⟨id, rfl⟩ := h
      rfl
  | operation operator region lhs rhs ihl ihr =>
      obtain ⟨id, l, r, rfl, hl, hr⟩ := h
      rw [Subtree.typeOf, ihl hl, ihr hr]
      rfl

theorem evaluate_bare (lookup : String → Except EvalError Value) (e : Expr) :
    e.bare.evaluate lookup = e.evaluate lookup := by
  induction e with
  | number n region => rfl
  | string str region => rfl
  | identifier name region => rfl
  | operation operator region lhs rhs ihl ihr => rw [bare, evaluate, ihl, ihr]; rfl

theorem typeOf_bare (nameType : String → Except EvalError ValueType) (e : Expr) :
    e.bare.typeOf nameType = e.typeOf nameType := by
  induction e with
  | number n region => rfl
  | string str region => rfl
  | identifier name region => rfl
  | operation operator region lhs rhs ihl ihr => rw [bare, typeOf, ihl, ihr]; rfl

theorem staticValue_bare (e : Expr) : e.bare.staticValue = e.staticValue := by
  rw [staticValue, evaluate_bare, typeOf_bare]
  rfl

end Expr

/-- A run is the same wherever its expressions were read. -/
theorem Environment.run_bare (env : Environment) (ps : List (String × Expression)) :
    env.run (ps.map fun (name, e) => (name, e.bare)) = env.run ps := by
  induction ps generalizing env with
  | nil => rfl
  | cons p ps ih =>
      obtain ⟨name, e⟩ := p
      have hassign : env.assign name e.bare = env.assign name e := by
        rw [assign, Expression.bare, Expr.evaluate_bare]
        rfl
      rw [List.map_cons, run, run, hassign]
      cases env.assign name e with
      | error err => rfl
      | ok env' => exact ih env'

namespace Tree

variable {t t' : Tree}

/-! ## Validation -/

/-- The assignments of a tree, with what is known of their values. -/
def known (t : Tree) : List (String × Except EvalError StaticValue) :=
  t.assignments.map fun a => (a.name, t.staticValue a.node)

theorem staticValue_of_assigns (hdeclared : ∀ scope name, t.declaredType scope name = .unknown)
    {a : Assignment} {p : String × Expression} (ha : t.Assigns a p) :
    t.staticValue a.node = p.2.value.staticValue := by
  obtain ⟨n, hchild, hshows⟩ := ha.value
  have hvalue : t.evaluate .empty n =
      p.2.value.evaluate fun name => .error (.unknownIdentifier name) := hshows.evaluate
  have htype : t.typeOf .empty n = p.2.value.typeOf fun _ => .ok .unknown := by
    obtain ⟨id, value, hnode, hshown⟩ := hshows
    rw [typeOf, hnode, Subtree.typeOf, Expr.Shows.typeOf hshown]
    exact congrArg p.2.value.typeOf (funext fun name => congrArg Except.ok (hdeclared _ name))
  rw [staticValue, hchild, Expr.staticValue, ← hvalue, ← htype]
  dsimp only
  rw [reduce]
  cases t.evaluate .empty n with
  | ok v => rfl
  | error e => cases e <;> rfl

theorem known_of_assigns (hdeclared : ∀ scope name, t.declaredType scope name = .unknown)
    {as : List Assignment} {ps : List (String × Expression)}
    (hall : List.Forall₂ t.Assigns as ps) :
    (as.map fun a => (a.name, t.staticValue a.node)) =
      ps.map fun (name, e) => (name, e.value.staticValue) := by
  induction hall with
  | nil => rfl
  | cons ha _ ih =>
      rw [List.map_cons, List.map_cons, ih, staticValue_of_assigns hdeclared ha, ha.name]

theorem lookup_known (name : String) :
    t.known.lookup name = (t.firstAssignment name).map t.staticValue := by
  rw [known, firstAssignment]
  induction t.assignments with
  | nil => rfl
  | cons a as ih =>
      rw [List.map_cons, List.lookup_cons, List.find?_cons, BEq.comm, ih]
      cases a.name == name with
      | true => rfl
      | false => rfl

theorem map_repeated {α : Type} {key : α → String} {seen : List String} {l : List α} :
    (repeated key seen l).map key = repeated id seen (l.map key) := by
  induction l generalizing seen with
  | nil => rfl
  | cons a l ih =>
      rw [repeated, List.map_cons, repeated, id_eq]
      split
      · rw [List.map_cons, ih]
      · rw [ih]

section Known

variable (h : t.known = t'.known)

include h

/-- Where the same is known, a name is assigned in both or in neither. -/
theorem firstAssignment_congr (name : String) :
    (t.firstAssignment name = none ∧ t'.firstAssignment name = none) ∨
    ∃ n n', t.firstAssignment name = some n ∧ t'.firstAssignment name = some n' ∧
      t.staticValue n = t'.staticValue n' := by
  have hlookup := lookup_known (t := t) name
  rw [h, lookup_known] at hlookup
  cases hn : t.firstAssignment name with
  | none =>
      rw [hn, Option.map_none, Option.map_eq_none_iff] at hlookup
      exact Or.inl ⟨rfl, hlookup⟩
  | some n =>
      rw [hn, Option.map_some, Option.map_eq_some_iff] at hlookup
      obtain ⟨n', hn', hvalue⟩ := hlookup
      exact Or.inr ⟨n, n', rfl, hn', hvalue.symm⟩

theorem duplicateAssignments_congr :
    t.duplicateAssignments.map Finding.bare = t'.duplicateAssignments.map Finding.bare := by
  have hbare : ∀ t : Tree, t.duplicateAssignments.map Finding.bare =
      (repeated id [] (t.known.map Prod.fst)).map fun name =>
        ⟨.duplicateAssignment name, root, .origin⟩ := by
    intro t
    have hnames : t.known.map Prod.fst = t.assignments.map Assignment.name := List.map_map
    rw [hnames, ← map_repeated, duplicateAssignments, List.map_map, List.map_map]
    rfl
  rw [hbare, hbare, h]

theorem axiomFindings_congr :
    t.axiomFindings.map Finding.bare = t'.axiomFindings.map Finding.bare := by
  rw [axiomFindings, axiomFindings]
  rcases firstAssignment_congr h axiomName with ⟨hn, hn'⟩ | ⟨n, n', hn, hn', hvalue⟩
  · rw [hn, hn']
    rfl
  · rw [hn, hn']
    dsimp only
    rw [hvalue]
    cases t'.staticValue n' with
    | error e => rfl
    | ok static =>
        cases static with
        | unknown => rfl
        | value v => dsimp only; split <;> rfl
        | type type => dsimp only; split <;> rfl

theorem recursionCountFindings_congr :
    t.recursionCountFindings.map Finding.bare = t'.recursionCountFindings.map Finding.bare := by
  rw [recursionCountFindings, recursionCountFindings]
  rcases firstAssignment_congr h recursionCountName with ⟨hn, hn'⟩ | ⟨n, n', hn, hn', hvalue⟩
  · rw [hn, hn']
    rfl
  · rw [hn, hn']
    dsimp only
    rw [hvalue]
    cases t'.staticValue n' with
    | error e => rfl
    | ok static =>
        cases static with
        | unknown => rfl
        | type type => dsimp only; split <;> rfl
        | value v =>
            cases v with
            | integer count => dsimp only; split <;> rfl
            | float x => rfl
            | string str => rfl

end Known

theorem duplicateRuleNames_congr (h : t.namedRules.map Prod.fst = t'.namedRules.map Prod.fst) :
    t.duplicateRuleNames.map Finding.bare = t'.duplicateRuleNames.map Finding.bare := by
  have hbare : ∀ t : Tree, t.duplicateRuleNames.map Finding.bare =
      (repeated id [] (t.namedRules.map Prod.fst)).map fun name =>
        ⟨.duplicateRuleName name, root, .origin⟩ := by
    intro t
    rw [← map_repeated, duplicateRuleNames, List.map_map, List.map_map]
    rfl
  rw [hbare, hbare, h]

/-- Findings depend on nothing but what is known of the assignments and on the
names of the rules. -/
theorem validate_congr (h : t.known = t'.known)
    (hnames : t.namedRules.map Prod.fst = t'.namedRules.map Prod.fst) :
    t.validate.map Finding.bare = t'.validate.map Finding.bare := by
  rw [validate, validate, List.map_append, List.map_append, List.map_append, List.map_append,
    List.map_append, List.map_append, duplicateAssignments_congr h, axiomFindings_congr h,
    recursionCountFindings_congr h, duplicateRuleNames_congr hnames]

/-! ## Assembly -/

/-- Two results that agree but for a part of the error both failed, or are the
same. -/
theorem cases_of_mapError_eq {ε ε' α : Type} {f : ε → ε'} {x y : Except ε α}
    (h : x.mapError f = y.mapError f) :
    (∃ e e', x = .error e ∧ y = .error e' ∧ f e = f e') ∨ ∃ a, x = .ok a ∧ y = .ok a := by
  cases x with
  | error e =>
      cases y with
      | error e' => exact Or.inl ⟨e, e', rfl, rfl, Except.error.inj h⟩
      | ok b => cases h
  | ok a =>
      cases y with
      | error e' => cases h
      | ok b =>
          cases h
          exact Or.inr ⟨a, rfl, rfl⟩

section Assembly

variable {v v' : Variables} {s s' : Scopes} {env : Environment}
  (hv : v.StandsFor s env) (hv' : v'.StandsFor s' env)

include hv hv'

theorem globals_congr (t t' : Tree) (hs : s.Ordered) (hs' : s'.Ordered) :
    Parameters.ofValues (v.globals { t with scopes := s }) =
      .ofValues (v'.globals { t' with scopes := s' }) := by
  have hlookup : ∀ name, (v.globals { t with scopes := s }).lookup name =
      (v'.globals { t' with scopes := s' }).lookup name := by
    intro name
    rw [Variables.lookup_globals hs, Variables.lookup_globals hs', Variables.global?,
      Variables.global?, hv.value name, hv'.value name]
  funext letter name
  rw [Parameters.ofValues, Parameters.ofValues, hlookup]

/-- What is put together depends on nothing but the map that a run left and on
the rules. -/
theorem assemble_congr (hs : s.Ordered) (hs' : s'.Ordered)
    (hrules : t.rules.mapError BuildError.bare = t'.rules.mapError BuildError.bare) :
    ({ t with scopes := s }.assemble v).mapError BuildError.bare =
      ({ t' with scopes := s' }.assemble v').mapError BuildError.bare := by
  have htext : v.globalString { t with scopes := s } axiomName =
      v'.globalString { t' with scopes := s' } axiomName := by
    rw [Variables.globalString, Variables.globalString, hv.defined_eq, hv'.defined_eq]
  have hcount : v.globalInteger { t with scopes := s } recursionCountName =
      v'.globalInteger { t' with scopes := s' } recursionCountName := by
    rw [Variables.globalInteger, Variables.globalInteger, hv.defined_eq, hv'.defined_eq]
  rw [assemble, assemble, htext, hcount, rules_withScopes s, rules_withScopes s',
    globals_congr hv hv' t t' hs hs']
  split
  · rfl
  · split
    · rfl
    · split
      · rfl
      · split
        · rfl
        · rcases cases_of_mapError_eq hrules with ⟨e, e', he, he', hbare⟩ | ⟨rules, hr, hr'⟩
          · rw [he, he']
            exact congrArg Except.error hbare
          · rw [hr, hr']

end Assembly

/-! ## Builds -/

variable {source source' : String} {program program' : List Statement}

theorem known_ofSource (h : ofSource source = .ok t)
    (hp : Statement.ofSource source = .ok program) :
    t.known = (Statement.outline program).assignments.map fun (name, e) =>
      (name, e.value.staticValue) := by
  have hdeclared := declaredType_of_ofSource h
  obtain rfl := eq_ofStatements h hp
  rw [known, known_of_assigns hdeclared (assignments_ofStatements program), Statement.outline,
    List.map_map]
  refine List.map_congr_left fun p _ => ?_
  exact congrArg (Prod.mk p.1) (Expr.staticValue_bare p.2.value).symm

/-- Two programs with one outline are built alike: to one system, or to one error
but for the places that it names. Whatever else is in them and wherever it stands
makes no difference. -/
theorem build_eq_of_outline (h : ofSource source = .ok t) (h' : ofSource source' = .ok t')
    (hp : Statement.ofSource source = .ok program)
    (hp' : Statement.ofSource source' = .ok program')
    (hsame : Statement.outline program = Statement.outline program') :
    t.build.1.mapError BuildError.bare = t'.build.1.mapError BuildError.bare := by
  obtain ⟨_, v, s, hprogram, _, hrun, hstands, _, hordered⟩ := run_leaves h
  obtain ⟨_, v', s', hprogram', _, hrun', hstands', _, hordered'⟩ := run_leaves h'
  rw [hp] at hprogram
  rw [hp'] at hprogram'
  cases hprogram
  cases hprogram'
  have ht := eq_ofStatements h hp
  have ht' := eq_ofStatements h' hp'
  have hdefinitions : Statement.definitionsAll program = Statement.definitionsAll program' :=
    congrArg Outline.rules hsame
  have hvalidate : t.validate.map Finding.bare = t'.validate.map Finding.bare := by
    refine validate_congr ?_ ?_
    · rw [known_ofSource h hp, known_ofSource h' hp', hsame]
    · rw [ht, ht', map_fst_namedRules, map_fst_namedRules, hdefinitions]
  have hrules : t.rules.mapError BuildError.bare = t'.rules.mapError BuildError.bare := by
    rw [ht, ht', rules_bare, rules_bare, hdefinitions]
  have henv : Environment.empty.run (Statement.assignments program) =
      Environment.empty.run (Statement.assignments program') := by
    rw [← Environment.run_bare, ← Environment.run_bare _ (Statement.assignments program')]
    exact congrArg (fun o => Environment.empty.run o.assignments) hsame
  rw [henv] at hrun hstands
  rw [build, build, hrun, hrun']
  cases hfound : t.validate with
  | nil =>
      rw [hfound, List.map_nil, eq_comm, List.map_eq_nil_iff] at hvalidate
      rw [hvalidate]
      cases (Environment.empty.run (Statement.assignments program')).1 with
      | error cause => rfl
      | ok u => exact assemble_congr hstands hstands' hordered hordered' hrules
  | cons f fs =>
      cases hfound' : t'.validate with
      | nil =>
          rw [hfound, hfound'] at hvalidate
          cases hvalidate
      | cons f' fs' =>
          rw [hfound, hfound'] at hvalidate
          exact congrArg (fun findings => Except.error (BuildError.validation findings)) hvalidate

/-- The axiom in the block is none, and that names are mentioned before they are
assigned has no part in it. -/
theorem build_eq_of_outline_block :
    ∃ t t' program program' system,
      ofSource "set axiom = 'F' + 'X'\nset recursionCount = 2\nrule r: X -> F[X]" = .ok t ∧
      ofSource
        ("axiom + n\n\x7b\n  set axiom = 2\n  rule r: X -> F[X]\n\x7d\n" ++
          "set axiom = 'F' + 'X'\n'Y'\nset recursionCount = 2") = .ok t' ∧
      Statement.ofSource "set axiom = 'F' + 'X'\nset recursionCount = 2\nrule r: X -> F[X]" =
        .ok program ∧
      Statement.ofSource
        ("axiom + n\n\x7b\n  set axiom = 2\n  rule r: X -> F[X]\n\x7d\n" ++
          "set axiom = 'F' + 'X'\n'Y'\nset recursionCount = 2") =
        .ok program' ∧
      Statement.outline program = Statement.outline program' ∧
      t.build.1 = .ok system ∧ t'.build.1 = .ok system := by
  have hcheck : (Statement.ofSource
      "set axiom = 'F' + 'X'\nset recursionCount = 2\nrule r: X -> F[X]").toOption.any
      (fun program =>
        (Statement.ofSource
          ("axiom + n\n\x7b\n  set axiom = 2\n  rule r: X -> F[X]\n\x7d\n" ++
            "set axiom = 'F' + 'X'\n'Y'\nset recursionCount = 2")).toOption.any
          fun program' => Statement.outline program = Statement.outline program' ∧
            (ofStatements program).build.1.toOption.isSome) = true := by decide +kernel
  obtain ⟨program, hp, hrest⟩ := ok_of_any hcheck
  obtain ⟨program', hp', hfacts⟩ := ok_of_any hrest
  obtain ⟨hsame, hsystem⟩ := of_decide_eq_true hfacts
  have h : ofSource "set axiom = 'F' + 'X'\nset recursionCount = 2\nrule r: X -> F[X]" =
      .ok (ofStatements program) := ofSource_of_ok hp
  have h' : ofSource
      ("axiom + n\n\x7b\n  set axiom = 2\n  rule r: X -> F[X]\n\x7d\n" ++
        "set axiom = 'F' + 'X'\n'Y'\nset recursionCount = 2") =
      .ok (ofStatements program') := ofSource_of_ok hp'
  rcases cases_of_mapError_eq (build_eq_of_outline h h' hp hp' hsame) with
    ⟨e, _, he, _⟩ | ⟨system, hfirst, hsecond⟩
  · rw [he] at hsystem
    cases hsystem
  · exact ⟨_, _, program, program', system, h, h', hp, hp', hsame, hfirst, hsecond⟩

end Tree

end Lindenmayer
