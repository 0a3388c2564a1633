import Lindenmayer.Program.Build
import Lindenmayer.Proofs.Planting
import Lindenmayer.Proofs.Traversal

/-!
# The rules of a program, as they were read

The rules of a program are looked for in its tree, by a walk that collects
nodes. What they are can be said of the source instead: the rule statements in
the order they stand in, those in blocks where the block stands
(`Statement.definitions`). This file says that the search comes to the same.

The nodes that are found are no help for that, since they are numbered by
everything else that is in the program. What they stand for is, and a search
commutes with looking at it (`kinds_find`). The kinds in a tree follow the syntax
it was planted from, and expressions contribute no rules
(`definitions_of_showsAll`). All that a build reads of a rule node besides its
kind is the region it reports an error with; `BuildError.bare` forgets that, and
the nodes and regions of findings, and then the rules of a tree are the
definitions of its source, each put together by itself (`rules_bare`).
-/

namespace Lindenmayer

/-! ## Searching a tree -/

namespace Subtree

mutual

/-- What the nodes stand for, parents before children. -/
def kinds : Subtree → List NodeKind
  | node _ kind _ children => kind :: kindsAll children

def kindsAll : List Subtree → List NodeKind
  | [] => []
  | s :: more => kinds s ++ kindsAll more

end

end Subtree

namespace Tree

variable {t : Tree}

theorem find_eq (p : NodeKind → Bool) :
    t.find p = (t.subtree root).preorder.filter fun n => p (t.kind n) := by
  rw [find, Subtree.visitInOrder_of_ne_skip fun _ _ => Flow.noConfusion,
    Subtree.visitEach_collect fun n => p (t.kind n)]
  rfl

theorem kinds_subtreeWithin (depth : Nat) (n : NodeId) :
    (t.subtreeWithin depth n).preorder.map t.kind = (t.subtreeWithin depth n).kinds := by
  induction depth generalizing n with
  | zero => rfl
  | succ depth ih =>
      have hall : ∀ ns : List NodeId,
          (Subtree.preorderAll (ns.map (t.subtreeWithin depth))).map t.kind =
            Subtree.kindsAll (ns.map (t.subtreeWithin depth)) := by
        intro ns
        induction ns with
        | nil => rfl
        | cons m ns ihn =>
            rw [List.map_cons, Subtree.preorderAll, Subtree.kindsAll, List.map_append, ih m, ihn]
      rw [subtreeWithin, Subtree.preorder, Subtree.kinds, List.map_cons, hall]

/-- What the nodes that were found stand for. -/
theorem kinds_find (p : NodeKind → Bool) :
    (t.find p).map t.kind = (t.subtree root).kinds.filter p := by
  rw [find_eq, subtree, ← kinds_subtreeWithin, List.filter_map]
  rfl

end Tree

/-! ## Rules in a source -/

/-- A rule as it stands in a source. -/
structure RuleDefinition where
  name : Option String
  expected : String
  replacement : String
  deriving DecidableEq, Repr

def RuleDefinition.kind (d : RuleDefinition) : NodeKind := .rule d.name d.expected d.replacement

def NodeKind.isRule : NodeKind → Bool
  | .rule _ _ _ => true
  | _ => false

def NodeKind.isNamedRule : NodeKind → Bool
  | .rule (some _) _ _ => true
  | _ => false

def NodeKind.ruleName? : NodeKind → Option String
  | .rule name _ _ => name
  | _ => none

mutual

/-- The rules in a statement, in the order they stand in. -/
def Statement.definitions : Statement → List RuleDefinition
  | .assignment _ _ _ => []
  | .rule name expected replacement _ => [⟨name, expected, replacement⟩]
  | .block _ body => Statement.definitionsAll body
  | .expression _ => []

def Statement.definitionsAll : List Statement → List RuleDefinition
  | [] => []
  | st :: more => st.definitions ++ Statement.definitionsAll more

end

theorem Expr.Shows.filter_isRule {scope : ScopeId} {e : Expr} : ∀ {s : Subtree},
    e.Shows scope s → s.kinds.filter NodeKind.isRule = [] := by
  induction e with
  | number n region => rintro s ⟨id, rfl⟩; rfl
  | string str region => rintro s ⟨id, rfl⟩; rfl
  | identifier name region => rintro s ⟨id, rfl⟩; rfl
  | operation operator region lhs rhs ihl ihr =>
      rintro s ⟨id, l, r, rfl, hl, hr⟩
      rw [Subtree.kinds, Subtree.kindsAll, Subtree.kindsAll, Subtree.kindsAll, List.append_nil,
        List.filter_cons_of_neg (by simp [NodeKind.isRule]), List.filter_append, ihl hl, ihr hr]
      rfl

theorem Expression.Shows.filter_isRule {scope : ScopeId} {e : Expression} {s : Subtree}
    (h : e.Shows scope s) : s.kinds.filter NodeKind.isRule = [] := by
  obtain ⟨id, value, rfl, hvalue⟩ := h
  rw [Subtree.kinds, Subtree.kindsAll, Subtree.kindsAll, List.append_nil,
    List.filter_cons_of_neg (by simp [NodeKind.isRule]), Expr.Shows.filter_isRule hvalue]

/-- Under the node of a statement and that of what it says there are the rules
of what is below. -/
theorem Subtree.filter_isRule_of_ne {id id' : NodeId} {full region : Region} {kind : NodeKind}
    {ss : List Subtree} (hkind : kind.isRule = false) :
    (Subtree.node id .statement full [.node id' kind region ss]).kinds.filter NodeKind.isRule =
      (kindsAll ss).filter NodeKind.isRule := by
  rw [kinds, kindsAll, kinds, kindsAll, List.append_nil,
    List.filter_cons_of_neg (by simp [NodeKind.isRule]), List.filter_cons_of_neg (by simp [hkind])]

mutual

theorem definitions_of_shows {scope : ScopeId} (st : Statement) {s : Subtree}
    (h : st.Shows scope s) :
    s.kinds.filter NodeKind.isRule = st.definitions.map RuleDefinition.kind := by
  match st with
  | .assignment name region value =>
      rw [Statement.Shows] at h
      obtain ⟨id, full, id', v, rfl, hv⟩ := h
      rw [Subtree.filter_isRule_of_ne rfl, Subtree.kindsAll, Subtree.kindsAll, List.append_nil,
        hv.filter_isRule, Statement.definitions, List.map_nil]
  | .rule name expected replacement region =>
      rw [Statement.Shows] at h
      obtain ⟨id, full, id', rfl⟩ := h
      rw [Statement.definitions]
      rfl
  | .block region body =>
      rw [Statement.Shows] at h
      obtain ⟨id, full, id', inner, statements, rfl, hbody⟩ := h
      rw [Subtree.filter_isRule_of_ne rfl, definitions_of_showsAll body hbody,
        Statement.definitions]
  | .expression value =>
      rw [Statement.Shows] at h
      obtain ⟨id, full, v, rfl, hv⟩ := h
      rw [Subtree.kinds, Subtree.kindsAll, Subtree.kindsAll, List.append_nil,
        List.filter_cons_of_neg (by simp [NodeKind.isRule]), hv.filter_isRule,
        Statement.definitions, List.map_nil]

/-- The rules among some subtrees are those of the statements that they show. -/
theorem definitions_of_showsAll {scope : ScopeId} (sts : List Statement) {ss : List Subtree}
    (h : Statement.ShowsAll scope sts ss) :
    (Subtree.kindsAll ss).filter NodeKind.isRule =
      (Statement.definitionsAll sts).map RuleDefinition.kind := by
  match sts with
  | [] =>
      rw [Statement.ShowsAll] at h
      rw [h, Statement.definitionsAll]
      rfl
  | st :: more =>
      rw [Statement.ShowsAll] at h
      obtain ⟨s, ss', rfl, hst, hmore⟩ := h
      rw [Subtree.kindsAll, List.filter_append, definitions_of_shows st hst,
        definitions_of_showsAll more hmore, Statement.definitionsAll, List.map_append]

end

/-! ## Errors without their places -/

/-- A finding at no place. -/
def Finding.bare (f : Finding) : Finding := { f with node := Tree.root, region := .origin }

/-- An error without the nodes and regions that it names. -/
def BuildError.bare : BuildError → BuildError
  | .validation findings => .validation (findings.map Finding.bare)
  | .rule _ cause => .rule .origin cause
  | e => e

/-- The rule that a definition says, put together by itself. -/
def RuleDefinition.compile (d : RuleDefinition) : Except BuildError SimpleRule :=
  match SimpleRule.ofDefinition d.name d.expected d.replacement with
  | .ok rule => .ok rule
  | .error cause => .error (.rule .origin cause)

namespace Tree

variable {t : Tree} {program : List Statement}

theorem mapError_collect {ε ε' α : Type} (f : ε → ε') (steps : List (Except ε α)) :
    (collect steps).mapError f = collect (steps.map (Except.mapError f)) := by
  induction steps with
  | nil => rfl
  | cons step steps ih =>
      cases step with
      | error e => rfl
      | ok a =>
          rw [List.map_cons, Except.mapError, collect, collect, ← ih]
          cases collect steps with
          | error e => rfl
          | ok rest => rfl

/-- A node that stands for a definition is put together as the definition is. -/
theorem ruleOf_bare {n : NodeId} {d : RuleDefinition} (h : t.kind n = d.kind) :
    (t.ruleOf n).map (Except.mapError BuildError.bare) = some d.compile := by
  rw [ruleOf, h, RuleDefinition.kind]
  dsimp only
  rw [Option.map_some, RuleDefinition.compile]
  cases SimpleRule.ofDefinition d.name d.expected d.replacement with
  | error cause => rfl
  | ok rule => rfl

theorem filterMap_ruleOf_bare {ns : List NodeId} {ds : List RuleDefinition}
    (h : ns.map t.kind = ds.map RuleDefinition.kind) :
    (ns.filterMap t.ruleOf).map (Except.mapError BuildError.bare) =
      ds.map RuleDefinition.compile := by
  induction ds generalizing ns with
  | nil => rw [List.map_eq_nil_iff.1 h]; rfl
  | cons d ds ih =>
      obtain ⟨n, ns, rfl, hn, hns⟩ := List.map_eq_cons_iff.1 h
      have hrule := ruleOf_bare hn
      obtain ⟨result, hresult, hbare⟩ := Option.map_eq_some_iff.1 hrule
      rw [List.filterMap_cons, hresult, List.map_cons, List.map_cons, hbare, ih hns]

/-- The scopes of a tree have nothing to do with what is found in it. -/
theorem find_withScopes (scopes : Scopes) (p : NodeKind → Bool) :
    { t with scopes }.find p = t.find p := by
  rw [find_eq, find_eq, subtree_withScopes]
  rfl

theorem rules_withScopes (scopes : Scopes) : { t with scopes }.rules = t.rules := by
  rw [rules, rules, ruleNodes, ruleNodes, find_withScopes]
  rfl

section OfStatements

variable (program : List Statement)

/-- What the rules in the tree of a program stand for. -/
theorem filter_isRule_ofStatements :
    ((ofStatements program).subtree root).kinds.filter NodeKind.isRule =
      (Statement.definitionsAll program).map RuleDefinition.kind := by
  obtain ⟨_, region, ss, hroot, hshows⟩ := ofStatements_shows program
  rw [hroot, Subtree.kinds, List.filter_cons_of_neg (by simp [NodeKind.isRule]),
    definitions_of_showsAll program hshows]

/-- The rules of a program are its definitions, each put together by itself. -/
theorem rules_bare :
    (ofStatements program).rules.mapError BuildError.bare =
      collect ((Statement.definitionsAll program).map RuleDefinition.compile) := by
  have hnodes : (ofStatements program).ruleNodes =
      (ofStatements program).find NodeKind.isRule := rfl
  rw [rules, mapError_collect, hnodes, filterMap_ruleOf_bare]
  rw [kinds_find, filter_isRule_ofStatements]

/-- The names that rules have, in the order the rules stand in. -/
theorem map_fst_namedRules :
    (ofStatements program).namedRules.map Prod.fst =
      (Statement.definitionsAll program).filterMap RuleDefinition.name := by
  let kinds := ((ofStatements program).subtree root).kinds
  have hnamed : ∀ kind : NodeKind,
      (if kind.isNamedRule then kind.ruleName? else none) = kind.ruleName? := by
    intro kind
    cases kind with
    | rule name expected replacement => cases name <;> rfl
    | _ => rfl
  have hrule : ∀ kind : NodeKind,
      (if kind.isRule then kind.ruleName? else none) = kind.ruleName? := by
    intro kind
    cases kind <;> rfl
  calc (ofStatements program).namedRules.map Prod.fst
      = ((ofStatements program).find NodeKind.isNamedRule).filterMap fun n =>
          ((ofStatements program).kind n).ruleName? := by
        rw [namedRules, List.map_filterMap]
        refine List.filterMap_congr fun n _ => ?_
        cases (ofStatements program).kind n with
        | rule name expected replacement => cases name <;> rfl
        | _ => rfl
    _ = (kinds.filter NodeKind.isNamedRule).filterMap NodeKind.ruleName? := by
        rw [← kinds_find, List.filterMap_map]
        rfl
    _ = (kinds.filter NodeKind.isRule).filterMap NodeKind.ruleName? := by
        rw [List.filterMap_filter, List.filterMap_filter]
        simp only [hnamed, hrule]
    _ = (Statement.definitionsAll program).filterMap RuleDefinition.name := by
        rw [filter_isRule_ofStatements, List.filterMap_map]
        rfl

end OfStatements

end Tree

end Lindenmayer
