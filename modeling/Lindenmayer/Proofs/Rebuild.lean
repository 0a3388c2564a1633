import Lindenmayer.Proofs.Meaning
import Lindenmayer.Proofs.Replay

/-!
# Building a program again

A build leaves its tree as it was, but for the scopes: these know afterwards which types the
variables have. So a second build does not ask the same questions. Where validation found
out nothing about the axiom the first time, since it hangs on a variable, it may well find
a type now, and where there is a type there may be the wrong one, or an error.

There is not, and the reason is that these types are those of values which the axiom was
calculated from. The scopes foresee every value that there will be (`foresees_of_run`),
so whatever validation infers from them leaves room for the value that the axiom had. The
first build saw that this is a string, and the second finds nothing else. The run after
that is the one of `run_covering`, and what is put together is put together from the same
variables and on the same tree.
-/

namespace Lindenmayer.Tree

variable {t t' : Tree} {source : String} {system : System} {v : Variables} {s : Scopes}
  {ps : List (String × Expression)} {name : String}

/-- The types that a run has left leave room for values of the same types. -/
theorem foresees_of_run {env : Environment} (hstands : v.StandsFor s env)
    {lookup : ScopeId → String → Except EvalError Value}
    (htypes : ∀ scope x u, lookup scope x = .ok u →
      scope = Scopes.global ∧ ∃ u', env x = some u' ∧ u'.type = u.type) :
    { t with scopes := s }.Foresees lookup := by
  intro scope x u hu
  obtain ⟨rfl, u', hu', htype⟩ := htypes scope x u hu
  rw [declaredType, Scopes.visible?, Scopes.ancestry_global, List.findSome?_singleton]
  cases hlocal : s.local? Scopes.global x with
  | none => exact Or.inl rfl
  | some symbol =>
      have hknown := hstands.type hlocal
      rw [hu', Option.map_some, Option.getD_some, htype] at hknown
      exact Or.inr hknown

section Rebuilt

variable (hall : List.Forall₂ t.Assigns t.assignments ps) (hnodup : (ps.map Prod.fst).Nodup)
  (hok : (Environment.empty.run ps).1 = .ok ())
  (hstands : v.StandsFor s (Environment.empty.run ps).2)

include hall hnodup hok hstands

/-- There is nothing to say against an axiom that was a string when it was calculated. -/
theorem axiomFindings_of_run {text : String}
    (hfirst : ∃ node, t.firstAssignment axiomName = some node)
    (htext : v.globalString { t with scopes := s } axiomName = .ok text) :
    { t with scopes := s }.axiomFindings = [] := by
  obtain ⟨node, hfirst⟩ := hfirst
  obtain ⟨n, lookup, w, hchild, hw, hvalue, htypes⟩ :=
    value_of_firstAssignment hall hnodup hok hfirst
  rw [hstands.globalString_ok_iff, hvalue] at htext
  obtain rfl : w = .string text := Option.some.inj htext
  rw [← subtree_withScopes s] at hw
  exact (axiomFindings_eq_nil_iff (foresees_of_run hstands htypes) hfirst hchild hw).2 (Or.inl rfl)

/-- Nor is there against a number of generations that was large enough. -/
theorem recursionCountFindings_of_run {count : Int64}
    (hfirst : ∃ node, t.firstAssignment recursionCountName = some node)
    (hcount : v.globalInteger { t with scopes := s } recursionCountName = .ok count)
    (hle : 1 ≤ count.toInt) : { t with scopes := s }.recursionCountFindings = [] := by
  obtain ⟨node, hfirst⟩ := hfirst
  obtain ⟨n, lookup, w, hchild, hw, hvalue, htypes⟩ :=
    value_of_firstAssignment hall hnodup hok hfirst
  rw [hstands.globalInteger_ok_iff, hvalue] at hcount
  obtain rfl : w = .integer count := Option.some.inj hcount
  rw [← subtree_withScopes s] at hw
  refine (recursionCountFindings_eq_nil_iff (foresees_of_run hstands htypes) hfirst hchild hw).2
    ⟨Or.inl rfl, fun count' heq => Or.inl ?_⟩
  cases heq
  exact hle

end Rebuilt

/-- What was found of names that are used twice does not hang on any scope. -/
theorem duplicateRuleNames_withScopes (scopes : Scopes) :
    { t with scopes }.duplicateRuleNames = t.duplicateRuleNames := by
  rw [duplicateRuleNames, namedRules, find_withScopes, duplicateRuleNames, namedRules]
  rfl

/-- A program that has a system passes validation also on the tree that was left. -/
theorem validate_again (h : ofSource source = .ok t) (hvalid : t.validate = [])
    (hrun : Variables.empty.run t = (.ok (), v, t')) (hassemble : t'.assemble v = .ok system) :
    t'.validate = [] := by
  obtain ⟨program, v', s, _, hall, hrun', hstands⟩ := run_stands h
  rw [hrun, Prod.mk.injEq, Prod.mk.injEq] at hrun'
  obtain ⟨hok, rfl, rfl⟩ := hrun'
  obtain ⟨text, _, count, _, htext, _, hcount, hle, _, _⟩ := of_assemble_ok hassemble
  rw [validate, List.append_eq_nil_iff, List.append_eq_nil_iff, List.append_eq_nil_iff] at hvalid
  obtain ⟨⟨⟨hassignments, haxiom⟩, hcounts⟩, hrules⟩ := hvalid
  have hnodup : ((Statement.assignments program).map Prod.fst).Nodup := by
    rw [← map_name_of_assigns hall]
    exact (repeated_eq_nil_iff.1 (List.map_eq_nil_iff.1 hassignments)).1
  have hassignments' : { t with scopes := s }.duplicateAssignments = [] := hassignments
  have hfirst := exists_axiom haxiom
  have haxiom' : { t with scopes := s }.axiomFindings = [] :=
    axiomFindings_of_run hall hnodup hok.symm hstands hfirst htext
  have hcounts' : { t with scopes := s }.recursionCountFindings = [] :=
    recursionCountFindings_of_run hall hnodup hok.symm hstands (exists_recursionCount hcounts)
      hcount hle
  rw [validate, hassignments', haxiom', hcounts', duplicateRuleNames_withScopes, hrules]
  rfl

/-- A program that was built can be built again from the tree that is left, and comes to the
same system: the same axiom, rules, number of generations and values of placeholders. The
tree does not change any more. -/
theorem build_again (h : ofSource source = .ok t) (hbuild : t.build = (.ok system, t')) :
    t'.build = (.ok system, t') := by
  obtain ⟨hvalid, v, t₁, hrun, hassemble⟩ := of_build_ok (congrArg Prod.fst hbuild)
  obtain rfl : t₁ = t' := by
    rw [build, hvalid, hrun] at hbuild
    exact congrArg Prod.snd hbuild
  have hrunAgain : Variables.empty.run t₁ = (.ok (), v, t₁) :=
    run_covering h hrun (Variables.covering_empty v)
  rw [build, validate_again h hvalid hrun hassemble, hrunAgain]
  exact Prod.ext hassemble rfl

/-- The first build is told nothing about the axiom of this program, and the second that it is
a string. -/
theorem build_again_concatenation :
    ∃ t t' system, ofSource
        ("set n = 2\nset name = 'F'\nset axiom = name + n\n" ++
          "set recursionCount = n * n\nrule r: F -> F+F") = .ok t ∧
      t.typeOf .empty ⟨11⟩ = .ok .unknown ∧ t'.typeOf .empty ⟨11⟩ = .ok .string ∧
      t.build = (.ok system, t') ∧ t'.build = (.ok system, t') := by
  have hcheck : (ofSource
      ("set n = 2\nset name = 'F'\nset axiom = name + n\n" ++
        "set recursionCount = n * n\nrule r: F -> F+F")).toOption.any (fun t =>
      t.typeOf .empty ⟨11⟩ = .ok .unknown ∧ t.build.2.typeOf .empty ⟨11⟩ = .ok .string ∧
        t.build.1.toOption.isSome) = true := by decide +kernel
  obtain ⟨t, ht, hfacts⟩ := exists_of_checked hcheck
  obtain ⟨hbefore, hafter, hsome⟩ := of_decide_eq_true hfacts
  rcases hbuild : t.build with ⟨outcome, t'⟩
  rw [hbuild] at hafter hsome
  cases outcome with
  | error cause => cases hsome
  | ok system => exact ⟨t, t', system, ht, hbefore, hafter, hbuild, build_again ht hbuild⟩

end Lindenmayer.Tree
