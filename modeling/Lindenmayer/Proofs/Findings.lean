import Lindenmayer.Proofs.Definitions
import Lindenmayer.Proofs.Validation
import Mathlib.Data.Finset.Card
import Mathlib.Data.List.Infix

/-!
# Validation finds everything, once

Validation goes over assignments and over rules with a list of the names seen so
far, and it looks at two variables case by case. What comes of that can be said
without either. An item is reported where one in front of it has its name
(`recurring`), so there are as many reports as there are items beyond the first of
each name. And of each of the two variables there is one thing to say at most:
nobody assigns it, the value that it is assigned first is known to fail, or that
value is known to be unfit. `Objection` lists these, and `Reports` says of the
findings about a variable that they are one objection, or none just if there is
none.

Objections may overlap: a quotient by zero fails, and is known to be an integer all
the same. Validation tries evaluation first and stops there. Nothing of that order
is left in the statement, which asks for one of the objections and not for a
certain one.
-/

namespace Lindenmayer

/-- The items of a list that have the key of an item in front of them. -/
def recurring {α : Type} (key : α → String) (l : List α) : List α :=
  ((l.zip l.inits).filter fun p => key p.1 ∈ p.2.map key).map Prod.fst

namespace Tree

/-! ## Names that come again -/

section Repeated

variable {α : Type} {key : α → String}

/-- All that matters of the names seen so far is which ones there are. -/
theorem repeated_congr {seen seen' : List String} (h : ∀ k, k ∈ seen ↔ k ∈ seen') (l : List α) :
    repeated key seen l = repeated key seen' l := by
  induction l generalizing seen seen' with
  | nil => rfl
  | cons a l ih =>
      have hmore : ∀ k, k ∈ key a :: seen ↔ k ∈ key a :: seen' := by
        intro k
        rw [List.mem_cons, List.mem_cons, h k]
      simp only [repeated, List.contains_iff_mem, h (key a), ih h, ih hmore]

theorem repeated_cons (seen : List String) (a : α) (l : List α) :
    repeated key seen (a :: l) =
      (if key a ∈ seen then [a] else []) ++ repeated key (key a :: seen) l := by
  rw [repeated]
  by_cases ha : key a ∈ seen
  · have hsame : ∀ k, k ∈ seen ↔ k ∈ key a :: seen := by
      intro k
      rw [List.mem_cons]
      exact ⟨.inr, fun h => h.elim (fun hk => hk ▸ ha) id⟩
    rw [if_pos (List.contains_iff_mem.2 ha), if_pos ha, repeated_congr hsame]
    rfl
  · rw [if_neg (by rwa [List.contains_iff_mem]), if_neg ha]
    rfl

/-- What is found with a list of names seen so far, said of each item and those in
front of it. -/
theorem repeated_eq_filter (seen : List String) (l : List α) :
    repeated key seen l =
      ((l.zip l.inits).filter fun p => key p.1 ∈ p.2.map key ++ seen).map Prod.fst := by
  induction l generalizing seen with
  | nil => rfl
  | cons a l ih =>
      have hpred : ∀ p : α × List α,
          decide (key p.1 ∈ (a :: p.2).map key ++ seen) =
            decide (key p.1 ∈ p.2.map key ++ key a :: seen) := by
        intro p
        refine decide_eq_decide.2 ?_
        rw [List.map_cons, List.cons_append]
        exact (List.perm_middle.mem_iff).symm
      have hrest : ((l.zip (l.inits.map (a :: ·))).filter
            fun p => key p.1 ∈ p.2.map key ++ seen).map Prod.fst =
          repeated key (key a :: seen) l := by
        rw [ih, List.zip_map_right, List.filter_map, List.map_map]
        exact congrArg (List.map Prod.fst) (List.filter_congr fun p _ => hpred p)
      rw [repeated_cons, List.inits_cons, List.zip_cons_cons, List.filter_cons]
      by_cases ha : key a ∈ seen
      · rw [if_pos ha, if_pos (by simpa using ha), List.map_cons, hrest]
        rfl
      · rw [if_neg ha, if_neg (by simpa using ha), hrest]
        rfl

theorem repeated_eq_recurring (l : List α) : repeated key [] l = recurring key l := by
  rw [repeated_eq_filter, recurring]
  simp only [List.append_nil]

/-- There are as many items found as there are items more than new names. -/
theorem length_repeated (seen : List String) (l : List α) :
    (repeated key seen l).length + ((l.map key).toFinset \ seen.toFinset).card = l.length := by
  induction l generalizing seen with
  | nil => simp [repeated]
  | cons a l ih =>
      have hlength := ih (key a :: seen)
      rw [repeated_cons, List.map_cons, List.toFinset_cons, List.length_append, List.length_cons]
      rw [List.toFinset_cons, Finset.sdiff_insert] at hlength
      by_cases ha : key a ∈ seen
      · have hnot : key a ∉ (l.map key).toFinset \ seen.toFinset := by simp [ha]
        rw [Finset.erase_eq_of_notMem hnot] at hlength
        rw [if_pos ha, Finset.insert_sdiff_of_mem _ (List.mem_toFinset.2 ha), List.length_singleton]
        omega
      · have hmem : key a ∈ insert (key a) (l.map key).toFinset \ seen.toFinset := by simp [ha]
        have hcard := Finset.card_erase_add_one hmem
        rw [Finset.insert_sdiff_of_notMem _ (by simpa using ha),
          Finset.erase_insert_eq_erase] at hcard
        rw [if_neg ha, Finset.insert_sdiff_of_notMem _ (by simpa using ha), List.length_nil]
        omega

theorem length_recurring (l : List α) :
    (recurring key l).length + (l.map key).toFinset.card = l.length := by
  have h := @length_repeated _ key [] l
  rwa [repeated_eq_recurring, List.toFinset_nil, Finset.sdiff_empty] at h

end Repeated

/-! ## What there is to say against a variable -/

variable {t : Tree} {name : String} {a : Assignment} {n : NodeId} {node : NodeId}

/-- Whether `a` is the first assignment of a name at top level, and `n` the
expression that it assigns. -/
structure FirstAssigns (t : Tree) (name : String) (a : Assignment) (n : NodeId) : Prop where
  first : ∃ before after, t.assignments = before ++ a :: after ∧ ∀ b ∈ before, b.name ≠ name
  name_eq : a.name = name
  value : t.firstChild a.node = some n

/-- Findings against a variable. `missing` is the problem that nobody assigns it,
and `unfit` tells what makes an expression one that it cannot be assigned. -/
inductive Objection (t : Tree) (name : String) (missing : Problem)
    (unfit : NodeId → Problem → Prop) : Finding → Prop where
  | missing (h : ∀ a ∈ t.assignments, a.name ≠ name) :
      Objection t name missing unfit ⟨missing, root, t.region root⟩
  | evaluation {a : Assignment} {n : NodeId} {e : EvalError} (h : t.FirstAssigns name a n)
      (he : t.reduce .empty n = .error e ∨ t.typeOf .empty n = .error e) :
      Objection t name missing unfit ⟨.evaluation e, n, t.fullRegion n⟩
  | unfit {a : Assignment} {n : NodeId} {p : Problem} (h : t.FirstAssigns name a n)
      (hp : unfit n p) : Objection t name missing unfit ⟨p, a.node, t.fullRegion a.node⟩

/-- Whether an expression is known not to have a type, and the problem that is. -/
def NotOfType (t : Tree) (type : ValueType) (wrong : ValueType → Problem) (n : NodeId)
    (p : Problem) : Prop :=
  ∃ actual, t.typeOf .empty n = .ok actual ∧ actual.isConcrete ∧ actual ≠ type ∧ p = wrong actual

/-- Whether an expression is known to be an integer below one, and the problem that is. -/
def TooSmall (t : Tree) (n : NodeId) (p : Problem) : Prop :=
  ∃ count : Int64, t.reduce .empty n = .ok (.literal (.integer count)) ∧ count.toInt < 1 ∧
    p = .recursionCountTooSmall count

/-- What there is to say against the axiom. -/
def AxiomObjection (t : Tree) : Finding → Prop :=
  t.Objection axiomName .missingAxiom (t.NotOfType .string .axiomType)

/-- What there is to say against the number of generations. -/
def RecursionCountObjection (t : Tree) : Finding → Prop :=
  t.Objection recursionCountName .missingRecursionCount fun n p =>
    t.NotOfType .integer .recursionCountType n p ∨ t.TooSmall n p

/-- Whether these findings make one of the objections that there are, once, and
none only where there is none. -/
structure Reports (fs : List Finding) (objection : Finding → Prop) : Prop where
  length_le : fs.length ≤ 1
  of_mem : ∀ f ∈ fs, objection f
  ne_nil : ∀ f, objection f → fs ≠ []

theorem FirstAssigns.firstAssignment_eq (h : t.FirstAssigns name a n) :
    t.firstAssignment name = some a.node := by
  obtain ⟨before, after, hsplit, hbefore⟩ := h.first
  have hfind : t.assignments.find? (·.name == name) = some a := by
    refine List.find?_eq_some_iff_append.2 ⟨by simp [h.name_eq], before, after, hsplit, ?_⟩
    exact fun b hb => by simp [hbefore b hb]
  rw [firstAssignment, hfind, Option.map_some]

theorem exists_firstAssigns {ps : List (String × Expression)}
    (hall : List.Forall₂ t.Assigns t.assignments ps) (h : t.firstAssignment name = some node) :
    ∃ a n, t.FirstAssigns name a n := by
  obtain ⟨a, hfind, rfl⟩ := Option.map_eq_some_iff.1 h
  obtain ⟨hname, before, after, hsplit, hbefore⟩ := List.find?_eq_some_iff_append.1 hfind
  obtain ⟨_, n, _, hchild, _⟩ := mem_of_firstAssignment hall h
  exact ⟨a, n, ⟨before, after, hsplit, fun b hb => by simpa using hbefore b hb⟩,
    by simpa using hname, hchild⟩

theorem not_assigned_of_firstAssignment (h : t.firstAssignment name = none) :
    ∀ a ∈ t.assignments, a.name ≠ name := by
  rw [firstAssignment, Option.map_eq_none_iff, List.find?_eq_none] at h
  exact fun a ha => by simpa using h a ha

namespace Objection

variable {missing : Problem} {unfit : NodeId → Problem → Prop} {f : Finding}

/-- Against a variable that is assigned there is only what its first value gives
rise to. -/
theorem cases_of_first (h : t.Objection name missing unfit f) (hfirst : t.FirstAssigns name a n) :
    (∃ e, t.reduce .empty n = .error e ∨ t.typeOf .empty n = .error e) ∨ ∃ p, unfit n p := by
  have hsame : ∀ {a' n'}, t.FirstAssigns name a' n' → n' = n := by
    intro a' n' hfirst'
    have hnode := hfirst'.firstAssignment_eq.symm.trans hfirst.firstAssignment_eq
    have hchild := hfirst'.value
    rw [Option.some.inj hnode, hfirst.value] at hchild
    exact (Option.some.inj hchild).symm
  cases h with
  | missing hnone =>
      obtain ⟨before, after, hsplit, _⟩ := hfirst.first
      exact absurd hfirst.name_eq (hnone a (by rw [hsplit]; simp))
  | evaluation hfirst' he => exact .inl ⟨_, hsame hfirst' ▸ he⟩
  | unfit hfirst' hp => exact .inr ⟨_, hsame hfirst' ▸ hp⟩

end Objection

/-- What is known of an expression before a run: that it fails, its value, or at
most its type. -/
theorem staticValue_cases (hchild : t.firstChild node = some n) :
    (∃ e, (t.reduce .empty n = .error e ∨ t.typeOf .empty n = .error e) ∧
      t.staticValue node = .error e) ∨
    (∃ v, t.reduce .empty n = .ok (.literal v) ∧ t.typeOf .empty n = .ok v.type ∧
      t.staticValue node = .ok (.value v)) ∨
    ∃ type m, t.reduce .empty n = .ok (.unchanged m) ∧ t.typeOf .empty n = .ok type ∧
      t.staticValue node = .ok (if type.isConcrete then .type type else .unknown) := by
  rw [staticValue, hchild]
  dsimp only
  cases hreduce : t.reduce .empty n with
  | error e => exact .inl ⟨e, .inl rfl, rfl⟩
  | ok reduced =>
      cases reduced with
      | literal v =>
          have hvalue : t.evaluate .empty n = .ok v := by
            rw [reduce] at hreduce
            split at hreduce
            · next hv =>
                cases hreduce
                exact hv
            · cases hreduce
            · cases hreduce
          exact .inr (.inl ⟨v, rfl, Subtree.typeOf_of_evaluate hvalue, rfl⟩)
      | unchanged m =>
          cases htype : t.typeOf .empty n with
          | error e => exact .inl ⟨e, .inr rfl, rfl⟩
          | ok type => exact .inr (.inr ⟨type, m, rfl, rfl, rfl⟩)

section Reports

variable {missing : Problem} {unfit : NodeId → Problem → Prop} {wrong : ValueType → Problem}
  {type actual : ValueType}

theorem Reports.singleton {objection : Finding → Prop} {f : Finding} (h : objection f) :
    Reports [f] objection :=
  ⟨Nat.le_refl 1, fun _ hf => List.mem_singleton.1 hf ▸ h, fun _ _ => List.cons_ne_nil _ _⟩

theorem reports_missing (h : t.firstAssignment name = none) :
    Reports [⟨missing, root, t.region root⟩] (t.Objection name missing unfit) :=
  .singleton (.missing (not_assigned_of_firstAssignment h))

theorem not_notOfType {p : Problem} (htype : t.typeOf .empty n = .ok actual)
    (h : actual.isConcrete = true → actual = type) : ¬ t.NotOfType type wrong n p := by
  rintro ⟨actual', hactual, hconcrete, hne, _⟩
  rw [htype] at hactual
  cases hactual
  exact hne (h hconcrete)

theorem not_tooSmall {reduced : Reduced} (hreduce : t.reduce .empty n = .ok reduced)
    (hne : ∀ count, reduced ≠ .literal (.integer count)) {p : Problem} : ¬ t.TooSmall n p := by
  rintro ⟨count, hcount, _⟩
  rw [hreduce] at hcount
  exact hne count (Except.ok.inj hcount)

namespace FirstAssigns

variable (h : t.FirstAssigns name a n)

include h

theorem reports_evaluation {e : EvalError}
    (he : t.reduce .empty n = .error e ∨ t.typeOf .empty n = .error e) :
    Reports [t.evaluationFinding a.node e] (t.Objection name missing unfit) := by
  rw [evaluationFinding, h.value]
  exact .singleton (.evaluation h he)

/-- There is nothing to report of a value that neither fails nor is unfit. -/
theorem reports_nil {reduced : Reduced} (hreduce : t.reduce .empty n = .ok reduced)
    (htype : t.typeOf .empty n = .ok actual) (hfit : ∀ p, ¬ unfit n p) :
    Reports [] (t.Objection name missing unfit) := by
  refine ⟨Nat.zero_le 1, fun _ hf => absurd hf List.not_mem_nil, fun f hf => ?_⟩
  rcases hf.cases_of_first h with ⟨e, he | he⟩ | ⟨p, hp⟩
  · rw [hreduce] at he
    cases he
  · rw [htype] at he
    cases he
  · exact absurd hp (hfit p)

/-- What is reported by the type of a value that does not fail. -/
theorem reports_type {reduced : Reduced} (hreduce : t.reduce .empty n = .ok reduced)
    (htype : t.typeOf .empty n = .ok actual) (hconcrete : actual.isConcrete = true)
    (hunfit : ∀ p, t.NotOfType type wrong n p → unfit n p)
    (hfit : actual = type → ∀ p, ¬ unfit n p) :
    Reports (if actual = type then [] else [⟨wrong actual, a.node, t.fullRegion a.node⟩])
      (t.Objection name missing unfit) := by
  split
  · next heq => exact h.reports_nil hreduce htype (hfit heq)
  · next hne => exact .singleton (.unfit h (hunfit _ ⟨actual, htype, hconcrete, hne, rfl⟩))

end FirstAssigns

end Reports

variable {ps : List (String × Expression)} (hall : List.Forall₂ t.Assigns t.assignments ps)

include hall

theorem reports_axiomFindings : Reports t.axiomFindings t.AxiomObjection := by
  cases hnode : t.firstAssignment axiomName with
  | none =>
      rw [axiomFindings, hnode]
      exact reports_missing hnode
  | some node =>
      obtain ⟨a, n, hfirst⟩ := exists_firstAssigns hall hnode
      rw [axiomFindings, hfirst.firstAssignment_eq]
      dsimp only
      rcases staticValue_cases hfirst.value with
        ⟨e, he, hstatic⟩ | ⟨v, hreduce, htype, hstatic⟩ | ⟨type, m, hreduce, htype, hstatic⟩
      · rw [hstatic]
        exact hfirst.reports_evaluation he
      · rw [hstatic]
        exact hfirst.reports_type hreduce htype v.isConcrete_type (fun _ => id)
          fun heq _ => not_notOfType htype fun _ => heq
      · rw [hstatic]
        cases hconcrete : type.isConcrete with
        | true =>
            exact hfirst.reports_type hreduce htype hconcrete (fun _ => id)
              fun heq _ => not_notOfType htype fun _ => heq
        | false =>
            exact hfirst.reports_nil hreduce htype fun _ =>
              not_notOfType htype (by simp [hconcrete])

/-- Only a value that is had already can be too small. -/
theorem reports_recursionCountFindings :
    Reports t.recursionCountFindings t.RecursionCountObjection := by
  cases hnode : t.firstAssignment recursionCountName with
  | none =>
      rw [recursionCountFindings, hnode]
      exact reports_missing hnode
  | some node =>
      obtain ⟨a, n, hfirst⟩ := exists_firstAssigns hall hnode
      rw [recursionCountFindings, hfirst.firstAssignment_eq]
      dsimp only
      rcases staticValue_cases hfirst.value with
        ⟨e, he, hstatic⟩ | ⟨v, hreduce, htype, hstatic⟩ | ⟨type, m, hreduce, htype, hstatic⟩
      · rw [hstatic]
        exact hfirst.reports_evaluation he
      · rw [hstatic]
        cases v with
        | integer count =>
            dsimp only
            split
            · next hlt => exact .singleton (.unfit hfirst (.inr ⟨count, hreduce, hlt, rfl⟩))
            · next hle =>
                refine hfirst.reports_nil hreduce htype fun p hp => ?_
                rcases hp with hp | ⟨count', hcount, hlt, _⟩
                · exact not_notOfType htype (fun _ => rfl) hp
                · rw [hreduce] at hcount
                  cases hcount
                  exact hle hlt
        | float x =>
            exact hfirst.reports_type hreduce htype rfl (fun _ => .inl)
              fun heq => absurd heq (show ValueType.float ≠ .integer by decide)
        | string str =>
            exact hfirst.reports_type hreduce htype rfl (fun _ => .inl)
              fun heq => absurd heq (show ValueType.string ≠ .integer by decide)
      · rw [hstatic]
        have hopen : ∀ count, Reduced.unchanged m ≠ .literal (.integer count) := by
          intro count heq
          cases heq
        cases hconcrete : type.isConcrete with
        | true =>
            exact hfirst.reports_type hreduce htype hconcrete (fun _ => .inl)
              fun heq p hp =>
                hp.elim (not_notOfType htype fun _ => heq) (not_tooSmall hreduce hopen)
        | false =>
            exact hfirst.reports_nil hreduce htype fun p hp =>
              hp.elim (not_notOfType htype (by simp [hconcrete])) (not_tooSmall hreduce hopen)

omit hall

/-! ## All findings -/

/-- The rules that have a name, with their names, in document order. -/
def rulesByName (t : Tree) : List (String × NodeId) :=
  (t.subtree root).preorder.filterMap fun n => (t.kind n).ruleName?.map (·, n)

theorem namedRules_eq (t : Tree) : t.namedRules = t.rulesByName := by
  rw [namedRules, find_eq, List.filterMap_filter, rulesByName]
  refine List.filterMap_congr fun n _ => ?_
  cases t.kind n with
  | rule name expected replacement => cases name <;> rfl
  | _ => rfl

theorem mem_assignments (ha : a ∈ t.assignments) :
    t.kind a.node = .assignment a.name a.scope ∧
      ∃ statement ∈ t.statements, t.firstChild statement = some a.node := by
  obtain ⟨statement, hstatement, hfirst⟩ := List.mem_filterMap.1 ha
  obtain ⟨n, hchild, hassignment⟩ := Option.bind_eq_some_iff.1 hfirst
  rw [assignment?] at hassignment
  split at hassignment
  · next hkind =>
      cases hassignment
      exact ⟨hkind, statement, hstatement, hchild⟩
  · cases hassignment

/-- Validation reports each assignment and each rule whose name was there before,
and of the axiom and of the number of generations one thing if there is any. -/
theorem validate_exact {source : String} (h : ofSource source = .ok t) :
    ∃ program axioms counts, Statement.ofSource source = .ok program ∧
      t.validate =
        (recurring Assignment.name t.assignments).map
            (fun a => ⟨.duplicateAssignment a.name, a.node, t.region a.node⟩) ++
          axioms ++ counts ++
          (recurring Prod.fst t.rulesByName).map
            (fun r => ⟨.duplicateRuleName r.1, r.2, t.region r.2⟩) ∧
      Reports axioms t.AxiomObjection ∧ Reports counts t.RecursionCountObjection ∧
      -- the assignments are those of the source, and so are the names of the rules
      List.Forall₂ t.Assigns t.assignments (Statement.assignments program) ∧
      (∀ a ∈ t.assignments, t.kind a.node = .assignment a.name a.scope ∧
        ∃ statement ∈ t.statements, t.firstChild statement = some a.node) ∧
      t.rulesByName.map Prod.fst =
        (Statement.definitionsAll program).filterMap RuleDefinition.name ∧
      -- there are as many reports as occurrences without those that are the first
      (recurring Assignment.name t.assignments).length +
        (t.assignments.map Assignment.name).toFinset.card = t.assignments.length ∧
      (recurring Prod.fst t.rulesByName).length +
        (t.rulesByName.map Prod.fst).toFinset.card = t.rulesByName.length := by
  cases hprogram : Statement.ofSource source with
  | error e =>
      rw [ofSource, hprogram] at h
      cases h
  | ok program =>
      obtain rfl := eq_ofStatements h hprogram
      have hall := assignments_ofStatements program
      refine ⟨program, _, _, rfl, ?_, reports_axiomFindings hall,
        reports_recursionCountFindings hall, hall, fun a => mem_assignments, ?_,
        length_recurring _, length_recurring _⟩
      · rw [validate, duplicateAssignments, duplicateRuleNames, namedRules_eq,
          repeated_eq_recurring, repeated_eq_recurring]
      · rw [← namedRules_eq, map_fst_namedRules]

/-- Two assignments too many, an axiom that is a number, no generation at all, and
a rule in a block that has the name of one outside. -/
theorem validate_exact_everything :
    ∃ t axioms counts, ofSource
        ("set n = 1\nset n = 2\nset axiom = 3\nset n = 'F'\nset recursionCount = 2 - 2\n" ++
          "rule r: F -> F\n\x7b rule r: F -> G \x7d\nrule: F -> F") = .ok t ∧
      t.validate.map Finding.problem = [.duplicateAssignment "n", .duplicateAssignment "n",
        .axiomType .integer, .recursionCountTooSmall 0, .duplicateRuleName "r"] ∧
      t.validate =
        (recurring Assignment.name t.assignments).map
            (fun a => ⟨.duplicateAssignment a.name, a.node, t.region a.node⟩) ++
          axioms ++ counts ++
          (recurring Prod.fst t.rulesByName).map
            (fun r => ⟨.duplicateRuleName r.1, r.2, t.region r.2⟩) ∧
      Reports axioms t.AxiomObjection ∧ Reports counts t.RecursionCountObjection := by
  have hcheck : (ofSource
      ("set n = 1\nset n = 2\nset axiom = 3\nset n = 'F'\nset recursionCount = 2 - 2\n" ++
        "rule r: F -> F\n\x7b rule r: F -> G \x7d\nrule: F -> F")).toOption.any
      (fun t => t.validate.map Finding.problem = [.duplicateAssignment "n",
        .duplicateAssignment "n", .axiomType .integer, .recursionCountTooSmall 0,
        .duplicateRuleName "r"]) = true := by decide +kernel
  obtain ⟨t, ht, hproblems⟩ := exists_of_checked hcheck
  obtain ⟨_, axioms, counts, _, hvalidate, haxioms, hcounts, _⟩ := validate_exact ht
  exact ⟨t, axioms, counts, ht, of_decide_eq_true hproblems, hvalidate, haxioms, hcounts⟩

end Tree

end Lindenmayer
