import Lindenmayer.Program.Interpreter
import Lindenmayer.Proofs.Symbols
import Mathlib.Data.List.Forall2

/-!
# A run as a map from names to values

A run keeps its values by symbol and the types of its variables in the scopes
of the tree. To whoever wrote the program it is something simpler: a map from
names to values, to which every assignment adds one. `Environment.run` is that
simpler run, over the assignments of a program as they were read.

`Variables.StandsFor` says that values and scopes together are such a map. One
assignment keeps it, whether it succeeds or fails (`StandsFor.assign`), and so
a run does (`StandsFor.assignAll`); the assignments that a tree lists are those
that the program was read with (`assignments_ofStatements`). What holds of the
simpler run therefore holds of a run, and no symbol has to be looked at again.
The last section is about the simpler run alone.
-/

namespace Lindenmayer

/-! ## Expressions as they were read -/

/-- The value of an expression, from the values of names. -/
def Expr.evaluate (lookup : String → Except EvalError Value) : Expr → Except EvalError Value
  | .number n _ => .ok (.ofNumber n)
  | .string s _ => .ok (.string s)
  | .identifier name _ => lookup name
  | .operation operator _ lhs rhs =>
    match lhs.evaluate lookup with
    | .error e => .error e
    | .ok l =>
      match rhs.evaluate lookup with
      | .error e => .error e
      | .ok r => Value.apply operator l r

theorem Expr.Shows.evaluate {scope : ScopeId} {lookup : ScopeId → String → Except EvalError Value}
    {e : Expr} {s : Subtree} (h : e.Shows scope s) :
    s.evaluate lookup = e.evaluate (lookup scope) := by
  induction e generalizing s with
  | number n region =>
      obtain ⟨id, rfl⟩ := h
      rfl
  | string str region =>
      obtain ⟨id, rfl⟩ := h
      rfl
  | identifier name region =>
      obtain ⟨id, rfl⟩ := h
      rfl
  | operation operator region lhs rhs ihl ihr =>
      obtain ⟨id, l, r, rfl, hl, hr⟩ := h
      rw [Subtree.evaluate, ihl hl, ihr hr]
      rfl

theorem Expression.Shows.evaluate {scope : ScopeId}
    {lookup : ScopeId → String → Except EvalError Value} {e : Expression} {s : Subtree}
    (h : e.Shows scope s) : s.evaluate lookup = e.value.evaluate (lookup scope) := by
  obtain ⟨id, value, rfl, hvalue⟩ := h
  rw [Subtree.evaluate]
  exact Expr.Shows.evaluate hvalue

/-- Each member of a list has a counterpart in a list that corresponds to it. -/
theorem exists_mem_of_forall₂ {α β : Type} {R : α → β → Prop} {as : List α} {bs : List β}
    (h : List.Forall₂ R as bs) {a : α} (ha : a ∈ as) : ∃ b ∈ bs, R a b := by
  induction h with
  | nil => cases ha
  | @cons _ b _ _ hab _ ih =>
      rcases List.mem_cons.1 ha with rfl | ha
      · exact ⟨b, List.mem_cons_self, hab⟩
      · obtain ⟨c, hc, hac⟩ := ih ha
        exact ⟨c, List.mem_cons_of_mem b hc, hac⟩

/-! ## Assignments as they were read -/

/-- The assignments at the top level of a program. -/
def Statement.assignments : List Statement → List (String × Expression)
  | [] => []
  | .assignment name _ value :: more => (name, value) :: assignments more
  | _ :: more => assignments more

namespace Tree

variable {t : Tree}

/-- Whether an assignment of a tree is one that was read, in the global scope. -/
structure Assigns (t : Tree) (a : Assignment) (p : String × Expression) : Prop where
  name : a.name = p.1
  scope : a.scope = Scopes.global
  value : ∃ n, t.firstChild a.node = some n ∧ p.2.Shows Scopes.global (t.subtree n)

theorem kind_of_subtree (hw : t.WellLinked) {n id : NodeId} {kind : NodeKind} {region : Region}
    {ss : List Subtree} (h : t.subtree n = .node id kind region ss) : t.kind n = kind := by
  rw [hw.subtree_eq] at h
  exact (Subtree.node.inj h).2.1

theorem children_of_subtree (hw : t.WellLinked) {n id : NodeId} {kind : NodeKind} {region : Region}
    {ss : List Subtree} (h : t.subtree n = .node id kind region ss) :
    (t.children n).map t.subtree = ss := by
  rw [hw.subtree_eq] at h
  exact (Subtree.node.inj h).2.2.2

theorem firstChild_of_subtree (hw : t.WellLinked) {n id : NodeId} {kind : NodeKind}
    {region : Region} {s : Subtree} {ss : List Subtree}
    (h : t.subtree n = .node id kind region (s :: ss)) :
    ∃ c, t.firstChild n = some c ∧ t.subtree c = s := by
  obtain ⟨c, cs, hcs, hc, _⟩ := List.map_eq_cons_iff.1 (children_of_subtree hw h)
  exact ⟨c, by rw [firstChild, hcs]; rfl, hc⟩

/-- A statement whose content is of another kind is no assignment. -/
theorem assignment?_of_subtree (hw : t.WellLinked) {n id id' : NodeId} {kind kind' : NodeKind}
    {full region : Region} {ss : List Subtree}
    (h : t.subtree n = .node id kind full [.node id' kind' region ss])
    (hkind : ∀ name scope, kind' ≠ .assignment name scope) :
    (t.firstChild n).bind t.assignment? = none := by
  obtain ⟨a, ha, hsub⟩ := firstChild_of_subtree hw h
  rw [ha, Option.bind_some, assignment?, kind_of_subtree hw hsub]
  split
  · exact absurd rfl (hkind _ _)
  · rfl

/-- The assignments among some statements of a tree are those among the
statements that they show. -/
theorem assignments_of_shows (hw : t.WellLinked) (sts : List Statement) {ns : List NodeId}
    (h : Statement.ShowsAll Scopes.global sts (ns.map t.subtree)) :
    List.Forall₂ t.Assigns (ns.filterMap fun n => (t.firstChild n).bind t.assignment?)
      (Statement.assignments sts) := by
  induction sts generalizing ns with
  | nil =>
      rw [Statement.ShowsAll] at h
      rw [List.map_eq_nil_iff.1 h]
      exact .nil
  | cons st more ih =>
      rw [Statement.ShowsAll] at h
      obtain ⟨s, ss, hss, hst, hmore⟩ := h
      obtain ⟨n, ns, rfl, rfl, rfl⟩ := List.map_eq_cons_iff.1 hss
      have hrest := ih hmore
      -- Of the four kinds of statements only the first puts something into the list.
      cases st with
      | assignment name region value =>
          rw [Statement.Shows] at hst
          obtain ⟨id, full, id', v, hn, hv⟩ := hst
          obtain ⟨a, ha, hsub⟩ := firstChild_of_subtree hw hn
          obtain ⟨c, hc, hcv⟩ := firstChild_of_subtree hw hsub
          have hassignment : t.assignment? a = some ⟨name, Scopes.global, a⟩ := by
            rw [assignment?, kind_of_subtree hw hsub]
          rw [List.filterMap_cons, ha, Option.bind_some, hassignment]
          exact .cons ⟨rfl, rfl, c, hc, by rw [hcv]; exact hv⟩ hrest
      | rule name expected replacement region =>
          rw [Statement.Shows] at hst
          obtain ⟨id, full, id', hn⟩ := hst
          rw [List.filterMap_cons, assignment?_of_subtree hw hn (fun _ _ h => by cases h)]
          exact hrest
      | block region body =>
          rw [Statement.Shows] at hst
          obtain ⟨id, full, id', inner, statements, hn, _⟩ := hst
          rw [List.filterMap_cons, assignment?_of_subtree hw hn (fun _ _ h => by cases h)]
          exact hrest
      | expression value =>
          rw [Statement.Shows] at hst
          obtain ⟨id, full, v, hn, id', w, rfl, _⟩ := hst
          rw [List.filterMap_cons, assignment?_of_subtree hw hn (fun _ _ h => by cases h)]
          exact hrest

theorem assignments_ofStatements (program : List Statement) :
    List.Forall₂ (ofStatements program).Assigns (ofStatements program).assignments
      (Statement.assignments program) := by
  obtain ⟨hw, region, ss, hroot, hshows⟩ := ofStatements_shows program
  rw [← children_of_subtree hw hroot] at hshows
  exact assignments_of_shows hw program hshows

end Tree

/-! ## The simpler run -/

/-- The values of the variables of a program, by name. -/
def Environment := String → Option Value

namespace Environment

def empty : Environment := fun _ => none

def set (env : Environment) (name : String) (v : Value) : Environment :=
  fun n => if n = name then some v else env n

def lookup (env : Environment) (name : String) : Except EvalError Value :=
  match env name with
  | some v => .ok v
  | none => .error (.unknownIdentifier name)

/-- Gives a name the value of an expression. What depends on a name without a
value has none, and no name changes its type. -/
def assign (env : Environment) (name : String) (e : Expression) : Except RunError Environment :=
  match e.value.evaluate env.lookup with
  | .error (.unknownIdentifier _) => .error (.notALiteral name)
  | .error cause => .error (.evaluation name cause)
  | .ok v =>
    match env name with
    | none => .ok (env.set name v)
    | some old =>
      if old.type = v.type then .ok (env.set name v)
      else .error (.scope (.typeConflict name old.type v.type))

/-- Executes assignments up to the first that fails, and answers what was there
by then. -/
def run (env : Environment) : List (String × Expression) → Except RunError Unit × Environment
  | [] => (.ok (), env)
  | (name, e) :: more =>
    match env.assign name e with
    | .error err => (.error err, env)
    | .ok env => env.run more

end Environment

/-! ## Values and scopes that stand for a map -/

namespace Variables

variable {v : Variables} {s : Scopes} {env : Environment} {name : String} {w : Value}

theorem lookup_filter_ne {symbol symbol' : SymbolId} (hne : symbol' ≠ symbol)
    (values : List (SymbolId × Value)) :
    (values.filter fun entry => entry.1 != symbol).lookup symbol' = values.lookup symbol' := by
  induction values with
  | nil => rfl
  | cons entry values ih =>
      obtain ⟨i, x⟩ := entry
      by_cases hi : i = symbol
      · rw [List.filter_cons_of_neg (by simp [hi]), ih, List.lookup_cons,
          beq_false_of_ne (by rw [hi]; exact hne)]
      · rw [List.filter_cons_of_pos (by simp [hi]), List.lookup_cons, List.lookup_cons, ih]

theorem get?_set (v : Variables) (symbol : SymbolId) (w : Value) (symbol' : SymbolId) :
    (v.set symbol w).get? symbol' = if symbol' = symbol then some w else v.get? symbol' := by
  rw [get?, set, List.lookup_cons]
  by_cases heq : symbol' = symbol
  · simp [heq]
  · rw [if_neg heq, beq_false_of_ne heq]
    exact lookup_filter_ne heq v.values

/-- Values by symbol and the scopes that the symbols are in are a map from
names: a name of the global scope has the value and the type that the map gives
it, and no other symbol has a value. -/
structure StandsFor (v : Variables) (s : Scopes) (env : Environment) : Prop where
  wellNamed : s.WellNamed
  value : ∀ name, (s.local? Scopes.global name).bind v.get? = env name
  type : ∀ {name symbol}, s.local? Scopes.global name = some symbol →
    (s.symbol symbol).type = ((env name).map Value.type).getD .unknown
  named : ∀ {symbol w}, v.get? symbol = some w → ∃ name, s.local? Scopes.global name = some symbol

namespace StandsFor

theorem empty (hw : s.WellNamed) (hu : s.Untyped) : Variables.empty.StandsFor s .empty where
  wellNamed := hw
  value name := by
    cases s.local? Scopes.global name with
    | none => rfl
    | some symbol => rfl
  type hsymbol := hu _ (hw.symbol_lt hsymbol)
  named h := by cases h

theorem lookup_eq (h : v.StandsFor s env) (name : String) :
    v.lookup s Scopes.global name = env.lookup name := by
  rw [Variables.lookup, Scopes.ancestry_global, List.findSome?_singleton, h.value name]
  rfl

/-- Where a name got a value, and the scopes know its symbol and type and are as
they were otherwise, the map has one value more. -/
theorem set (h : v.StandsFor s env) {s' : Scopes} {symbol : SymbolId} (hw : s'.WellNamed)
    (hname : s'.local? Scopes.global name = some symbol)
    (hsame : ∀ {symbol'}, s.local? Scopes.global name = some symbol' → symbol' = symbol)
    (hkeep : ∀ {n}, n ≠ name → s'.local? Scopes.global n = s.local? Scopes.global n)
    (htype : (s'.symbol symbol).type = w.type)
    (hother : ∀ {symbol'}, symbol' ≠ symbol → s'.symbol symbol' = s.symbol symbol') :
    (v.set symbol w).StandsFor s' (env.set name w) := by
  have hne : ∀ {n symbol'}, n ≠ name → s.local? Scopes.global n = some symbol' →
      symbol' ≠ symbol := by
    rintro n symbol' hn hsymbol' rfl
    exact hn (hw.injective hname ((hkeep hn).trans hsymbol')).2
  refine ⟨hw, fun n => ?_, fun {n symbol'} hsymbol' => ?_, fun {symbol' x} hx => ?_⟩
  · by_cases hn : n = name
    · subst hn
      rw [hname, Option.bind_some, get?_set, if_pos rfl, Environment.set, if_pos rfl]
    · rw [hkeep hn, Environment.set, if_neg hn, ← h.value n]
      cases hsymbol : s.local? Scopes.global n with
      | none => rfl
      | some symbol' =>
          rw [Option.bind_some, Option.bind_some, get?_set, if_neg (hne hn hsymbol)]
  · by_cases hn : n = name
    · subst hn
      rw [hname] at hsymbol'
      cases hsymbol'
      rw [htype, Environment.set, if_pos rfl]
      rfl
    · rw [hkeep hn] at hsymbol'
      rw [hother (hne hn hsymbol'), h.type hsymbol', Environment.set, if_neg hn]
  · rw [get?_set] at hx
    split at hx
    · next heq => exact ⟨name, by rw [heq]; exact hname⟩
    · next hsymbol' =>
        obtain ⟨n, hn⟩ := h.named hx
        have hnn : n ≠ name := by
          rintro rfl
          exact hsymbol' (hsame hn)
        exact ⟨n, (hkeep hnn).trans hn⟩

/-- A name that has no value of another type is defined. -/
theorem define (h : v.StandsFor s env) (site : Option NodeId)
    (hfits : ∀ old, env name = some old → old.type = w.type) :
    ∃ symbol s', s.define Scopes.global name w.type site = .ok (symbol, s') ∧
      (v.set symbol w).StandsFor s' (env.set name w) := by
  have hlt : Scopes.global.index < s.scopes.size := h.wellNamed.global_lt
  -- The name is new, or it has a value already, or it was only mentioned so far.
  cases hlocal : s.local? Scopes.global name with
  | none =>
      refine ⟨_, (s.insert Scopes.global name w.type site).2,
        Scopes.define_of_none w.isConcrete_type site hlocal, ?_⟩
      refine h.set (h.wellNamed.insert hlocal w.type site) ?_ ?_ (fun {n} hn => ?_) ?_
        (fun {symbol'} hne => ?_)
      · exact (Scopes.local?_insert hlocal _ _ _ _).trans (if_pos ⟨rfl, hlt, rfl⟩)
      · intro symbol' hsymbol'
        rw [hlocal] at hsymbol'
        cases hsymbol'
      · rw [Scopes.local?_insert hlocal, if_neg (fun h => hn h.2.2)]
      · rw [Scopes.symbol_insert, if_pos rfl]
      · rw [Scopes.symbol_insert, if_neg hne]
  | some symbol =>
      have hsame : ∀ {symbol'}, s.local? Scopes.global name = some symbol' → symbol' = symbol := by
        intro symbol' hsymbol'
        rw [hlocal] at hsymbol'
        exact (Option.some.inj hsymbol').symm
      have hold := h.type hlocal
      cases henv : env name with
      | some old =>
          rw [henv, Option.map_some, Option.getD_some, hfits old henv] at hold
          exact ⟨_, _, Scopes.define_of_same w.isConcrete_type site hlocal hold,
            h.set h.wellNamed hlocal hsame (fun _ => rfl) hold (fun _ => rfl)⟩
      | none =>
          rw [henv, Option.map_none, Option.getD_none] at hold
          have hsize := h.wellNamed.symbol_lt hlocal
          refine ⟨_, _, Scopes.define_of_unknown w.isConcrete_type site hlocal hold, ?_⟩
          refine h.set (h.wellNamed.retype hsize w.type site) hlocal hsame (fun _ => rfl) ?_
            (fun {symbol'} hne => ?_)
          · rw [Scopes.symbol_retype hsize, if_pos rfl]
          · rw [Scopes.symbol_retype hsize, if_neg hne]

/-- A name that has a value of another type is not. -/
theorem define_conflict (h : v.StandsFor s env) (site : Option NodeId) {old : Value}
    (henv : env name = some old) (hne : old.type ≠ w.type) :
    s.define Scopes.global name w.type site =
      .error (.typeConflict name old.type w.type) := by
  cases hlocal : s.local? Scopes.global name with
  | none =>
      have hvalue := h.value name
      rw [hlocal, henv] at hvalue
      cases hvalue
  | some symbol =>
      have hold := h.type hlocal
      rw [henv, Option.map_some, Option.getD_some] at hold
      have hunknown : (s.symbol symbol).type ≠ .unknown := by
        rw [hold]
        cases old <;> simp [Value.type]
      rw [Scopes.define_of_ne w.isConcrete_type site hlocal hunknown (by rw [hold]; exact hne),
        hold]

variable {t : Tree}

/-- An assignment does to values and scopes what it does to the map. -/
theorem assign (h : v.StandsFor s env) {a : Assignment} {p : String × Expression}
    (ha : t.Assigns a p) :
    match env.assign p.1 p.2 with
    | .error e => v.assign { t with scopes := s } a = .error e
    | .ok env' => ∃ v' s', v.assign { t with scopes := s } a = .ok (v', { t with scopes := s' }) ∧
        v'.StandsFor s' env' := by
  obtain ⟨hname, hscope, n, hchild, hshows⟩ := ha
  have hvalue : { t with scopes := s }.evaluate v.context n = p.2.value.evaluate env.lookup := by
    rw [Tree.evaluate, Tree.subtree_withScopes, hshows.evaluate]
    exact congrArg p.2.value.evaluate (funext h.lookup_eq)
  have hfirst : { t with scopes := s }.firstChild a.node = some n := hchild
  rw [Environment.assign, Variables.assign, hfirst, hname, hscope]
  dsimp only
  rw [Tree.reduce, hvalue]
  cases p.2.value.evaluate env.lookup with
  | error cause =>
      cases cause with
      | unknownIdentifier x => rfl
      | _ => rfl
  | ok w =>
      dsimp only
      cases henv : env p.1 with
      | none =>
          obtain ⟨symbol, s', hdefine, hstands⟩ := h.define (w := w) (some a.node)
            (fun old hold => by rw [henv] at hold; cases hold)
          rw [hdefine]
          exact ⟨_, s', rfl, hstands⟩
      | some old =>
          dsimp only
          by_cases hsame : old.type = w.type
          · obtain ⟨symbol, s', hdefine, hstands⟩ := h.define (w := w) (some a.node)
              (fun old' hold => by rw [henv] at hold; cases hold; exact hsame)
            rw [if_pos hsame, hdefine]
            exact ⟨_, s', rfl, hstands⟩
          · rw [if_neg hsame, h.define_conflict (some a.node) henv hsame]

/-- A run ends as the run on the map does, and with what it has by then. -/
theorem assignAll {as : List Assignment} {ps : List (String × Expression)}
    (hall : List.Forall₂ t.Assigns as ps) (h : v.StandsFor s env) :
    ∃ v' s', v.assignAll { t with scopes := s } as = ((env.run ps).1, v', { t with scopes := s' }) ∧
      v'.StandsFor s' (env.run ps).2 := by
  induction hall generalizing v s env with
  | nil => exact ⟨v, s, rfl, h⟩
  | @cons a p as ps ha _ ih =>
      obtain ⟨name, e⟩ := p
      have hstep := h.assign ha
      rw [Variables.assignAll, Environment.run]
      split at hstep
      · next err herr =>
          rw [herr, hstep]
          exact ⟨v, s, rfl, h⟩
      · next env' henv' =>
          obtain ⟨v', s', hassign, hstands⟩ := hstep
          rw [henv', hassign]
          exact ih hstands

end StandsFor

end Variables

/-- A run of a program that was just read is the run on the empty map. -/
theorem Tree.run_stands {source : String} {t : Tree} (h : ofSource source = .ok t) :
    ∃ program v s, Statement.ofSource source = .ok program ∧
      List.Forall₂ t.Assigns t.assignments (Statement.assignments program) ∧
      Variables.empty.run t =
        ((Environment.empty.run (Statement.assignments program)).1, v, { t with scopes := s }) ∧
      v.StandsFor s (Environment.empty.run (Statement.assignments program)).2 := by
  have hempty := Variables.StandsFor.empty (wellNamed_of_ofSource h) (untyped_of_ofSource h)
  rw [ofSource] at h
  split at h
  · next program hprogram =>
      cases h
      have hall := assignments_ofStatements program
      obtain ⟨v, s, hrun, hstands⟩ := hempty.assignAll hall
      exact ⟨program, v, s, hprogram, hall, hrun, hstands⟩
  · cases h

/-! ## What the simpler run does -/

namespace Environment

variable {env : Environment} {ps : List (String × Expression)} {name : String} {e : Expression}

theorem set_of_assign {env' : Environment} (h : env.assign name e = .ok env') :
    ∃ v, e.value.evaluate env.lookup = .ok v ∧ env' = env.set name v := by
  rw [assign] at h
  split at h
  · cases h
  · cases h
  · next v hv =>
      split at h
      · cases h
        exact ⟨v, hv, rfl⟩
      · split at h
        · cases h
          exact ⟨v, hv, rfl⟩
        · cases h

/-- An assignment to a name without a value fails for its expression alone. -/
theorem error_of_assign {err : RunError} (hfree : env name = none)
    (h : env.assign name e = .error err) :
    err = .notALiteral name ∨ ∃ cause, e.value.evaluate env.lookup = .error cause ∧
      (∀ x, cause ≠ .unknownIdentifier x) ∧ err = .evaluation name cause := by
  rw [assign, hfree] at h
  split at h
  · cases h
    exact Or.inl rfl
  · next cause hne hcause =>
      cases h
      exact Or.inr ⟨cause, hcause, hne, rfl⟩
  · cases h

/-- Only names that are assigned get values. -/
theorem run_of_not_mem (h : name ∉ ps.map Prod.fst) : (env.run ps).2 name = env name := by
  induction ps generalizing env with
  | nil => rfl
  | cons p ps ih =>
      obtain ⟨n, e⟩ := p
      rw [List.map_cons, List.mem_cons, not_or] at h
      rw [run]
      split
      · rfl
      · next env' henv' =>
          obtain ⟨v, _, rfl⟩ := set_of_assign henv'
          rw [ih h.2, set, if_neg h.1]

/-- When a run is through, the names that are assigned have values, and those
that had one before. -/
theorem run_ne_none_iff (hok : (env.run ps).1 = .ok ()) :
    (env.run ps).2 name ≠ none ↔ env name ≠ none ∨ name ∈ ps.map Prod.fst := by
  induction ps generalizing env with
  | nil => simp [run]
  | cons p ps ih =>
      obtain ⟨n, e⟩ := p
      rw [run] at hok ⊢
      cases hassign : env.assign n e with
      | error err =>
          rw [hassign] at hok
          cases hok
      | ok env' =>
          rw [hassign] at hok
          obtain ⟨v, _, rfl⟩ := set_of_assign hassign
          refine (ih hok).trans ?_
          rw [set, List.map_cons, List.mem_cons]
          by_cases hn : name = n
          · simp [hn]
          · simp [hn]

theorem type_of_assign {env' : Environment} (h : env.assign name e = .ok env') {n : String}
    {u : Value} (hu : env n = some u) : ∃ u', env' n = some u' ∧ u'.type = u.type := by
  rw [assign] at h
  split at h
  · cases h
  · cases h
  · next v _ =>
      by_cases hn : n = name
      · subst hn
        rw [hu] at h
        dsimp only at h
        split at h
        · next hsame =>
            cases h
            exact ⟨v, if_pos rfl, hsame.symm⟩
        · cases h
      · -- Another name keeps its value, whichever way the assignment goes well.
        refine ⟨u, ?_, rfl⟩
        split at h
        · cases h
          rw [set, if_neg hn, hu]
        · split at h
          · cases h
            rw [set, if_neg hn, hu]
          · cases h

/-- No name changes its type. -/
theorem type_of_run {n : String} {u : Value} (hu : env n = some u) :
    ∃ u', (env.run ps).2 n = some u' ∧ u'.type = u.type := by
  induction ps generalizing env u with
  | nil => exact ⟨u, hu, rfl⟩
  | cons p ps ih =>
      obtain ⟨m, e⟩ := p
      rw [run]
      split
      · exact ⟨u, hu, rfl⟩
      · next env' henv' =>
          obtain ⟨u₁, hu₁, htype₁⟩ := type_of_assign henv' hu
          obtain ⟨u', hu', htype⟩ := ih hu₁
          exact ⟨u', hu', htype.trans htype₁⟩

/-- Where no name is assigned twice, each has the value of its expression when
a run is through, as it was calculated from names that keep their types. -/
theorem value_of_run (hnodup : (ps.map Prod.fst).Nodup) (hok : (env.run ps).1 = .ok ())
    (hmem : (name, e) ∈ ps) :
    ∃ env' v, e.value.evaluate (lookup env') = .ok v ∧ (env.run ps).2 name = some v ∧
      ∀ n u, env' n = some u → ∃ u', (env.run ps).2 n = some u' ∧ u'.type = u.type := by
  induction ps generalizing env with
  | nil => cases hmem
  | cons p ps ih =>
      obtain ⟨n, e'⟩ := p
      have htypes : ∀ m u, env m = some u → ∃ u', (env.run ((n, e') :: ps)).2 m = some u' ∧
          u'.type = u.type := fun _ _ hu => type_of_run hu
      rw [List.map_cons, List.nodup_cons] at hnodup
      rw [run] at hok htypes ⊢
      cases hassign : env.assign n e' with
      | error err =>
          rw [hassign] at hok
          cases hok
      | ok env' =>
          rw [hassign] at hok htypes
          rcases List.mem_cons.1 hmem with heq | hmem
          · cases heq
            obtain ⟨v, hv, rfl⟩ := set_of_assign hassign
            exact ⟨env, v, hv, by rw [run_of_not_mem hnodup.1, set, if_pos rfl], htypes⟩
          · exact ih hnodup.2 hok hmem

/-- Where no name is assigned twice, a run fails only for the expression of an
assignment, and never for a type. -/
theorem error_of_run {err : RunError} (hnodup : (ps.map Prod.fst).Nodup)
    (hfree : ∀ n ∈ ps.map Prod.fst, env n = none) (herr : (env.run ps).1 = .error err) :
    ∃ p ∈ ps, err = .notALiteral p.1 ∨
      ∃ env' cause, p.2.value.evaluate (lookup env') = .error cause ∧
        (∀ x, cause ≠ .unknownIdentifier x) ∧ err = .evaluation p.1 cause := by
  induction ps generalizing env with
  | nil => cases herr
  | cons p ps ih =>
      obtain ⟨n, e⟩ := p
      rw [List.map_cons, List.nodup_cons] at hnodup
      rw [List.map_cons, List.forall_mem_cons] at hfree
      rw [run] at herr
      cases hassign : env.assign n e with
      | error err' =>
          rw [hassign] at herr
          cases herr
          rcases error_of_assign hfree.1 hassign with hnot | ⟨cause, hcause⟩
          · exact ⟨(n, e), List.mem_cons_self, Or.inl hnot⟩
          · exact ⟨(n, e), List.mem_cons_self, Or.inr ⟨env, cause, hcause⟩⟩
      | ok env' =>
          rw [hassign] at herr
          obtain ⟨v, _, rfl⟩ := set_of_assign hassign
          -- The names that are still to come are as free as before.
          have hfree' : ∀ m ∈ ps.map Prod.fst, env.set n v m = none := by
            intro m hm
            have hmn : m ≠ n := by
              rintro rfl
              exact hnodup.1 hm
            rw [set, if_neg hmn]
            exact hfree.2 m hm
          obtain ⟨q, hq, hcause⟩ := ih hnodup.2 hfree' herr
          exact ⟨q, List.mem_cons_of_mem _ hq, hcause⟩

end Environment

end Lindenmayer
