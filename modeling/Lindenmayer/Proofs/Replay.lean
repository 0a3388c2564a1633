import Lindenmayer.Proofs.Evaluation
import Lindenmayer.Proofs.Fixation
import Lindenmayer.Proofs.Globals

/-!
# Running a program again

A program may be run again on what its run has left: the values of all variables, also of
those that are assigned late, and scopes in which all of them have their types. What
comes out is what there was. No assignment finds out more than it did, because what it
found out the first time hung on names that had values by then, and these names get the
same values again before it is its turn. And where the first run stopped, the second has
nothing that the first had not.

So the invariant of the second run is not that nothing changes, which is false while it is
under way for a name that is assigned twice. It is that the values at any time are those of
the first run at that time, laid over the values that the second one started with
(`Variables.covering`). The scopes do stay the same all the time, since every type that is
given was given already (`Scopes.Settles`). `assignAll_covering` is the induction along the
assignments. It says something of any values underneath, and in particular of none, which
is the run of a fresh interpreter on scopes that were run in before.
-/

namespace Lindenmayer

/-! ## Scopes that were settled further -/

namespace Scopes

variable {s s' s'' : Scopes} {id : ScopeId} {name : String} {symbol : SymbolId}
  {type : ValueType} {site : Option NodeId}

/-- Whether scopes have every symbol that others have, in its place and with the type that
it had, if it had one. -/
structure Settles (s' s : Scopes) : Prop where
  found : ∀ {id name symbol}, s.local? id name = some symbol → s'.local? id name = some symbol
  type_eq : ∀ {id name symbol}, s.local? id name = some symbol →
    (s.symbol symbol).type ≠ .unknown → (s'.symbol symbol).type = (s.symbol symbol).type

namespace Settles

theorem refl (s : Scopes) : s.Settles s := ⟨fun h => h, fun _ _ => rfl⟩

theorem trans (h' : s''.Settles s') (h : s'.Settles s) : s''.Settles s where
  found hsome := h'.found (h.found hsome)
  type_eq hsome hknown := by
    have htype := h.type_eq hsome hknown
    rw [h'.type_eq (h.found hsome) (by rw [htype]; exact hknown), htype]

theorem define (h : s.WellNamed) (hdefine : s.define id name type site = .ok (symbol, s')) :
    s'.Settles s := by
  have hafter : s.after (.define id name type site) = s' := by rw [after, hdefine]
  refine ⟨fun hsome => ?_, fun hsome hknown => ?_⟩
  · rw [← hafter]
    exact (found_after h hsome _).1
  · rw [← hafter, (found_after h hsome _).2]
    cases s.defined? _ _ _ with
    | none => rfl
    | some d => exact congrArg Symbol.type (if_neg hknown)

end Settles

theorem isConcrete_of_define (hdefine : s.define id name type site = .ok (symbol, s')) :
    type.isConcrete = true := by
  by_contra hconcrete
  rw [define_of_not_concrete (Bool.eq_false_of_not_eq_true hconcrete)] at hdefine
  cases hdefine

theorem WellNamed.define (h : s.WellNamed)
    (hdefine : s.define id name type site = .ok (symbol, s')) : s'.WellNamed := by
  have hafter : s.after (.define id name type site) = s' := by rw [after, hdefine]
  rw [← hafter]
  rcases after_define s id name type site with ⟨hnone, heq⟩ | ⟨symbol, hsome, heq⟩ | heq
  · rw [heq]
    exact h.insert hnone type site
  · rw [heq]
    exact h.retype (h.symbol_lt hsome) type site
  · rw [heq]
    exact h

/-- A name that was defined has the symbol that was answered, and that has the type. -/
theorem found_define (h : s.WellNamed) (hid : id.index < s.scopes.size)
    (hdefine : s.define id name type site = .ok (symbol, s')) :
    s'.local? id name = some symbol ∧ (s'.symbol symbol).type = type := by
  have hconcrete := isConcrete_of_define hdefine
  cases hlocal : s.local? id name with
  | none =>
      rw [define_of_none hconcrete site hlocal] at hdefine
      have hinsert := Except.ok.inj hdefine
      obtain rfl : ⟨s.symbols.size⟩ = symbol := congrArg Prod.fst hinsert
      rw [← show (s.insert id name type site).2 = s' from congrArg Prod.snd hinsert,
        local?_insert hlocal, if_pos ⟨rfl, hid, rfl⟩, symbol_insert, if_pos rfl]
      exact ⟨rfl, rfl⟩
  | some old =>
      by_cases hsame : (s.symbol old).type = type
      · rw [define_of_same hconcrete site hlocal hsame] at hdefine
        cases hdefine
        exact ⟨hlocal, hsame⟩
      · by_cases hunknown : (s.symbol old).type = .unknown
        · rw [define_of_unknown hconcrete site hlocal hunknown] at hdefine
          cases hdefine
          refine ⟨hlocal, ?_⟩
          rw [symbol_retype (h.symbol_lt hlocal), if_pos rfl]
        · rw [define_of_ne hconcrete site hlocal hunknown hsame] at hdefine
          cases hdefine

/-- Whatever was done since, a name may be defined with the same type again, and nothing
comes of it. -/
theorem Settles.define_again (h : s''.Settles s') (hw : s.WellNamed)
    (hid : id.index < s.scopes.size)
    (hdefine : s.define id name type site = .ok (symbol, s')) :
    s''.define id name type site = .ok (symbol, s'') := by
  obtain ⟨hsome, htype⟩ := found_define hw hid hdefine
  have hconcrete := isConcrete_of_define hdefine
  have hknown : (s'.symbol symbol).type ≠ .unknown := by
    rw [htype]
    exact ne_unknown_of_isConcrete hconcrete
  exact define_of_same hconcrete site (h.found hsome) ((h.type_eq hsome hknown).trans htype)

end Scopes

/-! ## Values over other values -/

namespace Variables

variable {v v' u : Variables} {symbol : SymbolId} {w : Value}

/-- Values, with those of other symbols underneath. -/
def covering (v u : Variables) : Variables :=
  ⟨v.values ++ u.values.filter fun entry => (v.get? entry.1).isNone⟩

theorem get?_covering (h : v.get? symbol = some w) : (v.covering u).get? symbol = some w := by
  rw [get?] at h
  rw [get?, covering, List.lookup_append, h]
  rfl

theorem empty_covering (u : Variables) : empty.covering u = u := by
  have hall : u.values.filter (fun entry => (empty.get? entry.1).isNone) = u.values :=
    List.filter_eq_self.2 fun _ _ => rfl
  rw [covering, hall]
  rfl

theorem covering_empty (v : Variables) : v.covering empty = v := by
  rw [covering, show empty.values = [] from rfl, List.filter_nil, List.append_nil]

theorem covering_self (v : Variables) : v.covering v = v := by
  have hnone : v.values.filter (fun entry => (v.get? entry.1).isNone) = [] := by
    refine List.filter_eq_nil_iff.2 fun entry hentry hfree => ?_
    have hfree := List.lookup_eq_none_iff.1 (Option.isNone_iff_eq_none.1 hfree) entry hentry
    simp at hfree
  rw [covering, hnone, List.append_nil]

theorem set_covering (v u : Variables) (symbol : SymbolId) (w : Value) :
    (v.covering u).set symbol w = (v.set symbol w).covering u := by
  rw [covering, set, covering, set, List.filter_append, List.filter_filter]
  congr 3
  refine List.filter_congr fun entry _ => ?_
  have hget := get?_set v symbol w entry.1
  rw [set] at hget
  rw [hget]
  by_cases heq : entry.1 = symbol
  · simp [heq]
  · simp [heq]

end Variables

/-! ## One assignment -/

namespace Variables

variable {v v' u : Variables} {t t' : Tree} {a : Assignment} {p : String × Expression}

/-- An assignment goes well if its expression has a value and its name may have the type. -/
theorem assign_eq_ok_iff : v.assign t a = .ok (v', t') ↔
    ∃ n w symbol s, t.firstChild a.node = some n ∧ t.evaluate v.context n = .ok w ∧
      t.scopes.define a.scope a.name w.type (some a.node) = .ok (symbol, s) ∧
      v' = v.set symbol w ∧ t' = { t with scopes := s } := by
  constructor
  · intro h
    rw [assign] at h
    split at h
    · cases h
    · next n hchild =>
        rw [Tree.reduce] at h
        cases hvalue : t.evaluate v.context n with
        | error e =>
            rw [hvalue] at h
            cases e <;> cases h
        | ok w =>
            rw [hvalue] at h
            dsimp only at h
            split at h
            · cases h
            · next symbol s hdefine =>
                cases h
                exact ⟨n, w, symbol, s, hchild, hvalue, hdefine, rfl, rfl⟩
  · rintro ⟨n, w, symbol, s, hchild, hvalue, hdefine, rfl, rfl⟩
    rw [assign, hchild]
    dsimp only
    rw [Tree.reduce, hvalue]
    dsimp only
    rw [hdefine]

/-- What has a value has it also where more names have values and more symbols have types. -/
theorem evaluate_covering {s s' : Scopes} (hsettles : s'.Settles s) {e : Expression} {n : NodeId}
    {w : Value} (hshows : e.Shows Scopes.global (t.subtree n))
    (h : { t with scopes := s }.evaluate v.context n = .ok w) :
    { t with scopes := s' }.evaluate (v.covering u).context n = .ok w := by
  have hglobal : ∀ lookup : ScopeId → String → Except EvalError Value,
      (t.subtree n).evaluate lookup =
        (t.subtree n).evaluate fun _ => lookup Scopes.global := fun lookup => by
    rw [hshows.evaluate, hshows.evaluate]
  rw [Tree.evaluate, Tree.subtree_withScopes, hglobal] at h ⊢
  refine Subtree.evaluate_of_agree (fun _ name x hx => ?_) h
  -- Only the global scope is around, so there is one symbol to look at.
  rw [context, lookup, Scopes.ancestry_global, List.findSome?_singleton] at hx ⊢
  cases hbound : (s.local? Scopes.global name).bind v.get? with
  | none =>
      rw [hbound] at hx
      cases hx
  | some y =>
      rw [hbound] at hx
      cases hx
      obtain ⟨symbol, hsymbol, hget⟩ := Option.bind_eq_some_iff.1 hbound
      rw [hsettles.found hsymbol, Option.bind_some, get?_covering hget]

/-- An assignment that went well goes well again later on, with other values underneath. -/
theorem assign_covering {s s₁ s' : Scopes} (ha : t.Assigns a p) (hw : s.WellNamed)
    (h : v.assign { t with scopes := s } a = .ok (v', { t with scopes := s₁ }))
    (hsettles : s'.Settles s₁) (u : Variables) :
    (v.covering u).assign { t with scopes := s' } a =
      .ok (v'.covering u, { t with scopes := s' }) := by
  obtain ⟨_, hscope, m, hchild, hshows⟩ := ha
  obtain ⟨n, w, symbol, s₂, hchild', hvalue, hdefine, rfl, htree⟩ := assign_eq_ok_iff.1 h
  obtain rfl : m = n := Option.some.inj (hchild.symm.trans hchild')
  obtain rfl : s₁ = s₂ := congrArg Tree.scopes htree
  have hid : a.scope.index < s.scopes.size := by
    rw [hscope]
    exact hw.global_lt
  refine assign_eq_ok_iff.2
    ⟨m, w, symbol, s', hchild, ?_, ?_, (set_covering v u symbol w).symm, rfl⟩
  · exact evaluate_covering (hsettles.trans (.define hw hdefine)) hshows hvalue
  · exact hsettles.define_again hw hid hdefine

/-! ## Whole runs -/

/-- A run does nothing to a tree but to settle its scopes further. -/
theorem assignAll_settles (as : List Assignment) : ∀ {v : Variables} {s : Scopes}, s.WellNamed →
    ∃ s', (v.assignAll { t with scopes := s } as).2.2 = { t with scopes := s' } ∧
      s'.Settles s := by
  induction as with
  | nil =>
      intro v s _
      exact ⟨s, rfl, .refl s⟩
  | cons a as ih =>
      intro v s hw
      rw [assignAll]
      split
      · exact ⟨s, rfl, .refl s⟩
      · next v₁ t₁ hassign =>
          obtain ⟨_, _, _, s₁, _, _, hdefine, rfl, rfl⟩ := assign_eq_ok_iff.1 hassign
          obtain ⟨s', htree, hsettles⟩ := ih (hw.define hdefine)
          exact ⟨s', htree, hsettles.trans (.define hw hdefine)⟩

/-- A run can be repeated on the tree that it left, with the values that it started from
laid over any others, if these others are covered by the values it ended with. -/
theorem assignAll_covering {as : List Assignment} {ps : List (String × Expression)}
    (hall : List.Forall₂ t.Assigns as ps) : ∀ {v : Variables} {s : Scopes}, s.WellNamed →
    ∀ {result v'} {t' : Tree}, v.assignAll { t with scopes := s } as = (result, v', t') →
      v'.covering u = v' → (v.covering u).assignAll t' as = (result, v', t') := by
  induction hall with
  | nil =>
      intro v s _ result v' t' h hu
      cases h
      rw [hu, assignAll]
  | @cons a p as ps ha _ ih =>
      intro v s hw result v' t' h hu
      rw [assignAll] at h
      split at h
      · next e herror =>
          -- The first run stopped here, so the second is where that was.
          cases h
          rw [hu, assignAll, herror]
      · next v₁ t₁ hassign =>
          obtain ⟨_, _, _, s₁, _, _, hdefine, _, rfl⟩ := assign_eq_ok_iff.1 hassign
          obtain ⟨s', htree, hsettles⟩ := assignAll_settles as (v := v₁) (hw.define hdefine)
          rw [h] at htree
          obtain rfl : t' = { t with scopes := s' } := htree
          rw [assignAll, assign_covering ha hw hassign hsettles u]
          exact ih (hw.define hdefine) h hu

end Variables

namespace Tree

variable {t t' : Tree} {source : String} {result : Except RunError Unit} {v : Variables}

/-- The tree that a run leaves, and any run on it with values that the first one covers. -/
theorem run_covering (h : ofSource source = .ok t) (hrun : Variables.empty.run t = (result, v, t'))
    {u : Variables} (hu : v.covering u = v) : u.run t' = (result, v, t') := by
  obtain ⟨_, _, s, _, hall, hstands, _⟩ := run_stands h
  have hagain := Variables.assignAll_covering hall (wellNamed_of_ofSource h) (v := .empty) (u := u)
    hrun hu
  obtain rfl : t' = { t with scopes := s } := by
    rw [hrun] at hstands
    exact congrArg (·.2.2) hstands
  rw [Variables.empty_covering] at hagain
  exact hagain

/-- What the last run of a program answers and leaves when it is run `again` times after the
first, each time with the values and on the tree that the run before has left. -/
def runs (t : Tree) : Nat → Except RunError Unit × Variables × Tree
  | 0 => Variables.empty.run t
  | again + 1 =>
    let (_, v, t') := t.runs again
    v.run t'

/-- To run a program again changes nothing, however often it is done: it ends alike, also
with an error, and the variables and the tree with its scopes are those that the first run
left. -/
theorem runs_eq_run (h : ofSource source = .ok t) (again : Nat) :
    t.runs again = Variables.empty.run t := by
  induction again with
  | zero => rfl
  | succ again ih =>
      rw [runs, ih]
      exact run_covering h rfl (Variables.covering_self _)

/-- A run that stops at a type, after a variable was assigned from itself. In the second
run `b` has a value from the start, and `a` the one it had at the end. -/
theorem runs_eq_run_conflict :
    ∃ t, ofSource
        "set a = 1\nset b = a + 1\nset a = a * 5 + b\nset b = 'x' + a\nset c = a" = .ok t ∧
      (Variables.empty.run t).1 = .error (.scope (.typeConflict "b" .integer .string)) ∧
      (Variables.empty.run t).2.1.size = 2 ∧
      t.runs 2 = Variables.empty.run t := by
  have hcheck : (ofSource
      "set a = 1\nset b = a + 1\nset a = a * 5 + b\nset b = 'x' + a\nset c = a").toOption.any
        (fun t => (Variables.empty.run t).1 = .error (.scope (.typeConflict "b" .integer .string)) ∧
        (Variables.empty.run t).2.1.size = 2) = true := by decide +kernel
  obtain ⟨t, ht, hfacts⟩ := exists_of_checked hcheck
  obtain ⟨herror, hsize⟩ := of_decide_eq_true hfacts
  exact ⟨t, ht, herror, hsize, runs_eq_run ht 2⟩

end Tree

end Lindenmayer
