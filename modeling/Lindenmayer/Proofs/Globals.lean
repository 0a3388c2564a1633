import Lindenmayer.Proofs.Environment
import Mathlib.Data.List.Nodup
import Mathlib.Data.List.Pairwise
import Mathlib.Data.String.Basic

/-!
# The variables that a run leaves

`Environment` compares a run with a map from names to values, one name at a
time. What is handed on from a run is a list, the variables of the global scope
in the order of their names, and this file says that the list is the map and
that there are no values besides it.

For that the tables of the scopes have to be in order, every name once
(`Scopes.Ordered`), and the values of a run must not have two for one symbol
(`Variables.Distinct`). Both hold at the start and survive every assignment,
whose whole effect is said once, in `effect_of_assign`. A table in order is read
alike by position and by name (`lookup_globals`), and since a symbol is in one
place of one table, counting names is counting values (`length_globals`).
-/

namespace Lindenmayer

/-! ## Lists of entries -/

section Entries

variable {α β γ : Type} [DecidableEq α] {entries : List (α × β)}

/-- Where no key is there twice, an entry is found under its key. -/
theorem lookup_eq_some_iff_mem (h : (entries.map Prod.fst).Nodup) {a : α} {b : β} :
    entries.lookup a = some b ↔ (a, b) ∈ entries := by
  induction entries with
  | nil => simp
  | cons entry entries ih =>
      obtain ⟨a', b'⟩ := entry
      rw [List.map_cons, List.nodup_cons] at h
      rw [List.lookup_cons, List.mem_cons, Prod.mk.injEq]
      by_cases ha : a = a'
      · obtain rfl := ha
        have hnot : (a, b) ∉ entries := fun hmem => h.1 (List.mem_map.2 ⟨_, hmem, rfl⟩)
        simp [hnot, eq_comm]
      · rw [beq_false_of_ne ha, ih h.2]
        simp [ha]

/-- Entries that are translated one by one, some of them to nothing, are found
under the keys they had. -/
theorem lookup_filterMap_snd (h : (entries.map Prod.fst).Nodup) (f : β → Option γ) (a : α) :
    (entries.filterMap fun (a, b) => (f b).map fun c => (a, c)).lookup a =
      (entries.lookup a).bind f := by
  induction entries with
  | nil => rfl
  | cons entry entries ih =>
      obtain ⟨a', b'⟩ := entry
      rw [List.map_cons, List.nodup_cons] at h
      by_cases ha : a = a'
      · subst ha
        -- Behind the entry of this key there is none, whatever became of it.
        have hrest : entries.lookup a = none := by
          cases hl : entries.lookup a with
          | none => rfl
          | some b =>
              have hmem := (lookup_eq_some_iff_mem h.2).1 hl
              exact absurd (List.mem_map_of_mem (f := Prod.fst) hmem) h.1
        have hthere := ih h.2
        rw [hrest] at hthere
        cases hf : f b' with
        | none => simp [hf, hthere]
        | some c => simp [hf]
      · cases hf : f b' with
        | none => simp [hf, List.lookup_cons, beq_false_of_ne ha, ih h.2]
        | some c => simp [hf, List.lookup_cons, beq_false_of_ne ha, ih h.2]

end Entries

/-! ## Tables in order -/

namespace Scopes

variable {s s' : Scopes} {id : ScopeId} {name : String} {symbol : SymbolId}

theorem mem_insertByName {table : List (String × SymbolId)} {entry : String × SymbolId} :
    entry ∈ insertByName name symbol table ↔ entry = (name, symbol) ∨ entry ∈ table := by
  induction table with
  | nil => simp [insertByName]
  | cons first table ih =>
      obtain ⟨n, i⟩ := first
      rw [insertByName]
      split
      · rw [List.mem_cons]
      · rw [List.mem_cons, ih, List.mem_cons, or_left_comm]

theorem pairwise_insertByName {table : List (String × SymbolId)}
    (h : table.Pairwise fun a b => a.1 < b.1) (hnone : table.lookup name = none) :
    (insertByName name symbol table).Pairwise fun a b => a.1 < b.1 := by
  induction table with
  | nil => exact List.pairwise_singleton _ _
  | cons first table ih =>
      obtain ⟨n, i⟩ := first
      rw [List.pairwise_cons] at h
      have hne : name ≠ n := by
        rintro rfl
        simp at hnone
      rw [List.lookup_cons, beq_false_of_ne hne] at hnone
      rw [insertByName]
      split
      · next hlt =>
          refine List.pairwise_cons.2 ⟨fun entry hentry => ?_, List.pairwise_cons.2 h⟩
          rcases List.mem_cons.1 hentry with rfl | hentry
          · exact hlt
          · exact hlt.trans (h.1 entry hentry)
      · next hlt =>
          refine List.pairwise_cons.2 ⟨fun entry hentry => ?_, ih h.2 hnone⟩
          rcases mem_insertByName.1 hentry with rfl | hentry
          · exact lt_of_le_of_ne (not_lt.1 hlt) hne.symm
          · exact h.1 entry hentry

/-- Whether every table is in the order of its names, each name once. -/
def Ordered (s : Scopes) : Prop := ∀ id, (s.scope id).table.Pairwise fun a b => a.1 < b.1

namespace Ordered

theorem nodup (h : s.Ordered) (id : ScopeId) : ((s.scope id).table.map Prod.fst).Nodup :=
  (List.pairwise_map.2 (h id)).nodup

/-- A symbol is in a table once. -/
theorem nodup_symbols (h : s.Ordered) (hw : s.WellNamed) (id : ScopeId) :
    ((s.scope id).table.map Prod.snd).Nodup := by
  have hkeys := h.nodup id
  refine List.Nodup.map_on (fun a ha b hb hab => ?_) (List.Nodup.of_map _ hkeys)
  obtain ⟨n, i⟩ := a
  obtain ⟨m, j⟩ := b
  obtain rfl : i = j := hab
  have hn := (lookup_eq_some_iff_mem hkeys).2 ha
  have hm := (lookup_eq_some_iff_mem hkeys).2 hb
  exact congrArg (fun n => (n, i)) (hw.injective hm hn).2

theorem initial : initial.Ordered := by
  rintro ⟨i⟩
  cases i with
  | zero => exact .nil
  | succ i => exact .nil

theorem insert (h : s.Ordered) (hnone : s.local? id name = none) (type : ValueType)
    (site : Option NodeId) : (s.insert id name type site).2.Ordered := by
  intro id'
  rw [Scopes.insert, scope_modifyScope]
  split
  · next hid =>
      obtain ⟨rfl, _⟩ := hid
      exact pairwise_insertByName (h id') hnone
  · exact h id'

theorem declare (h : s.Ordered) (id : ScopeId) (name : String) (site : Option NodeId) :
    (s.declare id name site).2.Ordered := by
  unfold Scopes.declare
  split
  · exact h
  · next hnone => exact h.insert hnone .unknown site

theorem create (h : s.Ordered) (name : String) (parent : ScopeId) :
    (s.create name parent).2.Ordered := by
  intro id'
  have hpush : (({ s with scopes := s.scopes.push ⟨name, some parent, [], []⟩ } : Scopes).scope
      id').table.Pairwise fun a b => a.1 < b.1 := by
    rw [scope_push]
    split
    · exact .nil
    · exact h id'
  rw [Scopes.create, scope_modifyScope]
  split
  · exact hpush
  · exact hpush

theorem createAnonymous (h : s.Ordered) (parent : ScopeId) :
    (s.createAnonymous parent).2.Ordered :=
  create (s := { s with anonymous := s.anonymous + 1 }) h _ parent

theorem define (h : s.Ordered) {type : ValueType} {site : Option NodeId}
    (hdefine : s.define id name type site = .ok (symbol, s')) : s'.Ordered := by
  rw [Scopes.define] at hdefine
  split at hdefine
  · cases hdefine
  · split at hdefine
    · next hnone =>
        have hinsert := h.insert hnone type site
        rw [Except.ok.inj hdefine] at hinsert
        exact hinsert
    · dsimp only at hdefine
      split at hdefine
      · cases hdefine
        exact h
      · split at hdefine
        · cases hdefine
          exact h
        · cases hdefine

end Ordered

theorem Kept.ordered : Kept Ordered := ⟨Ordered.declare, Ordered.createAnonymous⟩

end Scopes

/-! ## Values by symbol -/

namespace Variables

variable {v v' : Variables} {t t' : Tree}

/-- Whether no symbol has two values. -/
def Distinct (v : Variables) : Prop := (v.values.map Prod.fst).Nodup

theorem Distinct.set (h : v.Distinct) (symbol : SymbolId) (w : Value) :
    (v.set symbol w).Distinct := by
  refine List.nodup_cons.2 ⟨?_, h.sublist (List.filter_sublist.map _)⟩
  simp

/-- All that an assignment does, if it does anything: it gives a symbol a value
and the scopes the type of it. -/
theorem effect_of_assign {a : Assignment} (h : v.assign t a = .ok (v', t')) :
    ∃ symbol s w, t.scopes.define a.scope a.name w.type (some a.node) = .ok (symbol, s) ∧
      v' = v.set symbol w ∧ t' = { t with scopes := s } := by
  rw [assign] at h
  split at h
  · cases h
  · split at h
    · cases h
    · cases h
    · next w _ =>
        split at h
        · cases h
        · next symbol s hdefine =>
            cases h
            exact ⟨symbol, s, w, hdefine, rfl, rfl⟩

/-- A run leaves tables in order, and one value for a symbol. -/
theorem assignAll_keeps (as : List Assignment) : ∀ {v : Variables} {t : Tree},
    v.Distinct → t.scopes.Ordered →
      (v.assignAll t as).2.1.Distinct ∧ (v.assignAll t as).2.2.scopes.Ordered := by
  induction as with
  | nil => intro v t hv ht; exact ⟨hv, ht⟩
  | cons a as ih =>
      intro v t hv ht
      rw [assignAll]
      split
      · exact ⟨hv, ht⟩
      · next v' t' hassign =>
          obtain ⟨symbol, s, w, hdefine, rfl, rfl⟩ := effect_of_assign hassign
          exact ih (hv.set symbol w) (ht.define hdefine)

/-! ## The list of the globals -/

/-- The global variables in a list are those that are found by name. -/
theorem lookup_globals (h : t.scopes.Ordered) (v : Variables) (name : String) :
    (v.globals t).lookup name = v.global? t name :=
  lookup_filterMap_snd (h.nodup Scopes.global) v.get? name

theorem pairwise_globals (h : t.scopes.Ordered) (v : Variables) :
    ((v.globals t).map Prod.fst).Pairwise (· < ·) := by
  refine List.pairwise_map.2 ((h Scopes.global).filterMap _ fun a b hab c hc d hd => ?_)
  obtain ⟨_, _, rfl⟩ := Option.map_eq_some_iff.1 hc
  obtain ⟨_, _, rfl⟩ := Option.map_eq_some_iff.1 hd
  exact hab

/-- Where only global variables have values, there are as many of them as there
are values. -/
theorem length_globals (hw : t.scopes.WellNamed) (h : t.scopes.Ordered) (hv : v.Distinct)
    (hnamed : ∀ {symbol w}, v.get? symbol = some w →
      ∃ name, t.scopes.local? Scopes.global name = some symbol) :
    (v.globals t).length = v.size := by
  have hkeys := h.nodup Scopes.global
  let live := (t.scopes.scope Scopes.global).table.filter fun entry => (v.get? entry.2).isSome
  have hlive : (live.map Prod.snd).Nodup :=
    (h.nodup_symbols hw Scopes.global).sublist (List.filter_sublist.map _)
  -- The symbols of the entries with a value are the symbols that have one.
  have hperm : (live.map Prod.snd).Perm (v.values.map Prod.fst) := by
    refine (List.perm_ext_iff_of_nodup hlive hv).2 fun symbol => ⟨fun hmem => ?_, fun hmem => ?_⟩
    · obtain ⟨⟨n, i⟩, hentry, rfl⟩ := List.mem_map.1 hmem
      obtain ⟨w, hw⟩ := Option.isSome_iff_exists.1 (List.mem_filter.1 hentry).2
      exact List.mem_map_of_mem (f := Prod.fst) ((lookup_eq_some_iff_mem hv).1 hw)
    · obtain ⟨⟨i, w⟩, hentry, rfl⟩ := List.mem_map.1 hmem
      have hvalue : v.get? i = some w := (lookup_eq_some_iff_mem hv).2 hentry
      obtain ⟨n, hn⟩ := hnamed hvalue
      have hmem := (lookup_eq_some_iff_mem hkeys).1 hn
      refine List.mem_map.2 ⟨(n, i), List.mem_filter.2 ⟨hmem, ?_⟩, rfl⟩
      rw [hvalue]
      rfl
  calc (v.globals t).length
      = live.length := by
        rw [globals, List.length_filterMap_eq_countP, List.countP_eq_length_filter]
        simp only [Option.isSome_map]
        rfl
    _ = v.size := by
        rw [size, ← List.length_map Prod.snd, hperm.length_eq, List.length_map]

end Variables

/-! ## The list against the map -/

namespace Tree

variable {t : Tree} {source : String}

/-- What a run of a program that was just read leaves behind: values and scopes
that stand for the map of the simpler run, and are in order. -/
theorem run_leaves (h : ofSource source = .ok t) :
    ∃ program v s, Statement.ofSource source = .ok program ∧
      List.Forall₂ t.Assigns t.assignments (Statement.assignments program) ∧
      Variables.empty.run t =
        ((Environment.empty.run (Statement.assignments program)).1, v, { t with scopes := s }) ∧
      v.StandsFor s (Environment.empty.run (Statement.assignments program)).2 ∧
      v.Distinct ∧ s.Ordered := by
  obtain ⟨program, v, s, hprogram, hall, hrun, hstands⟩ := run_stands h
  have hkeeps := Variables.assignAll_keeps t.assignments
    (v := .empty) List.nodup_nil (scopes_ofSource .ordered .initial h)
  rw [← Variables.run, hrun] at hkeeps
  exact ⟨program, v, s, hprogram, hall, hrun, hstands, hkeeps⟩

/-- A run of a program that was just read is the run on the empty map over its
assignments: it ends alike, and whether it fails or not the list of the global
variables is the map that was reached by then. There are no other values. -/
theorem run_eq_environment (h : ofSource source = .ok t) :
    ∃ program v t', Statement.ofSource source = .ok program ∧
      List.Forall₂ t.Assigns t.assignments (Statement.assignments program) ∧
      Variables.empty.run t =
        ((Environment.empty.run (Statement.assignments program)).1, v, t') ∧
      (∀ name, (v.globals t').lookup name =
        (Environment.empty.run (Statement.assignments program)).2 name) ∧
      ((v.globals t').map Prod.fst).Pairwise (· < ·) ∧
      v.size = (v.globals t').length ∧
      ∀ symbol w, v.get? symbol = some w →
        ∃ name, t'.scopes.local? Scopes.global name = some symbol ∧ (name, w) ∈ v.globals t' := by
  obtain ⟨program, v, s, hprogram, hall, hrun, hstands, hdistinct, hordered⟩ := run_leaves h
  have hlookup : ∀ name, (v.globals { t with scopes := s }).lookup name =
      (Environment.empty.run (Statement.assignments program)).2 name := by
    intro name
    rw [Variables.lookup_globals hordered, Variables.global?, hstands.value name]
  have hpairwise : ((v.globals { t with scopes := s }).map Prod.fst).Pairwise (· < ·) :=
    Variables.pairwise_globals hordered v
  refine ⟨program, v, { t with scopes := s }, hprogram, hall, hrun, hlookup, hpairwise,
    (Variables.length_globals hstands.wellNamed hordered hdistinct hstands.named).symm,
    fun symbol w hw => ?_⟩
  obtain ⟨name, hname⟩ := hstands.named hw
  refine ⟨name, hname, (lookup_eq_some_iff_mem hpairwise.nodup).1 ?_⟩
  rw [hlookup, ← hstands.value name, hname]
  exact hw

/-- A run that stops at an assignment of another type keeps what it had. What a
block assigns is not in it. -/
theorem run_eq_environment_conflict :
    ∃ t program v t',
      ofSource "set b = 2\n\x7b\n  set c = b\n\x7d\nset a = 'x' + b\nset b = a\nset d = 1" = .ok t ∧
      Variables.empty.run t =
        ((Environment.empty.run (Statement.assignments program)).1, v, t') ∧
      (Environment.empty.run (Statement.assignments program)).1 =
        .error (.scope (.typeConflict "b" .integer .string)) ∧
      (∀ name, (v.globals t').lookup name =
        (Environment.empty.run (Statement.assignments program)).2 name) ∧
      (v.globals t').map Prod.fst = ["a", "b"] ∧ v.size = (v.globals t').length := by
  have hcheck : (ofSource
      "set b = 2\n\x7b\n  set c = b\n\x7d\nset a = 'x' + b\nset b = a\nset d = 1").toOption.any
      (fun t =>
        (Variables.empty.run t).1 = .error (.scope (.typeConflict "b" .integer .string)) ∧
        ((Variables.empty.run t).2.1.globals (Variables.empty.run t).2.2).map Prod.fst =
          ["a", "b"]) = true := by decide +kernel
  obtain ⟨t, ht, hfacts⟩ := exists_of_checked hcheck
  obtain ⟨program, v, t', _, _, hrun, hlookup, _, hsize, _⟩ := run_eq_environment ht
  obtain ⟨herror, hnames⟩ := of_decide_eq_true hfacts
  rw [hrun] at herror hnames
  exact ⟨t, program, v, t', ht, hrun, herror, hlookup, hnames, hsize⟩

end Tree

end Lindenmayer
