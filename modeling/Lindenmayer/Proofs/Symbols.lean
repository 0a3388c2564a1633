import Lindenmayer.Proofs.Sowing

/-!
# Names and their symbols

A table leads from names to symbols, and a symbol says under which name and in
which scope it was made. Nothing in the types keeps the two in step; `WellNamed`
says what does. It follows that no two names share a symbol, whether in one
scope or in two (`WellNamed.injective`), and this is what allows whatever is
kept by symbol, such as the types in the scopes or the values of a run, to be
spoken of by name.

Planting only ever declares names and opens scopes. What these two keep is
kept while a tree grows (`Sown.keeps`), and so by reading a source text
(`scopes_ofSource`). A program that was just read is well named, and none of
its names has a type yet.
-/

namespace Lindenmayer

namespace Scopes

variable {s : Scopes} {id : ScopeId} {name : String} {symbol : SymbolId}

/-! ## What the primitives do to tables and symbols -/

theorem scope_modifyScope (id' : ScopeId) (f : Scope → Scope) :
    (s.modifyScope id f).scope id' =
      if id' = id ∧ id.index < s.scopes.size then f (s.scope id') else s.scope id' := by
  obtain ⟨i⟩ := id
  obtain ⟨j⟩ := id'
  rw [scope, modifyScope, Array.getElem?_modify]
  by_cases hij : i = j
  · subst hij
    rw [if_pos rfl]
    by_cases hi : i < s.scopes.size
    · rw [if_pos ⟨rfl, hi⟩, scope, Array.getElem?_eq_getElem hi]
      rfl
    · rw [if_neg (fun h => hi h.2), scope, Array.getElem?_eq_none (Nat.le_of_not_lt hi)]
      rfl
  · rw [if_neg hij, if_neg (fun h => hij (by simpa using h.1.symm)), scope]

/-- One scope more is found behind the others. -/
theorem scope_push (fresh : Scope) (id' : ScopeId) :
    ({ s with scopes := s.scopes.push fresh } : Scopes).scope id' =
      if id' = ⟨s.scopes.size⟩ then fresh else s.scope id' := by
  obtain ⟨i⟩ := id'
  rw [scope, Array.getElem?_push]
  by_cases hi : i = s.scopes.size
  · simp [hi]
  · simp [hi, scope]

theorem scope_of_size_le (id : ScopeId) (h : s.scopes.size ≤ id.index) : s.scope id = default := by
  rw [scope, Array.getElem?_eq_none h]
  rfl

/-- A name that a table has not got is found where it was put, and every other
name where it was. -/
theorem lookup_insertByName {table : List (String × SymbolId)} (h : table.lookup name = none)
    (n : String) :
    (insertByName name symbol table).lookup n =
      if n = name then some symbol else table.lookup n := by
  induction table with
  | nil =>
      rw [insertByName, List.lookup_cons]
      split <;> simp_all
  | cons entry table ih =>
      obtain ⟨m, i⟩ := entry
      have hne : name ≠ m := by
        rintro rfl
        simp at h
      have hrest : table.lookup name = none := by
        rwa [List.lookup_cons, beq_false_of_ne hne] at h
      rw [insertByName]
      split
      · rw [List.lookup_cons]
        by_cases hn : n = name
        · simp [hn]
        · rw [beq_false_of_ne hn, if_neg hn]
      · rw [List.lookup_cons, List.lookup_cons, ih hrest]
        by_cases hn : n = m
        · have hnn : n ≠ name := fun heq => hne (heq.symm.trans hn)
          simp [hn, Ne.symm hne]
        · rw [beq_false_of_ne hn]

theorem local?_insert (hnone : s.local? id name = none) (type : ValueType) (site : Option NodeId)
    (id' : ScopeId) (name' : String) :
    (s.insert id name type site).2.local? id' name' =
      if id' = id ∧ id.index < s.scopes.size ∧ name' = name then some ⟨s.symbols.size⟩
      else s.local? id' name' := by
  rw [local?, insert, scope_modifyScope]
  by_cases hid : id' = id ∧ id.index < s.scopes.size
  · obtain ⟨rfl, hlt⟩ := hid
    rw [if_pos ⟨rfl, hlt⟩]
    refine (lookup_insertByName hnone name').trans ?_
    by_cases hname : name' = name
    · rw [if_pos hname, if_pos ⟨rfl, hlt, hname⟩]
    · rw [if_neg hname, if_neg (fun h => hname h.2.2)]
      rfl
  · rw [if_neg hid, if_neg (fun h => hid ⟨h.1, h.2.1⟩)]
    rfl

@[simp] theorem size_scopes_insert (type : ValueType) (site : Option NodeId) :
    (s.insert id name type site).2.scopes.size = s.scopes.size := Array.size_modify

@[simp] theorem size_symbols_insert (type : ValueType) (site : Option NodeId) :
    (s.insert id name type site).2.symbols.size = s.symbols.size + 1 := Array.size_push _

theorem symbol_insert (type : ValueType) (site : Option NodeId) (symbol : SymbolId) :
    (s.insert id name type site).2.symbol symbol =
      if symbol = ⟨s.symbols.size⟩ then ⟨name, id, type, site⟩ else s.symbol symbol := by
  obtain ⟨i⟩ := symbol
  rw [Scopes.symbol, insert, modifyScope, Array.getElem?_push]
  by_cases hi : i = s.symbols.size
  · rw [if_pos hi, if_pos (by rw [hi])]
    rfl
  · rw [if_neg hi, if_neg (fun h => hi (by simpa using h)), Scopes.symbol]

theorem local?_create (name : String) (parent id' : ScopeId) (name' : String) :
    (s.create name parent).2.local? id' name' = s.local? id' name' := by
  have hpush : (({ s with scopes := s.scopes.push ⟨name, some parent, [], []⟩ } : Scopes).scope
      id').table = (s.scope id').table := by
    rw [scope_push]
    split
    · next hid =>
        subst hid
        rw [scope_of_size_le ⟨s.scopes.size⟩ (Nat.le_refl _)]
        rfl
    · rfl
  rw [local?, create, scope_modifyScope]
  split
  · exact congrArg (List.lookup name') hpush
  · exact congrArg (List.lookup name') hpush

theorem local?_createAnonymous (parent id' : ScopeId) (name' : String) :
    (s.createAnonymous parent).2.local? id' name' = s.local? id' name' :=
  local?_create _ parent id' name'

@[simp] theorem size_scopes_create (name : String) (parent : ScopeId) :
    (s.create name parent).2.scopes.size = s.scopes.size + 1 :=
  Array.size_modify.trans (Array.size_push _)

@[simp] theorem size_scopes_createAnonymous (parent : ScopeId) :
    (s.createAnonymous parent).2.scopes.size = s.scopes.size + 1 :=
  size_scopes_create _ parent

theorem parent_modifyScope {f : Scope → Scope} (hf : ∀ scope, (f scope).parent = scope.parent)
    (id' : ScopeId) : (s.modifyScope id f).parent id' = s.parent id' := by
  rw [parent, scope_modifyScope]
  split
  · exact hf _
  · rfl

theorem parent_insert (type : ValueType) (site : Option NodeId) (id' : ScopeId) :
    (s.insert id name type site).2.parent id' = s.parent id' := by
  rw [insert, parent_modifyScope]
  · rfl
  · exact fun _ => rfl

theorem parent_declare (id : ScopeId) (name : String) (site : Option NodeId) (id' : ScopeId) :
    (s.declare id name site).2.parent id' = s.parent id' := by
  unfold declare
  split
  · rfl
  · exact parent_insert _ _ id'

@[simp] theorem size_scopes_declare (id : ScopeId) (name : String) (site : Option NodeId) :
    (s.declare id name site).2.scopes.size = s.scopes.size := by
  unfold declare
  split
  · rfl
  · exact size_scopes_insert _ _

theorem parent_create (name : String) (p id' : ScopeId) :
    (s.create name p).2.parent id' =
      if id' = ⟨s.scopes.size⟩ then some p else s.parent id' := by
  rw [create, parent_modifyScope]
  · rw [parent, scope_push]
    split <;> rfl
  · exact fun _ => rfl

theorem parent_createAnonymous (p id' : ScopeId) :
    (s.createAnonymous p).2.parent id' =
      if id' = ⟨s.scopes.size⟩ then some p else s.parent id' :=
  parent_create _ p id'

/-- The scopes after a symbol got a type that it had not. -/
def retype (s : Scopes) (symbol : SymbolId) (type : ValueType) (site : Option NodeId) : Scopes :=
  { s with symbols := s.symbols.modify symbol.index fun v =>
      { v with type, site := site <|> v.site } }

theorem symbol_retype (hlt : symbol.index < s.symbols.size) (type : ValueType)
    (site : Option NodeId) (symbol' : SymbolId) :
    (s.retype symbol type site).symbol symbol' =
      if symbol' = symbol then
        { s.symbol symbol with type, site := site <|> (s.symbol symbol).site }
      else s.symbol symbol' := by
  obtain ⟨i⟩ := symbol
  obtain ⟨j⟩ := symbol'
  rw [Scopes.symbol, retype, Array.getElem?_modify]
  by_cases hij : i = j
  · subst hij
    rw [if_pos rfl, if_pos rfl, Scopes.symbol, Array.getElem?_eq_getElem hlt]
    rfl
  · rw [if_neg hij, if_neg (fun h => hij (by simpa using h.symm)), Scopes.symbol]

/-- There is nothing around the global scope. -/
theorem ancestry_global : s.ancestry global = [global] := by
  rw [ancestry]
  split
  · next p _ => rw [if_neg (show ¬ p.index < global.index from Nat.not_lt_zero _)]
  · rfl

/-! ## Tables and symbols in step -/

/-- Every symbol that a table has is there, and knows its name and its scope. -/
structure WellNamed (s : Scopes) : Prop where
  global_lt : global.index < s.scopes.size
  symbol_lt : ∀ {id name symbol}, s.local? id name = some symbol → symbol.index < s.symbols.size
  name_eq : ∀ {id name symbol}, s.local? id name = some symbol → (s.symbol symbol).name = name
  scope_eq : ∀ {id name symbol}, s.local? id name = some symbol → (s.symbol symbol).scope = id

/-- No symbol has a type. -/
def Untyped (s : Scopes) : Prop :=
  ∀ symbol : SymbolId, symbol.index < s.symbols.size → (s.symbol symbol).type = .unknown

namespace WellNamed

/-- A symbol belongs to one name of one scope. -/
theorem injective (h : s.WellNamed) {id' : ScopeId} {name' : String}
    (hsymbol : s.local? id name = some symbol) (hsymbol' : s.local? id' name' = some symbol) :
    id' = id ∧ name' = name :=
  ⟨(h.scope_eq hsymbol').symm.trans (h.scope_eq hsymbol),
    (h.name_eq hsymbol').symm.trans (h.name_eq hsymbol)⟩

theorem initial : initial.WellNamed := by
  have hnone : ∀ {id name symbol}, Scopes.initial.local? id name ≠ some symbol := by
    rintro ⟨i⟩ name symbol h
    cases i with
    | zero => cases h
    | succ i => cases h
  exact ⟨show 0 < 1 by omega, fun h => absurd h hnone, fun h => absurd h hnone,
    fun h => absurd h hnone⟩

theorem insert (h : s.WellNamed) (hnone : s.local? id name = none) (type : ValueType)
    (site : Option NodeId) : (s.insert id name type site).2.WellNamed := by
  -- The new symbol is beyond those that tables have, so an old entry reads as it did.
  have hcases : ∀ {id' name' symbol},
      (s.insert id name type site).2.local? id' name' = some symbol →
        (id' = id ∧ name' = name ∧ symbol = ⟨s.symbols.size⟩) ∨
        (s.local? id' name' = some symbol ∧ symbol ≠ ⟨s.symbols.size⟩) := by
    intro id' name' symbol hsymbol
    rw [local?_insert hnone] at hsymbol
    split at hsymbol
    · next hnew =>
        cases hsymbol
        exact Or.inl ⟨hnew.1, hnew.2.2, rfl⟩
    · refine Or.inr ⟨hsymbol, ?_⟩
      rintro rfl
      exact Nat.lt_irrefl _ (h.symbol_lt hsymbol)
  refine ⟨by simpa using h.global_lt, fun hsymbol => ?_, fun hsymbol => ?_, fun hsymbol => ?_⟩
  · rw [size_symbols_insert]
    rcases hcases hsymbol with ⟨_, _, rfl⟩ | ⟨hold, _⟩
    · exact Nat.lt_succ_self _
    · exact Nat.lt_succ_of_lt (h.symbol_lt hold)
  · rw [symbol_insert]
    rcases hcases hsymbol with ⟨_, rfl, rfl⟩ | ⟨hold, hne⟩
    · rw [if_pos rfl]
    · rw [if_neg hne, h.name_eq hold]
  · rw [symbol_insert]
    rcases hcases hsymbol with ⟨rfl, _, rfl⟩ | ⟨hold, hne⟩
    · rw [if_pos rfl]
    · rw [if_neg hne, h.scope_eq hold]

theorem declare (h : s.WellNamed) (id : ScopeId) (name : String) (site : Option NodeId) :
    (s.declare id name site).2.WellNamed := by
  unfold Scopes.declare
  split
  · exact h
  · next hnone => exact h.insert hnone .unknown site

theorem create (h : s.WellNamed) (name : String) (parent : ScopeId) :
    (s.create name parent).2.WellNamed := by
  refine ⟨?_, fun hsymbol => ?_, fun hsymbol => ?_, fun hsymbol => ?_⟩
  · rw [size_scopes_create]
    exact Nat.lt_succ_of_lt h.global_lt
  · rw [local?_create] at hsymbol
    exact h.symbol_lt hsymbol
  · rw [local?_create] at hsymbol
    exact h.name_eq hsymbol
  · rw [local?_create] at hsymbol
    exact h.scope_eq hsymbol

/-- How many scopes have a number for a name is of no importance. -/
theorem withAnonymous (h : s.WellNamed) (n : Nat) : WellNamed { s with anonymous := n } :=
  ⟨h.global_lt, h.symbol_lt, h.name_eq, h.scope_eq⟩

theorem createAnonymous (h : s.WellNamed) (parent : ScopeId) :
    (s.createAnonymous parent).2.WellNamed :=
  (h.withAnonymous _).create _ parent

theorem retype (h : s.WellNamed) (hlt : symbol.index < s.symbols.size) (type : ValueType)
    (site : Option NodeId) : (s.retype symbol type site).WellNamed := by
  refine ⟨h.global_lt, fun hsymbol => ?_, fun hsymbol => ?_, fun hsymbol => ?_⟩
  · show _ < (s.symbols.modify _ _).size
    rw [Array.size_modify]
    exact h.symbol_lt hsymbol
  · rw [symbol_retype hlt]
    split
    · next heq =>
        rw [heq] at hsymbol
        exact h.name_eq hsymbol
    · exact h.name_eq hsymbol
  · rw [symbol_retype hlt]
    split
    · next heq =>
        rw [heq] at hsymbol
        exact h.scope_eq hsymbol
    · exact h.scope_eq hsymbol

end WellNamed

/-! ## Giving a name a type -/

section Define

variable {type : ValueType} (hconcrete : type.isConcrete = true) (site : Option NodeId)

include hconcrete

theorem define_of_none (hnone : s.local? id name = none) :
    s.define id name type site = .ok (s.insert id name type site) := by
  simp [define, hconcrete, hnone]

theorem define_of_same (hsome : s.local? id name = some symbol)
    (hsame : (s.symbol symbol).type = type) : s.define id name type site = .ok (symbol, s) := by
  simp [define, hconcrete, hsome, hsame]

theorem define_of_unknown (hsome : s.local? id name = some symbol)
    (hunknown : (s.symbol symbol).type = .unknown) :
    s.define id name type site = .ok (symbol, s.retype symbol type site) := by
  have hne : ValueType.unknown ≠ type := by
    rintro rfl
    cases hconcrete
  simp [define, hconcrete, hsome, hunknown, hne, retype]

theorem define_of_ne (hsome : s.local? id name = some symbol)
    (hunknown : (s.symbol symbol).type ≠ .unknown) (hne : (s.symbol symbol).type ≠ type) :
    s.define id name type site = .error (.typeConflict name (s.symbol symbol).type type) := by
  simp [define, hconcrete, hsome, hunknown, hne]

end Define

namespace Untyped

theorem initial : initial.Untyped := fun _ h => absurd h (Nat.not_lt_zero _)

theorem declare (h : s.Untyped) (id : ScopeId) (name : String) (site : Option NodeId) :
    (s.declare id name site).2.Untyped := by
  unfold Scopes.declare
  split
  · exact h
  · intro symbol hlt
    rw [symbol_insert]
    split
    · rfl
    · next hne =>
        rw [size_symbols_insert] at hlt
        refine h symbol (Nat.lt_of_le_of_ne (Nat.le_of_lt_succ hlt) fun heq => hne ?_)
        rw [← heq]

theorem createAnonymous (h : s.Untyped) (parent : ScopeId) :
    (s.createAnonymous parent).2.Untyped := h

end Untyped

/-- What stays true while names are declared and scopes are opened. -/
structure Kept (P : Scopes → Prop) : Prop where
  declare : ∀ {s}, P s → ∀ id name site, P (s.declare id name site).2
  createAnonymous : ∀ {s}, P s → ∀ parent, P (s.createAnonymous parent).2

theorem Kept.wellNamed : Kept WellNamed := ⟨WellNamed.declare, WellNamed.createAnonymous⟩

theorem Kept.untyped : Kept Untyped := ⟨Untyped.declare, Untyped.createAnonymous⟩

/-- Whether scopes have all that others have, and have it in the same place. -/
structure Extends (s' s : Scopes) : Prop where
  size_le : s.scopes.size ≤ s'.scopes.size
  parent_eq : ∀ {id p}, s.parent id = some p → s'.parent id = some p

theorem Extends.refl (s : Scopes) : s.Extends s := ⟨Nat.le_refl _, fun h => h⟩

theorem Kept.extends (s : Scopes) : Kept fun s' => s'.Extends s where
  declare h id name site :=
    ⟨by rw [size_scopes_declare]; exact h.size_le,
      fun hp => by rw [parent_declare]; exact h.parent_eq hp⟩
  createAnonymous {s'} h p := by
    refine ⟨?_, fun {id q} hq => ?_⟩
    · rw [size_scopes_createAnonymous]
      exact Nat.le_succ_of_le h.size_le
    · have hold := h.parent_eq hq
      have hne : id ≠ ⟨s'.scopes.size⟩ := by
        rintro rfl
        rw [parent, scope, Array.getElem?_eq_none (Nat.le_refl _)] at hold
        cases hold
      rw [parent_createAnonymous, if_neg hne]
      exact hold

/-! ## What a name stands for -/

/-- The symbol of a name in this very scope. -/
def declared? (s : Scopes) (id : ScopeId) (name : String) : Option Symbol :=
  (s.local? id name).map s.symbol

theorem declared?_createAnonymous (p id : ScopeId) (name : String) :
    (s.createAnonymous p).2.declared? id name = s.declared? id name := by
  rw [declared?, local?_createAnonymous]
  rfl

/-- A name that is declared has a symbol from then on, unless it had one before. -/
theorem declared?_declare (h : s.WellNamed) (hid : id.index < s.scopes.size)
    (site : Option NodeId) (id' : ScopeId) (name' : String) :
    (s.declare id name site).2.declared? id' name' =
      (s.declared? id' name').or
        (if id' = id ∧ name' = name then some ⟨name, id, .unknown, site⟩ else none) := by
  unfold declare
  cases hlocal : s.local? id name with
  | some symbol =>
      dsimp only
      by_cases hsame : id' = id ∧ name' = name
      · obtain ⟨rfl, rfl⟩ := hsame
        rw [declared?, hlocal]
        rfl
      · rw [if_neg hsame, Option.or_none]
  | none =>
      dsimp only
      rw [declared?, declared?, local?_insert hlocal]
      by_cases hsame : id' = id ∧ name' = name
      · obtain ⟨rfl, rfl⟩ := hsame
        rw [if_pos ⟨rfl, hid, rfl⟩, if_pos ⟨rfl, rfl⟩, hlocal, Option.map_some, symbol_insert,
          if_pos rfl]
        rfl
      · rw [if_neg hsame, if_neg (fun hnew => hsame ⟨hnew.1, hnew.2.2⟩), Option.or_none]
        cases hold : s.local? id' name' with
        | none => rfl
        | some symbol =>
            have hlt := h.symbol_lt hold
            rw [Option.map_some, Option.map_some, symbol_insert,
              if_neg (fun heq => absurd hlt (by rw [heq]; exact Nat.lt_irrefl _))]

end Scopes

namespace Tree

variable {t t' : Tree} {scope : ScopeId} {ns : List NodeId} {ks : List NodeKind}

/-! ## What planting keeps of the scopes -/

@[simp] theorem scopes_addChildren (p : NodeId) (cs : List NodeId) :
    ∀ t : Tree, (t.addChildren p cs).scopes = t.scopes := by
  induction cs with
  | nil => intro t; rfl
  | cons c cs ih => intro t; exact (ih _).trans (scopes_addChild p c)

/-- What planting keeps of scopes while a tree grows. -/
theorem Sown.keeps {P : Scopes → Prop} (hP : Scopes.Kept P) (h : Sown scope t t' ns ks)
    (ht : P t.scopes) : P t'.scopes := by
  induction h with
  | nothing => exact ht
  | append _ _ ih ih' => exact ih' (ih ht)
  | wrap kind region _ _ _ ih =>
      rw [scopes_addChildren, scopes_newNode]
      exact ih ht
  | identifier name region => exact hP.declare ht _ name _
  | block region _ _ ih =>
      rw [scopes_addChildren, scopes_newNode]
      exact ih (hP.createAnonymous ht _)

theorem Sown.extends (h : Sown scope t t' ns ks) : t'.scopes.Extends t.scopes :=
  h.keeps (P := fun scopes => scopes.Extends t.scopes) (.extends _) (.refl _)

/-- The scopes of a program that was just read are as those of no program, as
far as planting keeps it. -/
theorem scopes_ofSource {P : Scopes → Prop} (hP : Scopes.Kept P) (hinitial : P Scopes.initial)
    {source : String} (h : ofSource source = .ok t) : P t.scopes := by
  obtain ⟨t', ns, ks, hsown, _, rfl⟩ := exists_sown h
  rw [scopes_addChildren]
  exact hsown.keeps hP hinitial

theorem wellNamed_of_ofSource {source : String} (h : ofSource source = .ok t) :
    t.scopes.WellNamed :=
  scopes_ofSource .wellNamed .initial h

theorem untyped_of_ofSource {source : String} (h : ofSource source = .ok t) :
    t.scopes.Untyped :=
  scopes_ofSource .untyped .initial h

end Tree

end Lindenmayer
