import Lindenmayer.Proofs.Globals
import Mathlib.Data.List.Chain

/-!
# Scopes as a tree

Scopes keep the same thing in more than one place. A scope knows the one around
it and those made inside it, and a name leads to a symbol that knows its name.
`Coherent` says that these agree, and that the way outwards goes to ever smaller
names. It holds of the scopes there are at the start, and every operation keeps
it, as long as what it is done to exists (`Coherent.run`). That the walk outwards
comes to the global scope, and what else is to be said of the tree as a whole, is
read off from there.
-/

namespace Lindenmayer.Scopes

variable {s : Scopes} {id : ScopeId} {name : String} {symbol : SymbolId}

/-- What can be done to scopes. -/
inductive Op where
  | create (name : String) (parent : ScopeId)
  | createAnonymous (parent : ScopeId)
  | declare (scope : ScopeId) (name : String) (site : Option NodeId)
  | define (scope : ScopeId) (name : String) (type : ValueType) (site : Option NodeId)
  deriving DecidableEq, Repr

/-- The scope that an operation is done to. -/
def Op.scope : Op → ScopeId
  | create _ parent => parent
  | createAnonymous parent => parent
  | declare scope _ _ => scope
  | define scope _ _ _ => scope

/-- The scopes after an operation. If it is refused they are what they were. -/
def after (s : Scopes) : Op → Scopes
  | .create name parent => (s.create name parent).2
  | .createAnonymous parent => (s.createAnonymous parent).2
  | .declare scope name site => (s.declare scope name site).2
  | .define scope name type site =>
    match s.define scope name type site with
    | .ok (_, s') => s'
    | .error _ => s

def run (s : Scopes) (ops : List Op) : Scopes := ops.foldl after s

/-- The name of the scope that an operation makes, if it makes one. -/
def made? (s : Scopes) : Op → Option ScopeId
  | .create name parent => some (s.create name parent).1
  | .createAnonymous parent => some (s.createAnonymous parent).1
  | .declare .. => none
  | .define .. => none

/-- The scopes that operations make, in the order they make them. -/
def made (s : Scopes) : List Op → List ScopeId
  | [] => []
  | op :: ops => (s.made? op).toList ++ (s.after op).made ops

/-- All scopes, in the order of their names. -/
def ids (s : Scopes) : List ScopeId := (List.range s.scopes.size).map ScopeId.mk

/-- Whether each operation is done to a scope that is there by then. -/
def Legal (s : Scopes) : List Op → Prop
  | [] => True
  | op :: ops => op.scope.index < s.scopes.size ∧ (s.after op).Legal ops

instance decidableLegal (s : Scopes) : (ops : List Op) → Decidable (s.Legal ops)
  | [] => isTrue trivial
  | op :: ops => @instDecidableAnd _ _ _ (decidableLegal (s.after op) ops)

theorem legal_append {ops more : List Op} :
    s.Legal (ops ++ more) ↔ s.Legal ops ∧ (s.run ops).Legal more := by
  induction ops generalizing s with
  | nil => simp [Legal, run]
  | cons op ops ih =>
      rw [List.cons_append, Legal, Legal, ih, and_assoc]
      rfl

theorem mem_ids : id ∈ s.ids ↔ id.index < s.scopes.size := by
  obtain ⟨i⟩ := id
  simp [ids]

theorem nodup_ids (s : Scopes) : s.ids.Nodup :=
  List.nodup_range.map fun i j hij => by simpa using hij

theorem ids_congr {s' : Scopes} (h : s'.scopes.size = s.scopes.size) : s'.ids = s.ids := by
  rw [ids, h, ids]

theorem ids_create (name : String) (p : ScopeId) :
    (s.create name p).2.ids = s.ids ++ [⟨s.scopes.size⟩] := by
  rw [ids, size_scopes_create, List.range_succ, List.map_append]
  rfl

/-! ## One operation -/

/-- To define a name adds it, gives it a type that it had not, or changes nothing. -/
theorem after_define (s : Scopes) (id : ScopeId) (name : String) (type : ValueType)
    (site : Option NodeId) :
    (s.local? id name = none ∧
      s.after (.define id name type site) = (s.insert id name type site).2) ∨
    (∃ symbol, s.local? id name = some symbol ∧
      s.after (.define id name type site) = s.retype symbol type site) ∨
    s.after (.define id name type site) = s := by
  cases hconcrete : type.isConcrete with
  | false => exact .inr (.inr (by simp [after, define, hconcrete]))
  | true =>
      cases hlocal : s.local? id name with
      | none => exact .inl ⟨rfl, by rw [after, define_of_none hconcrete site hlocal]⟩
      | some symbol =>
          by_cases hsame : (s.symbol symbol).type = type
          · exact .inr (.inr (by rw [after, define_of_same hconcrete site hlocal hsame]))
          · by_cases hunknown : (s.symbol symbol).type = .unknown
            · refine .inr (.inl ⟨symbol, rfl, ?_⟩)
              rw [after, define_of_unknown hconcrete site hlocal hunknown]
            · refine .inr (.inr ?_)
              rw [after, define_of_ne hconcrete site hlocal hunknown hsame]

theorem after_declare (s : Scopes) (id : ScopeId) (name : String) (site : Option NodeId) :
    (s.local? id name = none ∧
      s.after (.declare id name site) = (s.insert id name .unknown site).2) ∨
    s.after (.declare id name site) = s := by
  rw [after, declare]
  cases hlocal : s.local? id name with
  | none => exact .inl ⟨rfl, rfl⟩
  | some symbol => exact .inr rfl

theorem ids_after (s : Scopes) (op : Op) : (s.after op).ids = s.ids ++ (s.made? op).toList := by
  cases op with
  | create name parent => exact ids_create name parent
  | createAnonymous parent => exact ids_create _ parent
  | declare id name site =>
      rw [after, ids_congr (size_scopes_declare id name site)]
      exact (List.append_nil _).symm
  | define id name type site =>
      refine Eq.trans ?_ (List.append_nil _).symm
      rcases after_define s id name type site with ⟨_, hafter⟩ | ⟨symbol, _, hafter⟩ | hafter
      · rw [hafter, ids_congr (size_scopes_insert type site)]
      · rw [hafter]
        rfl
      · rw [hafter]

/-- Scopes have names in the order they are made. -/
theorem ids_run (s : Scopes) (ops : List Op) : (s.run ops).ids = s.ids ++ s.made ops := by
  induction ops generalizing s with
  | nil => exact (List.append_nil _).symm
  | cons op ops ih => rw [made, ← List.append_assoc, ← ids_after, ← ih]; rfl

/-! ## What the parts of scopes have to do with each other -/

/-- Whether scopes agree with themselves. -/
structure Coherent (s : Scopes) : Prop where
  wellNamed : s.WellNamed
  ordered : s.Ordered
  /-- Every symbol is found under its name in its scope. -/
  local?_symbol : ∀ {symbol : SymbolId}, symbol.index < s.symbols.size →
    s.local? (s.symbol symbol).scope (s.symbol symbol).name = some symbol
  parent_global : s.parent global = none
  exists_parent : ∀ {id}, id.index < s.scopes.size → id ≠ global → ∃ p, s.parent id = some p
  parent_lt : ∀ {id p}, s.parent id = some p → p.index < id.index
  children_eq : ∀ p, (s.scope p).children = s.ids.filter fun id => s.parent id = some p

theorem lt_size_of_parent {p : ScopeId} (h : s.parent id = some p) : id.index < s.scopes.size := by
  by_contra hle
  rw [parent, scope_of_size_le id (by omega)] at h
  cases h

theorem children_insert (type : ValueType) (site : Option NodeId) (id' : ScopeId) :
    ((s.insert id name type site).2.scope id').children = (s.scope id').children := by
  rw [insert, scope_modifyScope]
  split <;> rfl

theorem children_create {p : ScopeId} (hp : p.index < s.scopes.size) (name : String)
    (id' : ScopeId) :
    ((s.create name p).2.scope id').children =
      if id' = p then (s.scope p).children ++ [⟨s.scopes.size⟩]
      else (s.scope id').children := by
  have hne : p ≠ ⟨s.scopes.size⟩ := by
    rintro rfl
    exact Nat.lt_irrefl _ hp
  rw [create, scope_modifyScope]
  by_cases hid : id' = p
  · subst hid
    have hlt : id'.index < (s.scopes.push ⟨name, some id', [], []⟩).size := by
      rw [Array.size_push]
      omega
    rw [if_pos ⟨rfl, hlt⟩, if_pos rfl, scope_push, if_neg hne]
  · rw [if_neg (fun h => hid h.1), if_neg hid, scope_push]
    split
    · next hfresh => rw [hfresh, scope_of_size_le ⟨s.scopes.size⟩ (Nat.le_refl _)]; rfl
    · rfl

/-- At the start there is nothing around a scope and nothing in it. -/
theorem parent_initial (id : ScopeId) :
    Scopes.initial.parent id = none ∧ (Scopes.initial.scope id).children = [] := by
  obtain ⟨i⟩ := id
  cases i with
  | zero => exact ⟨rfl, rfl⟩
  | succ i => exact ⟨rfl, rfl⟩

namespace Coherent

theorem initial : initial.Coherent where
  wellNamed := .initial
  ordered := .initial
  local?_symbol h := absurd h (Nat.not_lt_zero _)
  parent_global := rfl
  exists_parent {id} h hne := by
    have hi : id.index = 0 := Nat.lt_one_iff.1 h
    exact absurd (congrArg ScopeId.mk hi) hne
  parent_lt {id p} h := by
    rw [(parent_initial id).1] at h
    cases h
  children_eq p := by simp [parent_initial]

/-- A scope more becomes the last one inside another. -/
theorem create (h : s.Coherent) (name : String) {p : ScopeId} (hp : p.index < s.scopes.size) :
    (s.create name p).2.Coherent where
  wellNamed := h.wellNamed.create name p
  ordered := h.ordered.create name p
  local?_symbol hlt := by
    rw [local?_create]
    exact h.local?_symbol hlt
  parent_global := by
    have hpos := h.wellNamed.global_lt
    rw [parent_create, if_neg, h.parent_global]
    intro heq
    rw [heq] at hpos
    exact Nat.lt_irrefl _ hpos
  exists_parent {id} hlt hne := by
    rw [size_scopes_create] at hlt
    rw [parent_create]
    by_cases hid : id = ⟨s.scopes.size⟩
    · exact ⟨p, if_pos hid⟩
    · rw [if_neg hid]
      refine h.exists_parent ?_ hne
      have : id.index ≠ s.scopes.size := fun heq => hid (by rw [← heq])
      omega
  parent_lt {id q} hparent := by
    rw [parent_create] at hparent
    split at hparent
    · next hid =>
        cases hparent
        rw [hid]
        exact hp
    · exact h.parent_lt hparent
  children_eq q := by
    have hold : ∀ id ∈ s.ids, ((s.create name p).2.parent id = some q ↔ s.parent id = some q) := by
      intro id hmem
      rw [parent_create, if_neg]
      rintro rfl
      exact Nat.lt_irrefl _ (mem_ids.1 hmem)
    rw [children_create hp, ids_create, List.filter_append,
      List.filter_congr fun id hmem => decide_eq_decide.2 (hold id hmem), ← h.children_eq q]
    by_cases hq : q = p
    · simp [hq, parent_create]
    · simp [hq, parent_create, Ne.symm hq]

theorem withAnonymous (h : s.Coherent) (n : Nat) : Coherent { s with anonymous := n } :=
  ⟨h.wellNamed.withAnonymous n, h.ordered, h.local?_symbol, h.parent_global, h.exists_parent,
    h.parent_lt, h.children_eq⟩

theorem insert (h : s.Coherent) (hid : id.index < s.scopes.size) (hnone : s.local? id name = none)
    (type : ValueType) (site : Option NodeId) : (s.insert id name type site).2.Coherent where
  wellNamed := h.wellNamed.insert hnone type site
  ordered := h.ordered.insert hnone type site
  local?_symbol {symbol} hlt := by
    rw [symbol_insert, local?_insert hnone]
    by_cases hnew : symbol = ⟨s.symbols.size⟩
    · rw [if_pos hnew, if_pos ⟨rfl, hid, rfl⟩, hnew]
    · have hold : symbol.index < s.symbols.size := by
        have : symbol.index ≠ s.symbols.size := fun heq => hnew (by rw [← heq])
        rw [size_symbols_insert] at hlt
        omega
      have hfound := h.local?_symbol hold
      rw [if_neg hnew, if_neg, hfound]
      rintro ⟨hscope, _, hname⟩
      rw [hscope, hname, hnone] at hfound
      cases hfound
  parent_global := by rw [parent_insert, h.parent_global]
  exists_parent hlt hne := by
    rw [parent_insert]
    rw [size_scopes_insert] at hlt
    exact h.exists_parent hlt hne
  parent_lt hparent := by
    rw [parent_insert] at hparent
    exact h.parent_lt hparent
  children_eq p := by
    rw [children_insert, ids_congr (size_scopes_insert type site)]
    simp only [parent_insert]
    exact h.children_eq p

theorem retype (h : s.Coherent) (hsome : s.local? id name = some symbol) (type : ValueType)
    (site : Option NodeId) : (s.retype symbol type site).Coherent where
  wellNamed := h.wellNamed.retype (h.wellNamed.symbol_lt hsome) type site
  ordered := h.ordered
  local?_symbol {symbol'} hlt := by
    have hold : symbol'.index < s.symbols.size := by
      rwa [Scopes.retype, Array.size_modify] at hlt
    rw [symbol_retype (h.wellNamed.symbol_lt hsome)]
    split
    · next heq =>
        rw [← heq]
        exact h.local?_symbol hold
    · exact h.local?_symbol hold
  parent_global := h.parent_global
  exists_parent := h.exists_parent
  parent_lt := h.parent_lt
  children_eq := h.children_eq

theorem after (h : s.Coherent) {op : Op} (hop : op.scope.index < s.scopes.size) :
    (s.after op).Coherent := by
  cases op with
  | create name parent => exact h.create name hop
  | createAnonymous parent => exact (h.withAnonymous _).create _ hop
  | declare id name site =>
      rcases after_declare s id name site with ⟨hnone, hafter⟩ | hafter
      · rw [hafter]
        exact h.insert hop hnone .unknown site
      · rw [hafter]
        exact h
  | define id name type site =>
      rcases after_define s id name type site with
        ⟨hnone, hafter⟩ | ⟨symbol, hsome, hafter⟩ | hafter
      · rw [hafter]
        exact h.insert hop hnone type site
      · rw [hafter]
        exact h.retype hsome type site
      · rw [hafter]
        exact h

theorem run (h : s.Coherent) {ops : List Op} (hlegal : s.Legal ops) : (s.run ops).Coherent := by
  induction ops generalizing s with
  | nil => exact h
  | cons op ops ih => exact ih (h.after hlegal.1) hlegal.2

/-! ## The tree as a whole -/

theorem mem_children (h : s.Coherent) {p : ScopeId} :
    id ∈ (s.scope p).children ↔ s.parent id = some p := by
  rw [h.children_eq, List.mem_filter, mem_ids, decide_eq_true_iff]
  exact ⟨And.right, fun hparent => ⟨lt_size_of_parent hparent, hparent⟩⟩

/-- What holds of the global scope, and of a scope if it holds of the one around,
holds of all that are there. -/
theorem inward (h : s.Coherent) {P : ScopeId → Prop} (atGlobal : P global)
    (inside : ∀ {id p}, s.parent id = some p → P p → P id) {id : ScopeId} (hid : id ∈ s.ids) :
    P id := by
  rw [mem_ids] at hid
  by_cases hglobal : id = global
  · rw [hglobal]
    exact atGlobal
  · obtain ⟨p, hp⟩ := h.exists_parent hid hglobal
    have hlt := h.parent_lt hp
    exact inside hp (h.inward atGlobal inside (mem_ids.2 (hlt.trans hid)))
termination_by id.index

theorem ancestry_of_parent (h : s.Coherent) {p : ScopeId} (hp : s.parent id = some p) :
    s.ancestry id = id :: s.ancestry p := by
  rw [ancestry, hp]
  exact congrArg (id :: ·) (if_pos (h.parent_lt hp))

theorem head?_ancestry (s : Scopes) (id : ScopeId) : (s.ancestry id).head? = some id := by
  rw [ancestry]
  rfl

/-- The way outwards goes from a scope to the one around it. -/
theorem isChain_ancestry (h : s.Coherent) (hid : id ∈ s.ids) :
    (s.ancestry id).IsChain fun a b => s.parent a = some b := by
  refine h.inward (P := fun id => (s.ancestry id).IsChain _) ?_ (fun {id p} hp ih => ?_) hid
  · rw [ancestry_global]
    exact .singleton _
  · rw [h.ancestry_of_parent hp]
    refine List.isChain_cons.2 ⟨fun a ha => ?_, ih⟩
    rw [head?_ancestry] at ha
    cases ha
    exact hp

theorem getLast?_ancestry (h : s.Coherent) (hid : id ∈ s.ids) :
    (s.ancestry id).getLast? = some global := by
  refine h.inward (P := fun id => (s.ancestry id).getLast? = some global) ?_
    (fun {id p} hp ih => ?_) hid
  · rw [ancestry_global]
    rfl
  · rw [h.ancestry_of_parent hp, List.getLast?_cons, ih]
    rfl

theorem le_of_mem_ancestry (h : s.Coherent) (hid : id ∈ s.ids) {a : ScopeId}
    (ha : a ∈ s.ancestry id) : a.index ≤ id.index := by
  revert ha
  refine h.inward (P := fun id => a ∈ s.ancestry id → a.index ≤ id.index) (fun ha => ?_)
    (fun {id p} hp ih ha => ?_) hid
  · rw [ancestry_global, List.mem_singleton] at ha
    rw [ha]
  · rw [h.ancestry_of_parent hp, List.mem_cons] at ha
    have hlt := h.parent_lt hp
    rcases ha with rfl | ha
    · exact Nat.le_refl _
    · exact (ih ha).trans hlt.le

theorem nodup_ancestry (h : s.Coherent) (hid : id ∈ s.ids) : (s.ancestry id).Nodup := by
  refine h.inward (P := fun id => (s.ancestry id).Nodup) ?_ (fun {id p} hp ih => ?_) hid
  · rw [ancestry_global]
    exact List.nodup_singleton _
  · have hlt := h.parent_lt hp
    rw [h.ancestry_of_parent hp]
    refine List.nodup_cons.2 ⟨fun hmem => ?_, ih⟩
    have hle := h.le_of_mem_ancestry (mem_ids.2 (hlt.trans (lt_size_of_parent hp))) hmem
    omega

/-- Lists that have nothing in common have no repetition all together. -/
theorem nodup_flatMap_ids {α : Type} {f : ScopeId → List α} (hnodup : ∀ id, (f id).Nodup)
    (hapart : ∀ {a id id'}, a ∈ f id → a ∈ f id' → id = id') : (s.ids.flatMap f).Nodup :=
  List.nodup_flatMap.2
    ⟨fun id _ => hnodup id, s.nodup_ids.imp fun hne _ ha ha' => hne (hapart ha ha')⟩

theorem count_children (h : s.Coherent) {p : ScopeId} (hp : s.parent id = some p) :
    (s.ids.flatMap fun q => (s.scope q).children).count id = 1 := by
  have hnodup : (s.ids.flatMap fun q => (s.scope q).children).Nodup := by
    refine nodup_flatMap_ids (fun q => ?_) fun {a q q'} ha ha' => ?_
    · rw [h.children_eq]
      exact s.nodup_ids.filter _
    · rw [h.mem_children] at ha ha'
      exact Option.some.inj (ha.symm.trans ha')
  have hlt := (h.parent_lt hp).trans (lt_size_of_parent hp)
  exact List.count_eq_one_of_mem hnodup
    (List.mem_flatMap.2 ⟨p, mem_ids.2 hlt, h.mem_children.2 hp⟩)

/-- A table has the symbols that say they are in it, under the names they say. -/
theorem local?_iff (h : s.Coherent) :
    s.local? id name = some symbol ↔
      symbol.index < s.symbols.size ∧ (s.symbol symbol).name = name ∧
        (s.symbol symbol).scope = id := by
  constructor
  · intro hlocal
    exact ⟨h.wellNamed.symbol_lt hlocal, h.wellNamed.name_eq hlocal, h.wellNamed.scope_eq hlocal⟩
  · rintro ⟨hlt, rfl, rfl⟩
    exact h.local?_symbol hlt

theorem mem_ids_of_local? (hlocal : s.local? id name = some symbol) : id ∈ s.ids := by
  rw [mem_ids]
  by_contra hle
  rw [local?, scope_of_size_le id (by omega)] at hlocal
  cases hlocal

theorem mem_symbols_iff (h : s.Coherent) :
    symbol ∈ (s.scope id).table.map Prod.snd ↔ ∃ name, s.local? id name = some symbol := by
  simp only [local?, lookup_eq_some_iff_mem (h.ordered.nodup id)]
  simp

theorem count_tables (h : s.Coherent) (hlt : symbol.index < s.symbols.size) :
    (s.ids.flatMap fun id => (s.scope id).table.map Prod.snd).count symbol = 1 := by
  have hnodup : (s.ids.flatMap fun id => (s.scope id).table.map Prod.snd).Nodup := by
    refine nodup_flatMap_ids (h.ordered.nodup_symbols h.wellNamed) fun hmem hmem' => ?_
    obtain ⟨name, hname⟩ := h.mem_symbols_iff.1 hmem
    obtain ⟨name', hname'⟩ := h.mem_symbols_iff.1 hmem'
    exact (h.wellNamed.injective hname' hname).1
  have hlocal := h.local?_symbol hlt
  exact List.count_eq_one_of_mem hnodup
    (List.mem_flatMap.2 ⟨_, mem_ids_of_local? hlocal, h.mem_symbols_iff.2 ⟨_, hlocal⟩⟩)

end Coherent

/-- Whatever is done to the scopes there are, each of them but the global one is
inside exactly one, which was made before it, and the way outwards from any of
them ends at the global one. A table has the symbols that say they are in it, and
no symbol is in two places. -/
theorem tree_of_run {ops : List Op} (hlegal : initial.Legal ops) (hs : initial.run ops = s) :
    s.ids = global :: initial.made ops ∧
    s.parent global = none ∧
    (∀ id ∈ initial.made ops, ∃ p ∈ s.ids, s.parent id = some p ∧ p.index < id.index ∧
      id ∈ (s.scope p).children ∧
      (s.ids.flatMap fun q => (s.scope q).children).count id = 1) ∧
    (∀ p, (s.scope p).children = (initial.made ops).filter fun id => s.parent id = some p) ∧
    (∀ id ∈ s.ids, (s.ancestry id).head? = some id ∧
      (s.ancestry id).IsChain (fun a b => s.parent a = some b) ∧
      (s.ancestry id).Nodup ∧ (s.ancestry id).getLast? = some global) ∧
    (∀ id name symbol, s.local? id name = some symbol ↔
      symbol.index < s.symbols.size ∧ (s.symbol symbol).name = name ∧
        (s.symbol symbol).scope = id) ∧
    (∀ symbol : SymbolId, symbol.index < s.symbols.size →
      (s.symbol symbol).scope ∈ s.ids ∧
      (s.ids.flatMap fun id => (s.scope id).table.map Prod.snd).count symbol = 1) ∧
    (∀ symbol symbol' : SymbolId,
      symbol.index < s.symbols.size → symbol'.index < s.symbols.size →
      (s.symbol symbol).scope = (s.symbol symbol').scope →
      (s.symbol symbol).name = (s.symbol symbol').name → symbol = symbol') := by
  have h : s.Coherent := by
    rw [← hs]
    exact Coherent.initial.run hlegal
  have hids : s.ids = global :: initial.made ops := by
    rw [← hs, ids_run]
    rfl
  have hglobal : global ∉ initial.made ops := by
    have hnodup := s.nodup_ids
    rw [hids, List.nodup_cons] at hnodup
    exact hnodup.1
  refine ⟨hids, h.parent_global, fun id hid => ?_, fun p => ?_, fun id hid => ?_, fun _ _ _ => ?_,
    fun symbol hlt => ?_, fun symbol symbol' hlt hlt' hscope hname => ?_⟩
  · have hmem : id ∈ s.ids := by
      rw [hids]
      exact List.mem_cons_of_mem _ hid
    obtain ⟨p, hp⟩ := h.exists_parent (mem_ids.1 hmem) fun heq => hglobal (heq ▸ hid)
    have hlt := h.parent_lt hp
    exact ⟨p, mem_ids.2 (hlt.trans (mem_ids.1 hmem)), hp, hlt, h.mem_children.2 hp,
      h.count_children hp⟩
  · rw [h.children_eq, hids, List.filter_cons_of_neg]
    simp [h.parent_global]
  · exact ⟨Coherent.head?_ancestry s id, h.isChain_ancestry hid, h.nodup_ancestry hid,
      h.getLast?_ancestry hid⟩
  · exact h.local?_iff
  · exact ⟨Coherent.mem_ids_of_local? (h.local?_symbol hlt), h.count_tables hlt⟩
  · have hlocal := h.local?_symbol hlt
    rw [hscope, hname, h.local?_symbol hlt'] at hlocal
    exact (Option.some.inj hlocal).symm

/-- Two scopes in the global one and a third in the first of them, with a name of
its own that hides a global one and keeps its type. -/
theorem tree_of_run_nested :
    ∃ ops s, ops = [.createAnonymous global, .create "f" ⟨1⟩, .createAnonymous global,
        .declare global "x" none, .define ⟨2⟩ "x" .integer none, .define ⟨2⟩ "x" .string none] ∧
      initial.Legal ops ∧ initial.run ops = s ∧
      initial.made ops = [⟨1⟩, ⟨2⟩, ⟨3⟩] ∧ s.symbols.size = 2 ∧
      (∀ p, (s.scope p).children = (initial.made ops).filter fun id => s.parent id = some p) ∧
      (∀ id ∈ s.ids, (s.ancestry id).getLast? = some global) ∧
      (∀ id name symbol, s.local? id name = some symbol ↔
        symbol.index < s.symbols.size ∧ (s.symbol symbol).name = name ∧
          (s.symbol symbol).scope = id) := by
  have hlegal : initial.Legal [.createAnonymous global, .create "f" ⟨1⟩, .createAnonymous global,
      .declare global "x" none, .define ⟨2⟩ "x" .integer none,
      .define ⟨2⟩ "x" .string none] := by decide
  obtain ⟨_, _, _, hchildren, hancestry, htables, _⟩ := tree_of_run hlegal rfl
  exact ⟨_, _, rfl, hlegal, rfl, by decide, by decide, hchildren,
    fun id hid => (hancestry id hid).2.2.2, htables⟩

end Lindenmayer.Scopes
