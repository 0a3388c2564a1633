import Lindenmayer.Proofs.Fixation

/-!
# What a declaration hides

A name is looked for in a scope and then in the scopes around it, so a symbol that is made in
one scope may be what the name refers to in many others, however far inside, and then takes
the place of what it referred to there. Which scopes these are is `SeenFrom`: the new symbol
is met on the way outwards, and no scope before it has the name itself.

The way outwards does not change while symbols are made, and of the tables on it one gets one
entry. So the look-up along the way is the one before with one answer replaced
(`findSome?_of_replaced`), and it is the new symbol just where nothing was found earlier on.
A scope that has just been made has nothing of its own, and its way outwards is that of the
scope around it, one step longer.
-/

namespace Lindenmayer.Scopes

variable {s s' : Scopes} {id : ScopeId} {name : String} {symbol : SymbolId} {op : Op}

/-- Whether what a scope has under a name is what the name refers to in another scope: it is
that scope or one around it, and none of those before it has the name itself. -/
def SeenFrom (s : Scopes) (id : ScopeId) (name : String) (inner : ScopeId) : Prop :=
  id ∈ s.ancestry inner ∧
    ∀ between ∈ (s.ancestry inner).takeWhile (· ≠ id), s.local? between name = none

instance (s : Scopes) (id : ScopeId) (name : String) (inner : ScopeId) :
    Decidable (s.SeenFrom id name inner) :=
  inferInstanceAs (Decidable (_ ∧ _))

/-- The symbol that an operation answers. To make a scope is to answer none, and so is to be
refused. -/
def answer? (s : Scopes) : Op → Option SymbolId
  | .create .. | .createAnonymous .. => none
  | .declare scope name site => some (s.declare scope name site).1
  | .define scope name type site => (s.define scope name type site).toOption.map Prod.fst

/-- The symbol that an operation makes: the one it answers, unless that was there before. -/
def madeSymbol? (s : Scopes) (op : Op) : Option SymbolId :=
  (s.answer? op).filter fun symbol => s.symbols.size ≤ symbol.index

/-! ## Ways outwards -/

/-- Where scopes agree on what is around each, among scopes that are not left on the way
outwards, they agree on the way. -/
theorem ancestry_congr {P : ScopeId → Prop} (hP : ∀ {id p}, P id → s.parent id = some p → P p)
    (hparent : ∀ {id}, P id → s'.parent id = s.parent id) {id : ScopeId} (hid : P id) :
    s'.ancestry id = s.ancestry id := by
  rw [ancestry.eq_def s', ancestry.eq_def s, hparent hid]
  cases hp : s.parent id with
  | none => rfl
  | some p =>
      dsimp only
      split
      · rw [ancestry_congr hP hparent (hP hid hp)]
      · rfl
termination_by id.index

theorem visible?_congr {id' : ScopeId} (hancestry : s'.ancestry id' = s.ancestry id)
    (hlocal : ∀ between, s'.local? between name = s.local? between name) :
    s'.visible? id' name = s.visible? id name := by
  rw [visible?, visible?, hancestry]
  exact congrArg (fun f => List.findSome? f (s.ancestry id)) (funext hlocal)

theorem find_congr {id' : ScopeId} (h : s'.visible? id' name = s.visible? id name) :
    s'.find id' name true = s.find id name true := by
  rw [find, find, if_pos rfl, if_pos rfl, h]

theorem find_eq_ok_iff : s.find id name true = .ok symbol ↔ s.visible? id name = some symbol := by
  rw [find, if_pos rfl]
  cases s.visible? id name with
  | none => exact ⟨nofun, nofun⟩
  | some found => rw [Except.ok.injEq, Option.some.injEq]

/-! ## One symbol more -/

/-- What is found along a list when one of its members, which had nothing, has something: that,
if nothing is found before it, and otherwise what was found anyway. -/
theorem findSome?_of_replaced {α β : Type} [DecidableEq α] {f g : α → Option β} {a : α} {b : β}
    (hnone : f a = none) (ha : g a = some b) (hother : ∀ x, x ≠ a → g x = f x) (xs : List α) :
    xs.findSome? g =
      if a ∈ xs ∧ ∀ x ∈ xs.takeWhile (· ≠ a), f x = none then some b else xs.findSome? f := by
  induction xs with
  | nil => simp
  | cons x xs ih =>
      by_cases hx : x = a
      · subst hx
        simp [ha]
      · rw [List.findSome?_cons, List.findSome?_cons, hother x hx, ih]
        cases hf : f x with
        | none => simp [hx, Ne.symm hx, hf]
        | some y => simp [hx, hf]

theorem visible?_insert (hnone : s.local? id name = none) (hid : id.index < s.scopes.size)
    (type : ValueType) (site : Option NodeId) (inner : ScopeId) (name' : String) :
    (s.insert id name type site).2.visible? inner name' =
      if name' = name ∧ s.SeenFrom id name inner then some ⟨s.symbols.size⟩
      else s.visible? inner name' := by
  have hlocal := fun id' => local?_insert hnone type site id' name'
  have hancestry : (s.insert id name type site).2.ancestry inner = s.ancestry inner :=
    ancestry_congr (P := fun _ => True) (fun _ _ => trivial) (fun _ => parent_insert type site _)
      trivial
  by_cases hname : name' = name
  · subst hname
    rw [visible?, hancestry,
      findSome?_of_replaced (f := fun id' => s.local? id' name') hnone
        ((hlocal id).trans (if_pos ⟨rfl, hid, rfl⟩))
        fun id' hne => (hlocal id').trans (if_neg fun h => hne h.1)]
    simp only [true_and, SeenFrom, visible?]
  · rw [if_neg fun h => hname h.1]
    exact visible?_congr hancestry fun id' => (hlocal id').trans (if_neg fun h => hname h.2.2)

/-! ## What operations answer -/

theorem define_cases (s : Scopes) (id : ScopeId) (name : String) (type : ValueType)
    (site : Option NodeId) :
    (∃ e, s.define id name type site = .error e) ∨
    (s.local? id name = none ∧ s.define id name type site = .ok (s.insert id name type site)) ∨
    ∃ symbol, s.local? id name = some symbol ∧
      (s.define id name type site = .ok (symbol, s) ∨
        s.define id name type site = .ok (symbol, s.retype symbol type site)) := by
  cases hconcrete : type.isConcrete with
  | false => exact .inl ⟨_, define_of_not_concrete hconcrete⟩
  | true =>
      cases hlocal : s.local? id name with
      | none => exact .inr (.inl ⟨rfl, define_of_none hconcrete site hlocal⟩)
      | some symbol =>
          by_cases hsame : (s.symbol symbol).type = type
          · exact .inr (.inr ⟨symbol, rfl, .inl (define_of_same hconcrete site hlocal hsame)⟩)
          · by_cases hunknown : (s.symbol symbol).type = .unknown
            · exact .inr (.inr
                ⟨symbol, rfl, .inr (define_of_unknown hconcrete site hlocal hunknown)⟩)
            · exact .inl ⟨_, define_of_ne hconcrete site hlocal hunknown hsame⟩

/-- An operation on a name is refused, or it puts a new symbol into a table that had none of
that name and answers it, or it answers the one there is and leaves all tables as they are. -/
theorem answer?_cases (s : Scopes) (habout : op.about? = some (id, name)) :
    (s.answer? op = none ∧ s.after op = s) ∨
    (s.local? id name = none ∧ s.answer? op = some ⟨s.symbols.size⟩ ∧
      ∃ type site, s.after op = (s.insert id name type site).2) ∨
    ∃ symbol, s.local? id name = some symbol ∧ s.answer? op = some symbol ∧
      (s.after op).scopes = s.scopes := by
  cases op with
  | create | createAnonymous => cases habout
  | declare id' name' site =>
      cases habout
      rw [answer?, after, declare]
      cases hlocal : s.local? id name with
      | none => exact .inr (.inl ⟨rfl, rfl, .unknown, site, rfl⟩)
      | some symbol => exact .inr (.inr ⟨symbol, rfl, rfl, rfl⟩)
  | define id' name' type site =>
      cases habout
      rw [answer?, after]
      rcases define_cases s id name type site with
        ⟨e, h⟩ | ⟨hlocal, h⟩ | ⟨symbol, hlocal, h | h⟩
      · rw [h]
        exact .inl ⟨rfl, rfl⟩
      · rw [h]
        exact .inr (.inl ⟨hlocal, rfl, type, site, rfl⟩)
      · rw [h]
        exact .inr (.inr ⟨symbol, hlocal, rfl, rfl⟩)
      · rw [h]
        exact .inr (.inr ⟨symbol, hlocal, rfl, rfl⟩)

/-- An operation makes a symbol if the name has none yet and it is not refused. -/
theorem madeSymbol?_eq_none_iff (h : s.WellNamed) (habout : op.about? = some (id, name)) :
    s.madeSymbol? op = none ↔ (s.local? id name).isSome ∨ s.answer? op = none := by
  rcases answer?_cases s habout with
    ⟨hanswer, _⟩ | ⟨hlocal, hanswer, _⟩ | ⟨symbol, hlocal, hanswer, _⟩
  · simp [madeSymbol?, hanswer]
  · simp [madeSymbol?, hanswer, hlocal]
  · simp [madeSymbol?, hanswer, hlocal, h.symbol_lt hlocal]

/-- Where no symbol is made, nothing that is looked up changes. -/
theorem visible?_of_madeSymbol?_eq_none (habout : op.about? = some (id, name))
    (hmade : s.madeSymbol? op = none) (inner : ScopeId) (name' : String) :
    (s.after op).visible? inner name' = s.visible? inner name' := by
  have hscopes : (s.after op).scopes = s.scopes := by
    rcases answer?_cases s habout with ⟨_, hafter⟩ | ⟨_, hanswer, _⟩ | ⟨_, _, _, hscopes⟩
    · rw [hafter]
    · simp [madeSymbol?, hanswer] at hmade
    · exact hscopes
  have hscope : ∀ id', (s.after op).scope id' = s.scope id' := fun id' => by
    rw [scope, hscopes, scope]
  refine visible?_congr (ancestry_congr (P := fun _ => True) (fun _ _ => trivial)
    (fun {id'} _ => ?_) trivial) fun id' => ?_
  · rw [parent, hscope, parent]
  · rw [local?, hscope, local?]

/-- Where one is made, it is seen from some scopes, and from all others nothing changes. -/
theorem visible?_of_madeSymbol? (h : s.WellNamed) (habout : op.about? = some (id, name))
    (hid : id ∈ s.ids) (hmade : s.madeSymbol? op = some symbol) :
    s.symbols.size ≤ symbol.index ∧ ∀ inner name', (s.after op).visible? inner name' =
      if name' = name ∧ s.SeenFrom id name inner then some symbol
      else s.visible? inner name' := by
  rcases answer?_cases s habout with
    ⟨hanswer, _⟩ | ⟨hlocal, hanswer, type, site, hafter⟩ | ⟨symbol', hlocal, hanswer, _⟩
  · simp [madeSymbol?, hanswer] at hmade
  · obtain ⟨rfl, hnew⟩ : ⟨s.symbols.size⟩ = symbol ∧ s.symbols.size ≤ symbol.index := by
      simpa [madeSymbol?, hanswer] using hmade
    exact ⟨hnew, fun inner name' => by rw [hafter, visible?_insert hlocal (mem_ids.1 hid)]⟩
  · obtain ⟨rfl, hnew⟩ : symbol' = symbol ∧ s.symbols.size ≤ symbol.index := by
      simpa [madeSymbol?, hanswer] using hmade
    exact absurd (h.symbol_lt hlocal) (Nat.not_lt.2 hnew)

/-! ## One scope more -/

/-- A scope that is made is the last there is, is inside the one it is made in, and has no names
of its own. -/
theorem of_made? {child : ScopeId} (hmade : s.made? op = some child) :
    child = ⟨s.scopes.size⟩ ∧
    (∀ id, (s.after op).parent id = if id = child then some op.scope else s.parent id) ∧
    ∀ id name, (s.after op).local? id name = s.local? id name := by
  cases op with
  | create name p =>
      cases hmade
      exact ⟨rfl, parent_create name p, local?_create name p⟩
  | createAnonymous p =>
      cases hmade
      exact ⟨rfl, parent_createAnonymous p, local?_createAnonymous p⟩
  | declare | define => cases hmade

theorem visible?_of_made? (h : s.Coherent) {child : ScopeId} (hmade : s.made? op = some child)
    (hop : op.scope ∈ s.ids) (name : String) :
    (s.after op).visible? child name = s.visible? op.scope name ∧
      ∀ inner, inner ≠ child → (s.after op).visible? inner name = s.visible? inner name := by
  obtain ⟨hchild, hparent, hlocal⟩ := of_made? hmade
  have hfresh : ∀ {id}, id ∈ s.ids → id ≠ child := by
    rintro id hid rfl
    rw [mem_ids, hchild] at hid
    exact Nat.lt_irrefl _ hid
  have hkept : ∀ {id}, id ≠ child → (s.after op).ancestry id = s.ancestry id := fun hne =>
    ancestry_congr (P := (· ≠ child))
      (fun _ hp => hfresh (mem_ids.2 ((h.parent_lt hp).trans (lt_size_of_parent hp))))
      (fun hid => (hparent _).trans (if_neg hid)) hne
  constructor
  · have hnone : s.local? child name = none := by
      rw [local?, scope_of_size_le child (by rw [hchild])]
      rfl
    rw [visible?, (h.after (mem_ids.1 hop)).ancestry_of_parent
      ((hparent child).trans (if_pos rfl)), List.findSome?_cons, hlocal, hnone]
    exact visible?_congr (hkept (hfresh hop)) fun id => hlocal id name
  · exact fun inner hne => visible?_congr (hkept hne) fun id => hlocal id name

/-! ## All look-ups -/

/-- Whatever was done to the scopes before: a symbol that is made is what its name refers to in
its scope and further inside, as far as no other scope on the way has the name; it is not there
for any other name, and nothing else that is looked up changes. Where none is made, because
the name has one or the definition is refused, nothing changes at all. A scope that is made
finds what the one around it finds, and nothing changes for the others. -/
theorem lookups_of_run {ops : List Op} (hlegal : initial.Legal ops) (hs : initial.run ops = s) :
    (∀ {op id name}, op.about? = some (id, name) → id ∈ s.ids →
      (s.madeSymbol? op = none ↔ (s.local? id name).isSome ∨ s.answer? op = none) ∧
      (∀ symbol, s.madeSymbol? op = some symbol → ∀ inner name',
        ((s.after op).find inner name' true = .ok symbol ↔
          name' = name ∧ s.SeenFrom id name inner) ∧
        (¬ (name' = name ∧ s.SeenFrom id name inner) →
          (s.after op).find inner name' true = s.find inner name' true)) ∧
      (s.madeSymbol? op = none → ∀ inner name',
        (s.after op).find inner name' true = s.find inner name' true)) ∧
    ∀ {op child}, s.made? op = some child → op.scope ∈ s.ids → ∀ name,
      (s.after op).find child name true = s.find op.scope name true ∧
      ∀ inner, inner ≠ child → (s.after op).find inner name true = s.find inner name true := by
  have h : s.Coherent := by
    rw [← hs]
    exact Coherent.initial.run hlegal
  refine ⟨fun {op id name} habout hid => ⟨madeSymbol?_eq_none_iff h.wellNamed habout,
    fun symbol hmade inner name' => ?_,
    fun hmade inner name' => find_congr (visible?_of_madeSymbol?_eq_none habout hmade inner name')⟩,
    fun hmade hop name => ?_⟩
  · obtain ⟨hnew, hvisible⟩ := visible?_of_madeSymbol? h.wellNamed habout hid hmade
    -- What was found before is a symbol that was there before.
    have hold : s.visible? inner name' ≠ some symbol := fun hfound => by
      obtain ⟨id', _, hlocal⟩ := List.exists_of_findSome?_eq_some hfound
      exact absurd (h.wellNamed.symbol_lt hlocal) (Nat.not_lt.2 hnew)
    rw [find_eq_ok_iff, hvisible]
    refine ⟨?_, fun hseen => find_congr ((hvisible inner name').trans (if_neg hseen))⟩
    split
    · next hseen => exact iff_of_true rfl hseen
    · next hseen => exact iff_of_false hold hseen
  · obtain ⟨hchild, hother⟩ := visible?_of_made? h hmade hop name
    exact ⟨find_congr hchild, fun inner hne => find_congr (hother inner hne)⟩

/-- A name of the outermost scope is declared in the second of four scopes in each other, the
third of which has it too: the innermost sees what it saw. -/
theorem lookups_of_run_between :
    ∃ ops s, ops = [.createAnonymous global, .createAnonymous ⟨1⟩, .createAnonymous ⟨2⟩,
        .declare global "x" none, .define ⟨2⟩ "x" .integer none] ∧
      initial.Legal ops ∧ initial.run ops = s ∧
      s.madeSymbol? (.define ⟨1⟩ "x" .string none) = some ⟨2⟩ ∧
      s.find ⟨1⟩ "x" true = .ok ⟨0⟩ ∧
      (s.after (.define ⟨1⟩ "x" .string none)).find ⟨1⟩ "x" true = .ok ⟨2⟩ ∧
      (s.after (.define ⟨1⟩ "x" .string none)).find ⟨3⟩ "x" true = s.find ⟨3⟩ "x" true ∧
      (s.after (.createAnonymous ⟨3⟩)).find ⟨4⟩ "x" true = s.find ⟨3⟩ "x" true := by
  have hlegal : initial.Legal [.createAnonymous global, .createAnonymous ⟨1⟩,
      .createAnonymous ⟨2⟩, .declare global "x" none, .define ⟨2⟩ "x" .integer none] := by decide
  obtain ⟨hsymbols, hscopes⟩ := lookups_of_run hlegal rfl
  obtain ⟨_, hmade, _⟩ := @hsymbols (.define ⟨1⟩ "x" .string none) _ _ rfl (by decide)
  exact ⟨_, _, rfl, hlegal, rfl, by decide, by decide +kernel,
    ((hmade ⟨2⟩ (by decide) ⟨1⟩ "x").1).2 ⟨rfl, by decide +kernel⟩,
    (hmade ⟨2⟩ (by decide) ⟨3⟩ "x").2 (by decide +kernel),
    (@hscopes (.createAnonymous ⟨3⟩) _ rfl (by decide) "x").1⟩

end Lindenmayer.Scopes
