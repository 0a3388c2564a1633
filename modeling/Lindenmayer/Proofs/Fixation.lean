import Lindenmayer.Proofs.ScopeTree

/-!
# The first definition stays

A symbol starts without a type when it was declared, and gets one from the first
operation that defines its name. Nothing that is done afterwards, to its name or to
any other, changes what is written down about it. So the symbol after any number of
operations is told by the symbol before and by the first definition among them
(`symbol_run`), and how the operations were interleaved with others is of no
importance.

To define a name may be refused. `define` answers scopes only when it is not, which
leaves no room for half of a change; `defineInPlace` writes to the scopes as it goes
along, and it has not written anything when it is refused (`run_defineInPlace`).
-/

namespace Lindenmayer

/-- A symbol that is defined with a type and at a site. If it has a type it stays as
it is. -/
def Symbol.definedBy (v : Symbol) : Option (ValueType × Option NodeId) → Symbol
  | none => v
  | some (type, site) => if v.type = .unknown then { v with type, site := site <|> v.site } else v

namespace Scopes

variable {s s' : Scopes} {id id' : ScopeId} {name name' : String} {symbol : SymbolId}
  {type : ValueType} {site : Option NodeId}

/-- What a name of a scope is defined with by an operation, if it is defined by it and
this is not refused. -/
def defined? (s : Scopes) (id : ScopeId) (name : String) : Op → Option (ValueType × Option NodeId)
  | .define id' name' type site =>
    if id' = id ∧ name' = name ∧ (s.define id' name' type site).toBool then some (type, site)
    else none
  | _ => none

/-- What a name of a scope is defined with by the first of some operations that does so. -/
def definition? (s : Scopes) (id : ScopeId) (name : String) :
    List Op → Option (ValueType × Option NodeId)
  | [] => none
  | op :: ops => s.defined? id name op <|> (s.after op).definition? id name ops

/-! ## Refusals -/

theorem define_of_not_concrete (h : type.isConcrete = false) :
    s.define id name type site = .error (.notConcrete name type) := by
  simp [define, h]

/-- A definition is refused if no value can have its type, or if the name has a type
and it is another one. -/
theorem define_eq_error_iff {e : ScopeError} :
    s.define id name type site = .error e ↔
      (type.isConcrete = false ∧ e = .notConcrete name type) ∨
      (type.isConcrete = true ∧ ∃ symbol, s.local? id name = some symbol ∧
        (s.symbol symbol).type ≠ .unknown ∧ (s.symbol symbol).type ≠ type ∧
        e = .typeConflict name (s.symbol symbol).type type) := by
  cases hconcrete : type.isConcrete with
  | false => simp [define_of_not_concrete hconcrete, eq_comm]
  | true =>
      cases hlocal : s.local? id name with
      | none => simp [define_of_none hconcrete site hlocal]
      | some symbol =>
          by_cases hsame : (s.symbol symbol).type = type
          · simp [define_of_same hconcrete site hlocal hsame, hsame]
          · by_cases hunknown : (s.symbol symbol).type = .unknown
            · simp [define_of_unknown hconcrete site hlocal hunknown, hunknown]
            · simp [define_of_ne hconcrete site hlocal hunknown hsame, hunknown, hsame,
                @eq_comm _ e]

/-- To define a name step by step, where what was written stays written. -/
def defineInPlace (id : ScopeId) (name : String) (type : ValueType) (site : Option NodeId) :
    EStateM ScopeError Scopes SymbolId := do
  if !type.isConcrete then
    throw (.notConcrete name type)
  match (← get).local? id name with
  | none => modifyGet fun s => s.insert id name type site
  | some symbol =>
    let existing := ((← get).symbol symbol).type
    if existing = type then
      return symbol
    if existing = .unknown then
      modify fun s => { s with symbols := s.symbols.modify symbol.index fun v => { v with type } }
      if site.isSome then
        modify fun s => { s with symbols := s.symbols.modify symbol.index fun v => { v with site } }
      return symbol
    throw (.typeConflict name existing type)

theorem modify_modify {α : Type} (xs : Array α) (i : Nat) (f g : α → α) :
    (xs.modify i f).modify i g = xs.modify i fun a => g (f a) := by
  refine Array.ext_getElem? fun j => ?_
  simp only [Array.getElem?_modify]
  split
  · exact Option.map_map g f _
  · rfl

theorem run_defineInPlace (s : Scopes) (id : ScopeId) (name : String) (type : ValueType)
    (site : Option NodeId) :
    (defineInPlace id name type site).run s =
      match s.define id name type site with
      | .ok (symbol, s') => .ok symbol s'
      | .error e => .error e s := by
  cases hconcrete : type.isConcrete with
  | false =>
      rw [define_of_not_concrete hconcrete, defineInPlace, hconcrete]
      rfl
  | true =>
      cases hlocal : s.local? id name with
      | none =>
          rw [define_of_none hconcrete site hlocal, defineInPlace, hconcrete]
          simp [hlocal]
      | some symbol =>
          rw [defineInPlace, hconcrete]
          by_cases hsame : (s.symbol symbol).type = type
          · rw [define_of_same hconcrete site hlocal hsame]
            simp [hlocal, hsame]
          · by_cases hunknown : (s.symbol symbol).type = .unknown
            · rw [define_of_unknown hconcrete site hlocal hunknown]
              rw [hunknown] at hsame
              -- The two writes to the symbol are one, and without a site there is only the first.
              cases site with
              | none => simp [-bind_pure_comp, hlocal, hunknown, hsame, retype]
              | some site => simp [-bind_pure_comp, hlocal, hunknown, hsame, retype, modify_modify]
            · rw [define_of_ne hconcrete site hlocal hunknown hsame]
              simp [hlocal, hsame, hunknown]
              rfl

/-! ## What defines a name -/

theorem defined?_of_ok (h : s.define id name type site = .ok (symbol, s')) :
    s.defined? id name (.define id name type site) = some (type, site) := by
  simp [defined?, h, Except.toBool]

theorem defined?_of_error {e : ScopeError} (h : s.define id name type site = .error e) :
    s.defined? id name (.define id name type site) = none := by
  simp [defined?, h, Except.toBool]

theorem isConcrete_of_defined? {op : Op} (h : s.defined? id name op = some (type, site)) :
    type.isConcrete = true := by
  cases op with
  | define id' name' type' site' =>
      rw [defined?] at h
      split at h
      · next hdefined =>
          cases h
          by_contra hconcrete
          rw [define_of_not_concrete (Bool.eq_false_of_not_eq_true hconcrete)] at hdefined
          exact Bool.false_ne_true hdefined.2.2
      · cases h
  | create | createAnonymous | declare => cases h

theorem isConcrete_of_definition? {ops : List Op}
    (h : s.definition? id name ops = some (type, site)) : type.isConcrete = true := by
  induction ops generalizing s with
  | nil => cases h
  | cons op ops ih =>
      rw [definition?] at h
      cases hdefined : s.defined? id name op with
      | none =>
          rw [hdefined] at h
          exact ih h
      | some d =>
          rw [hdefined] at h
          cases h
          exact isConcrete_of_defined? hdefined

theorem ne_unknown_of_isConcrete (h : type.isConcrete = true) : type ≠ .unknown := by
  rintro rfl
  cases h

/-! ## A name that an operation is not about -/

/-- The name that an operation is about, with the scope it is in. -/
def Op.about? : Op → Option (ScopeId × String)
  | .create .. | .createAnonymous .. => none
  | .declare id name _ | .define id name _ _ => some (id, name)

theorem insert_aside (h : s.WellNamed) (hnone : s.local? id' name' = none)
    (hne : ¬ (id' = id ∧ name' = name)) (type : ValueType) (site : Option NodeId) :
    (s.insert id' name' type site).2.local? id name = s.local? id name ∧
      ∀ symbol, s.local? id name = some symbol →
        (s.insert id' name' type site).2.symbol symbol = s.symbol symbol := by
  constructor
  · rw [local?_insert hnone, if_neg]
    rintro ⟨rfl, _, rfl⟩
    exact hne ⟨rfl, rfl⟩
  · intro symbol hsome
    rw [symbol_insert, if_neg]
    rintro rfl
    exact Nat.lt_irrefl _ (h.symbol_lt hsome)

/-- An operation that is not about a name leaves it and its symbol alone. -/
theorem after_aside (h : s.WellNamed) {op : Op} (hop : op.about? ≠ some (id, name)) :
    (s.after op).local? id name = s.local? id name ∧
      (∀ symbol, s.local? id name = some symbol → (s.after op).symbol symbol = s.symbol symbol) ∧
      s.defined? id name op = none := by
  cases op with
  | create name' parent => exact ⟨local?_create name' parent id name, fun _ _ => rfl, rfl⟩
  | createAnonymous parent => exact ⟨local?_createAnonymous parent id name, fun _ _ => rfl, rfl⟩
  | declare id' name' site =>
      have hne : ¬ (id' = id ∧ name' = name) := fun ⟨hid, hname⟩ => hop (by rw [hid, hname]; rfl)
      rcases after_declare s id' name' site with ⟨hnone, hafter⟩ | hafter
      · rw [hafter]
        obtain ⟨hlocal, hsymbol⟩ := insert_aside h hnone hne .unknown site
        exact ⟨hlocal, hsymbol, rfl⟩
      · rw [hafter]
        exact ⟨rfl, fun _ _ => rfl, rfl⟩
  | define id' name' type site =>
      have hne : ¬ (id' = id ∧ name' = name) := fun ⟨hid, hname⟩ => hop (by rw [hid, hname]; rfl)
      have hdefined : s.defined? id name (.define id' name' type site) = none :=
        if_neg fun hself => hne ⟨hself.1, hself.2.1⟩
      rcases after_define s id' name' type site with
        ⟨hnone, hafter⟩ | ⟨symbol', hsome', hafter⟩ | hafter
      · rw [hafter]
        obtain ⟨hlocal, hsymbol⟩ := insert_aside h hnone hne type site
        exact ⟨hlocal, hsymbol, hdefined⟩
      · rw [hafter]
        refine ⟨rfl, fun symbol hsome => ?_, hdefined⟩
        rw [symbol_retype (h.symbol_lt hsome'), if_neg]
        rintro rfl
        exact hne (h.injective hsome hsome')
      · rw [hafter]
        exact ⟨rfl, fun _ _ => rfl, hdefined⟩

/-! ## A name with a symbol -/

/-- A name keeps its symbol, and nothing happens to that but its first definition. -/
theorem found_after (h : s.WellNamed) (hsome : s.local? id name = some symbol) (op : Op) :
    (s.after op).local? id name = some symbol ∧
      (s.after op).symbol symbol = (s.symbol symbol).definedBy (s.defined? id name op) := by
  by_cases hop : op.about? = some (id, name)
  · cases op with
    | create | createAnonymous => cases hop
    | declare id' name' site =>
        cases hop
        rw [after, declare, hsome]
        exact ⟨hsome, rfl⟩
    | define id' name' type site =>
        cases hop
        cases hdefine : s.define id name type site with
        | error e =>
            rw [defined?_of_error hdefine, after, hdefine]
            exact ⟨hsome, rfl⟩
        | ok answer =>
            have hdefined := defined?_of_ok hdefine
            have hconcrete := isConcrete_of_defined? hdefined
            rw [hdefined, Symbol.definedBy]
            by_cases hunknown : (s.symbol symbol).type = .unknown
            · have hafter : s.after (.define id name type site) = s.retype symbol type site := by
                rw [after, define_of_unknown hconcrete site hsome hunknown]
              rw [hafter, symbol_retype (h.symbol_lt hsome), if_pos rfl, if_pos hunknown]
              exact ⟨hsome, rfl⟩
            · rw [if_neg hunknown]
              by_cases hsame : (s.symbol symbol).type = type
              · rw [after, define_of_same hconcrete site hsome hsame]
                exact ⟨hsome, rfl⟩
              · rw [define_of_ne hconcrete site hsome hunknown hsame] at hdefine
                cases hdefine
  · obtain ⟨hlocal, hsymbol, hdefined⟩ := after_aside h hop
    rw [hlocal, hsymbol symbol hsome, hdefined]
    exact ⟨hsome, rfl⟩

theorem definedBy_definedBy (v : Symbol) {d : Option (ValueType × Option NodeId)}
    (hd : ∀ {type site}, d = some (type, site) → type.isConcrete = true)
    (d' : Option (ValueType × Option NodeId)) :
    (v.definedBy d).definedBy d' = v.definedBy (d <|> d') := by
  match d with
  | none => rfl
  | some (type, site) =>
      have hknown := ne_unknown_of_isConcrete (hd rfl)
      show (if v.type = .unknown then _ else v).definedBy d' =
        if v.type = .unknown then { v with type, site := site <|> v.site } else v
      split
      · cases d' with
        | none => rfl
        | some d' => exact if_neg hknown
      · next hne =>
          cases d' with
          | none => rfl
          | some d' => exact if_neg hne

/-- After any number of operations a symbol is what it was, but for the first
definition of its name among them. -/
theorem symbol_run (h : s.Coherent) {ops : List Op} (hlegal : s.Legal ops)
    (hsome : s.local? id name = some symbol) :
    (s.run ops).local? id name = some symbol ∧
      (s.run ops).symbol symbol = (s.symbol symbol).definedBy (s.definition? id name ops) := by
  induction ops generalizing s with
  | nil => exact ⟨hsome, rfl⟩
  | cons op ops ih =>
      obtain ⟨hfound, hsymbol⟩ := found_after h.wellNamed hsome op
      obtain ⟨hfoundAll, hsymbolAll⟩ := ih (h.after hlegal.1) hlegal.2 hfound
      refine ⟨hfoundAll, hsymbolAll.trans ?_⟩
      rw [hsymbol, definedBy_definedBy _ isConcrete_of_defined?, definition?]

/-! ## A name without a symbol -/

theorem new_insert (hnone : s.local? id name = none) (hid : id.index < s.scopes.size)
    (type : ValueType) (site : Option NodeId) :
    ∃ symbol, (s.insert id name type site).2.local? id name = some symbol ∧
      ((s.insert id name type site).2.symbol symbol).type = type := by
  refine ⟨⟨s.symbols.size⟩, ?_, ?_⟩
  · rw [local?_insert hnone, if_pos ⟨rfl, hid, rfl⟩]
  · rw [symbol_insert, if_pos rfl]

/-- A name without a symbol stays without one until it is declared, which gives it no
type, or defined. -/
theorem missing_after (h : s.WellNamed) (hnone : s.local? id name = none) {op : Op}
    (hop : op.scope.index < s.scopes.size) :
    ((s.after op).local? id name = none ∧ s.defined? id name op = none) ∨
      ∃ symbol, (s.after op).local? id name = some symbol ∧
        ((s.after op).symbol symbol).type =
          ((s.defined? id name op).map Prod.fst).getD .unknown := by
  by_cases habout : op.about? = some (id, name)
  · cases op with
    | create | createAnonymous => cases habout
    | declare id' name' site =>
        cases habout
        rw [after, declare, hnone]
        exact .inr (new_insert hnone hop .unknown site)
    | define id' name' type site =>
        cases habout
        cases hdefine : s.define id name type site with
        | error e =>
            rw [defined?_of_error hdefine, after, hdefine]
            exact .inl ⟨hnone, rfl⟩
        | ok answer =>
            have hdefined := defined?_of_ok hdefine
            rw [hdefined, after, define_of_none (isConcrete_of_defined? hdefined) site hnone]
            exact .inr (new_insert hnone hop type site)
  · obtain ⟨hlocal, _, hdefined⟩ := after_aside h habout
    rw [hlocal, hdefined]
    exact .inl ⟨hnone, rfl⟩

/-- The type of a symbol that was not there before is that of the first definition of
its name. -/
theorem type_run (h : s.Coherent) {ops : List Op} (hlegal : s.Legal ops)
    (hnone : s.local? id name = none) (hsome : (s.run ops).local? id name = some symbol) :
    ((s.run ops).symbol symbol).type =
      ((s.definition? id name ops).map Prod.fst).getD .unknown := by
  induction ops generalizing s with
  | nil =>
      rw [run, List.foldl_nil, hnone] at hsome
      cases hsome
  | cons op ops ih =>
      have hafter := h.after hlegal.1
      rcases missing_after h.wellNamed hnone hlegal.1 with
        ⟨hmissing, hdefined⟩ | ⟨symbol', hfound, htype⟩
      · rw [definition?, hdefined]
        exact ih hafter hlegal.2 hmissing hsome
      · obtain ⟨hfoundAll, hsymbolAll⟩ := symbol_run hafter hlegal.2 hfound
        obtain rfl : symbol' = symbol := Option.some.inj (hfoundAll.symm.trans hsome)
        rw [run, List.foldl_cons, ← run, hsymbolAll, definition?]
        cases hdefined : s.defined? id name op with
        | none =>
            rw [hdefined] at htype
            cases (s.after op).definition? id name ops with
            | none => exact htype
            | some d => exact congrArg Symbol.type (if_pos htype)
        | some d =>
            obtain ⟨type, site⟩ := d
            have hconcrete := isConcrete_of_defined? hdefined
            rw [hdefined] at htype
            have hknown : ((s.after op).symbol symbol').type ≠ .unknown := by
              rw [htype]
              exact ne_unknown_of_isConcrete hconcrete
            cases (s.after op).definition? id name ops with
            | none => exact htype
            | some d => exact (congrArg Symbol.type (if_neg hknown)).trans htype

/-! ## From the start -/

theorem local?_initial (id : ScopeId) (name : String) : initial.local? id name = none := by
  obtain ⟨i⟩ := id
  cases i with
  | zero => rfl
  | succ i => rfl

/-- A symbol has a type that values can have, or none. -/
theorem isConcrete_of_run {ops : List Op} (hlegal : initial.Legal ops)
    (hsome : (initial.run ops).local? id name = some symbol)
    (hknown : ((initial.run ops).symbol symbol).type ≠ .unknown) :
    ((initial.run ops).symbol symbol).type.isConcrete = true := by
  have htype := type_run .initial hlegal (local?_initial id name) hsome
  cases hdefinition : initial.definition? id name ops with
  | none =>
      rw [hdefinition] at htype
      exact absurd htype hknown
  | some d =>
      rw [hdefinition] at htype
      rw [htype]
      exact isConcrete_of_definition? hdefinition

/-- A name that has a symbol keeps it, whatever is done. The type of the symbol is that
of the first definition of the name, and from then on nothing about the symbol changes;
until then nothing does either. A definition is refused if no value can have the type,
or if there is another type already, and then the scopes are what they were. -/
theorem settled_of_run {past later : List Op} (hlegal : initial.Legal (past ++ later))
    (hs : initial.run past = s) (hs' : s.run later = s') :
    (∀ id name symbol, s.local? id name = some symbol →
      s'.local? id name = some symbol ∧
      (s.symbol symbol).name = name ∧ (s'.symbol symbol).name = name ∧
      (s.symbol symbol).scope = id ∧ (s'.symbol symbol).scope = id ∧
      (s.symbol symbol).type = ((initial.definition? id name past).map Prod.fst).getD .unknown ∧
      ((s.symbol symbol).type ≠ .unknown → s'.symbol symbol = s.symbol symbol) ∧
      ((s.symbol symbol).type = .unknown →
        (s.definition? id name later = none → s'.symbol symbol = s.symbol symbol) ∧
        ∀ type site, s.definition? id name later = some (type, site) →
          type.isConcrete = true ∧ s'.symbol symbol =
            { s.symbol symbol with type, site := site <|> (s.symbol symbol).site })) ∧
    ∀ id name type site e,
      (s.define id name type site = .error e ↔
        (type.isConcrete = false ∧ e = .notConcrete name type) ∨
        (type.isConcrete = true ∧ ∃ symbol, s.local? id name = some symbol ∧
          (s.symbol symbol).type.isConcrete = true ∧ (s.symbol symbol).type ≠ type ∧
          e = .typeConflict name (s.symbol symbol).type type)) ∧
      (s.define id name type site = .error e →
        (defineInPlace id name type site).run s = .error e s ∧
        s.after (.define id name type site) = s) := by
  subst hs hs'
  obtain ⟨hpast, hlater⟩ := legal_append.1 hlegal
  have h : (initial.run past).Coherent := Coherent.initial.run hpast
  have h' : ((initial.run past).run later).Coherent := h.run hlater
  refine ⟨fun id name symbol hsome => ?_, fun id name type site e => ⟨?_, fun hdefine => ⟨?_, ?_⟩⟩⟩
  · obtain ⟨hfound, hsymbol⟩ := symbol_run h hlater hsome
    refine ⟨hfound, h.wellNamed.name_eq hsome, h'.wellNamed.name_eq hfound,
      h.wellNamed.scope_eq hsome, h'.wellNamed.scope_eq hfound,
      type_run .initial hpast (local?_initial id name) hsome, fun hknown => ?_, fun hunknown => ?_⟩
    · rw [hsymbol]
      cases (initial.run past).definition? id name later with
      | none => rfl
      | some d => exact if_neg hknown
    · refine ⟨fun hnone => ?_, fun type site hdefinition => ?_⟩
      · rw [hsymbol, hnone, Symbol.definedBy]
      · refine ⟨isConcrete_of_definition? hdefinition, ?_⟩
        rw [hsymbol, hdefinition, Symbol.definedBy, if_pos hunknown]
  · rw [define_eq_error_iff]
    refine or_congr_right (and_congr_right fun _ => exists_congr fun symbol =>
      and_congr_right fun hsome => and_congr_left' ⟨fun hknown => ?_, ne_unknown_of_isConcrete⟩)
    exact isConcrete_of_run hpast hsome hknown
  · rw [run_defineInPlace, hdefine]
  · rw [after, hdefine]

/-- A name that is declared twice and then defined by the second of three definitions,
the first of which has no type to give. The third comes too late. -/
theorem settled_of_run_declared :
    ∃ past later s s',
      past = [.createAnonymous global, .declare ⟨1⟩ "x" none, .declare ⟨1⟩ "x" (some ⟨7⟩)] ∧
      later = [.define ⟨1⟩ "x" .void (some ⟨8⟩), .define ⟨1⟩ "x" .integer (some ⟨9⟩),
        .define global "x" .float none, .define ⟨1⟩ "x" .string (some ⟨10⟩)] ∧
      initial.Legal (past ++ later) ∧ initial.run past = s ∧ s.run later = s' ∧
      s.local? ⟨1⟩ "x" = some ⟨0⟩ ∧ (s.symbol ⟨0⟩).type = .unknown ∧
      s'.symbol ⟨0⟩ =
        { s.symbol ⟨0⟩ with type := .integer, site := some ⟨9⟩ <|> (s.symbol ⟨0⟩).site } := by
  have hlegal : initial.Legal ([.createAnonymous global, .declare ⟨1⟩ "x" none,
      .declare ⟨1⟩ "x" (some ⟨7⟩)] ++ [.define ⟨1⟩ "x" .void (some ⟨8⟩),
      .define ⟨1⟩ "x" .integer (some ⟨9⟩), .define global "x" .float none,
      .define ⟨1⟩ "x" .string (some ⟨10⟩)]) := by decide
  obtain ⟨_, _, _, _, _, _, _, hsettled⟩ :=
    (settled_of_run hlegal rfl rfl).1 ⟨1⟩ "x" ⟨0⟩ (by decide)
  exact ⟨_, _, _, _, rfl, rfl, hlegal, rfl, rfl, by decide, by decide,
    ((hsettled (by decide)).2 .integer (some ⟨9⟩) (by decide)).2⟩

end Scopes

end Lindenmayer
