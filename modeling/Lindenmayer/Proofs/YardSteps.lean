import Lindenmayer.Proofs.Grammar
import Lindenmayer.Source.Expression

/-!
# Reading an expression, one step after the other

The reader of expressions is one function with an arm for each kind of token,
and it calls itself with what is left. `Step` is what one turn of it does, with
a constructor for each thing there is to do, and `Fails` is what can be wrong.
Where there is neither, the expression ends. So reading is a sequence of steps,
up to where the expression ends or to where the first thing is wrong
(`read_cases`); and what a step keeps, reading keeps.

A closing parenthesis, an operator and the end each apply operators that wait, and
they differ in where they stop. `Applies` is what they have in common; what one
operator keeps that is applied to two values is kept by all three.

In the other direction, `read_of_steps` follows the steps. A fact about two
readings, of tokens that stand elsewhere or have something else behind them, is
one about the steps of the one being steps of the other.
-/

namespace Lindenmayer

/-! ## Strings and signs -/

theorem readString_of_body {opening closing : Token} {body rest : List Token}
    (hbody : ∀ t ∈ body, ¬ t.closes opening) (hclose : closing.closes opening) :
    readString opening.text (body ++ closing :: rest) =
      some (stringContent body, closing, rest) := by
  induction body with
  | nil =>
      have hclose : closing.kind = .quote ∧ closing.text = opening.text := hclose
      rw [List.nil_append, readString, if_pos hclose, stringContent]
  | cons t body ih =>
      have hopen : ¬ (t.kind = .quote ∧ t.text = opening.text) := hbody t List.mem_cons_self
      have hrest := ih fun u hu => hbody u (List.mem_cons_of_mem t hu)
      rw [List.cons_append, readString, if_neg hopen, hrest, stringContent]
      rfl

theorem readString_eq_none {quote : String} {ts : List Token}
    (h : ∀ t ∈ ts, ¬ (t.kind = .quote ∧ t.text = quote)) : readString quote ts = none := by
  induction ts with
  | nil => rfl
  | cons t ts ih =>
      rw [readString, if_neg (h t List.mem_cons_self),
        ih fun u hu => h u (List.mem_cons_of_mem t hu)]
      rfl

/-- What is read as a string is a body up to the quote that closes it. -/
theorem body_of_readString {opening closing : Token} {ts rest : List Token} {content : String}
    (h : readString opening.text ts = some (content, closing, rest)) :
    ∃ body, ts = body ++ closing :: rest ∧ content = stringContent body ∧
      (∀ t ∈ body, ¬ t.closes opening) ∧ closing.closes opening := by
  induction ts generalizing content closing rest with
  | nil => cases h
  | cons t ts ih =>
      rw [readString] at h
      split at h
      · next hcloses =>
          cases h
          exact ⟨[], rfl, rfl, fun u hu => absurd hu List.not_mem_nil, hcloses⟩
      · next hcloses =>
          obtain ⟨⟨content', closing', rest'⟩, hread, heq⟩ := Option.map_eq_some_iff.1 h
          obtain ⟨body, rfl, rfl, hbody, hclose⟩ := ih hread
          cases heq
          refine ⟨t :: body, rfl, rfl, fun u hu => ?_, hclose⟩
          rcases List.mem_cons.1 hu with rfl | hu
          · exact hcloses
          · exact hbody u hu

theorem Operator.eq_symbol_of_ofSymbol? {s : String} {o : Operator} (h : ofSymbol? s = some o) :
    s = o.symbol := by
  unfold ofSymbol? at h
  split at h
  all_goals cases h
  all_goals rfl

/-- Whether an expression has a use for tokens of a kind, if only to end there. -/
def TokenKind.isOfExpression : TokenKind → Bool
  | whitespace | lineEnd | curlyClose | identifier | number | quote => true
  | parensOpen | parensClose | operator => true
  | _ => false

namespace ShuntingYard

/-! ## Operators that are applied -/

variable {p q : Operator → Prop} {ops ops' : List (Operator × Region)} {vals vals' : List Expr}

theorem ne_parens_of_yields {top next : Operator} (h : yields top next = true) :
    top ≠ .parens := by
  rintro rfl
  cases h

/-- What the two stacks come to when operators of which `p` holds are applied, each
time the one on top. -/
inductive Applies (p : Operator → Prop) : List (Operator × Region) → List Expr →
    List (Operator × Region) → List Expr → Prop where
  | done {ops : List (Operator × Region)} {vals : List Expr} : Applies p ops vals ops vals
  | apply {top : Operator} {place : Region} {ops ops' : List (Operator × Region)}
      {vals applied vals' : List Expr} (htop : p top) (happly : apply top place vals = .ok applied)
      (more : Applies p ops applied ops' vals') : Applies p ((top, place) :: ops) vals ops' vals'

theorem Applies.imp (hpq : ∀ o, p o → q o) (h : Applies p ops vals ops' vals') :
    Applies q ops vals ops' vals' := by
  induction h with
  | done => exact .done
  | apply htop happly _ ih => exact .apply (hpq _ htop) happly ih

theorem Applies.ne_parens {next : Operator}
    (h : Applies (yields · next = true) ops vals ops' vals') :
    Applies (· ≠ .parens) ops vals ops' vals' :=
  h.imp fun _ => ne_parens_of_yields

theorem applies_of_applyTighter {next : Operator}
    (h : applyTighter next ops vals = .ok (ops', vals')) :
    Applies (yields · next = true) ops vals ops' vals' ∧
      ∀ op ∈ ops'.head?, ¬ yields op.1 next = true := by
  induction ops generalizing vals with
  | nil =>
      cases h
      exact ⟨.done, nofun⟩
  | cons op ops ih =>
      obtain ⟨top, place⟩ := op
      rw [applyTighter] at h
      split at h
      · next hyields =>
          split at h
          · next happly =>
              obtain ⟨happlies, hstays⟩ := ih h
              exact ⟨.apply hyields happly happlies, hstays⟩
          · cases h
      · next hyields =>
          cases h
          refine ⟨.done, fun op hop => ?_⟩
          rw [← Option.some.inj hop]
          exact hyields

theorem applies_of_closeParens {close : Region}
    (h : closeParens close ops vals = .ok (ops', vals')) :
    ∃ place, Applies (· ≠ .parens) ops vals ((.parens, place) :: ops') vals' := by
  induction ops generalizing vals with
  | nil => cases h
  | cons op ops ih =>
      obtain ⟨top, place⟩ := op
      rw [closeParens] at h
      split at h
      · next htop =>
          cases h
          rw [htop]
          exact ⟨place, .done⟩
      · next htop =>
          split at h
          · next happly =>
              obtain ⟨opening, happlies⟩ := ih h
              exact ⟨opening, .apply htop happly happlies⟩
          · cases h

theorem applies_of_applyAll (h : applyAll ops vals = .ok vals') :
    Applies (· ≠ .parens) ops vals [] vals' := by
  induction ops generalizing vals with
  | nil =>
      cases h
      exact .done
  | cons op ops ih =>
      obtain ⟨top, place⟩ := op
      rw [applyAll] at h
      split at h
      · cases h
      · next htop =>
          split at h
          · next happly => exact .apply htop happly (ih h)
          · cases h

/-! ## Steps -/

/-- What goes onto the stack of values for a token and those that follow it: a
tree, the region that was read for it, and what is left. -/
inductive Operand (t : Token) (ts : List Token) : Expr → Region → List Token → Prop where
  | identifier (hkind : t.kind = .identifier) :
      Operand t ts (.identifier t.text t.region) t.region ts
  | number {n : Number} (hkind : t.kind = .number)
      (hvalue : Number.ofLiteral? t.text = some n) :
      Operand t ts (.number n t.region) t.region ts
  | string {content : String} {close : Token} {rest : List Token} (hkind : t.kind = .quote)
      (hs : readString t.text ts = some (content, close, rest)) :
      Operand t ts (.string content (t.region.merge close.region))
        (t.region.merge close.region) rest

/-- One turn of the reader, from what is left and a yard to what is left then
and the next yard. -/
inductive Step : List Token → ShuntingYard → List Token → ShuntingYard → Prop where
  | blank {t : Token} {ts : List Token} {y : ShuntingYard} (hkind : t.kind = .whitespace) :
      Step (t :: ts) y ts y
  | operand {t : Token} {ts rest : List Token} {y : ShuntingYard} {e : Expr} {region : Region}
      (he : Operand t ts e region rest) : Step (t :: ts) y rest (y.push e region)
  | parensOpen {t : Token} {ts : List Token} {y : ShuntingYard} (hkind : t.kind = .parensOpen) :
      Step (t :: ts) y ts
        ({ y with operators := (.parens, t.region) :: y.operators }.cover t.region)
  | parensClose {t : Token} {ts : List Token} {y : ShuntingYard}
      {operators : List (Operator × Region)} {values : List Expr} (hkind : t.kind = .parensClose)
      (hclose : closeParens t.region y.operators y.values = .ok (operators, values)) :
      Step (t :: ts) y ts ({ y with operators, values }.cover t.region)
  | operator {t : Token} {ts : List Token} {y : ShuntingYard} {o : Operator}
      {operators : List (Operator × Region)} {values : List Expr} (hsign : t.isSign o)
      (hyield : applyTighter o y.operators y.values = .ok (operators, values)) :
      Step (t :: ts) y ts
        ({ y with operators := (o, t.region) :: operators, values }.cover t.region)

/-- What can be wrong at the next token, in a source of `stop` bytes. -/
inductive Fails (stop : Nat) : List Token → ShuntingYard → SyntaxError → Prop where
  | number {t : Token} {ts : List Token} {y : ShuntingYard} (hkind : t.kind = .number)
      (hvalue : Number.ofLiteral? t.text = none) :
      Fails stop (t :: ts) y (.illegalNumber t.text t.region)
  | string {t : Token} {ts : List Token} {y : ShuntingYard} (hkind : t.kind = .quote)
      (hs : readString t.text ts = none) : Fails stop (t :: ts) y (.prematureEnd stop)
  | parensClose {t : Token} {ts : List Token} {y : ShuntingYard} {e : SyntaxError}
      (hkind : t.kind = .parensClose)
      (hclose : closeParens t.region y.operators y.values = .error e) : Fails stop (t :: ts) y e
  | unknown {t : Token} {ts : List Token} {y : ShuntingYard} (hkind : t.kind = .operator)
      (hnone : Operator.ofSymbol? t.text = none) :
      Fails stop (t :: ts) y (.malformed (.unknownOperator t.text) t.region)
  | operator {t : Token} {ts : List Token} {y : ShuntingYard} {o : Operator} {e : SyntaxError}
      (hsign : t.isSign o) (hyield : applyTighter o y.operators y.values = .error e) :
      Fails stop (t :: ts) y e
  | unexpected {t : Token} {ts : List Token} {y : ShuntingYard}
      (hkind : t.kind.isOfExpression = false) :
      Fails stop (t :: ts) y (.malformed (.unexpected t.kind t.text) t.region)

/-- Any number of turns. -/
inductive Steps : List Token → ShuntingYard → List Token → ShuntingYard → Prop where
  | refl {ts : List Token} {y : ShuntingYard} : Steps ts y ts y
  | head {ts us vs : List Token} {y z w : ShuntingYard} (h : Step ts y us z)
      (hs : Steps us z vs w) : Steps ts y vs w

variable {stop : Nat} {t : Token} {ts us rest : List Token} {y z : ShuntingYard} {e : Expr}
  {region : Region}

/-- The tokens that are taken for an operand are one of the grammar. -/
theorem Operand.derives (h : Operand t ts e region rest) :
    ∃ us, t :: ts = us ++ rest ∧ Derives .factor us e := by
  cases h with
  | identifier hkind => exact ⟨[t], rfl, .identifier hkind⟩
  | number hkind hvalue => exact ⟨[t], rfl, .number hkind hvalue⟩
  | @string _ close _ hkind hs =>
      obtain ⟨body, rfl, rfl, hbody, hclose⟩ := body_of_readString hs
      refine ⟨t :: (body ++ [close]), ?_, .string hkind hbody hclose⟩
      rw [List.cons_append, List.append_assoc, List.singleton_append]

theorem Operand.suffix (h : Operand t ts e region rest) : rest <:+ ts := by
  cases h with
  | identifier | number => exact List.suffix_refl ts
  | @string _ close _ _ hs =>
      obtain ⟨body, rfl, _⟩ := body_of_readString hs
      exact (List.suffix_cons close rest).trans (List.suffix_append body _)

theorem Operand.isBlank_eq (h : Operand t ts e region rest) : t.isBlank = false := by
  cases h with
  | identifier hkind | number hkind | string hkind =>
      rw [Token.isBlank, hkind]
      rfl

theorem Step.suffix (h : Step ts y us z) : us <:+ ts := by
  cases h with
  | blank | parensOpen | parensClose | operator => exact List.suffix_cons _ _
  | operand he => exact he.suffix.trans (List.suffix_cons _ _)

/-! ## Following the steps -/

theorem read_of_operand (h : Operand t ts e region rest) :
    read stop (t :: ts) y = read stop rest (y.push e region) := by
  cases h with
  | identifier hkind => rw [read, hkind]
  | number hkind hvalue =>
      rw [read, hkind]
      simp only [hvalue]
  | string hkind hs =>
      rw [read, hkind]
      dsimp only
      split
      · next hs' =>
          rw [hs] at hs'
          cases hs'
          rfl
      · next hs' =>
          rw [hs] at hs'
          cases hs'

theorem read_of_step (h : Step ts y us z) : read stop ts y = read stop us z := by
  cases h with
  | blank hkind => rw [read, hkind]
  | operand he => exact read_of_operand he
  | parensOpen hkind => rw [read, hkind]
  | parensClose hkind hclose =>
      rw [read, hkind]
      simp only [hclose]
  | operator hsign hyield =>
      obtain ⟨hkind, htext⟩ := hsign
      rw [read, hkind]
      simp only [htext, Operator.ofSymbol?_symbol, hyield]

theorem read_of_steps (h : Steps ts y us z) : read stop ts y = read stop us z := by
  induction h with
  | refl => rfl
  | head hstep _ ih => exact (read_of_step hstep).trans ih

theorem read_end (h : EndsExpression ts) : read stop ts y = .ok (y, ts) := by
  cases ts with
  | nil => rw [read]
  | cons t ts =>
      rcases h with h | h
      · rw [read, h]
      · rw [read, h]

theorem read_of_fails {e : SyntaxError} (h : Fails stop ts y e) : read stop ts y = .error e := by
  cases h with
  | number hkind hvalue =>
      rw [read, hkind]
      simp only [hvalue]
  | string hkind hs =>
      rw [read, hkind]
      dsimp only
      split
      · next hs' =>
          rw [hs] at hs'
          cases hs'
      · rfl
  | parensClose hkind hclose =>
      rw [read, hkind]
      simp only [hclose]
  | unknown hkind hnone =>
      rw [read, hkind]
      simp only [hnone]
  | operator hsign hyield =>
      obtain ⟨hkind, htext⟩ := hsign
      rw [read, hkind]
      simp only [htext, Operator.ofSymbol?_symbol, hyield]
  | @unexpected t _ _ hkind =>
      rw [read]
      cases h : t.kind with
      | colon | assignment | curlyOpen | arrow | dot | unparsed => rfl
      | ruleWord | mapWord | setWord => rfl
      | _ =>
          rw [h] at hkind
          cases hkind

/-! ## Every reading is one -/

/-- At each token there is something to do, something wrong, or an end. -/
theorem step_or_ends (stop : Nat) (ts : List Token) (y : ShuntingYard) :
    (∃ us z, Step ts y us z) ∨ EndsExpression ts ∨ ∃ e, Fails stop ts y e := by
  cases ts with
  | nil => exact .inr (.inl trivial)
  | cons t ts =>
    cases hkind : t.kind with
    | whitespace => exact .inl ⟨_, _, .blank hkind⟩
    | lineEnd => exact .inr (.inl (.inl hkind))
    | curlyClose => exact .inr (.inl (.inr hkind))
    | identifier => exact .inl ⟨_, _, .operand (.identifier hkind)⟩
    | number =>
        cases hvalue : Number.ofLiteral? t.text with
        | some n => exact .inl ⟨_, _, .operand (.number hkind hvalue)⟩
        | none => exact .inr (.inr ⟨_, .number hkind hvalue⟩)
    | quote =>
        cases hs : readString t.text ts with
        | some r => exact .inl ⟨_, _, .operand (.string hkind hs)⟩
        | none => exact .inr (.inr ⟨_, .string hkind hs⟩)
    | parensOpen => exact .inl ⟨_, _, .parensOpen hkind⟩
    | parensClose =>
        cases hclose : closeParens t.region y.operators y.values with
        | ok r => exact .inl ⟨_, _, .parensClose hkind hclose⟩
        | error e => exact .inr (.inr ⟨e, .parensClose hkind hclose⟩)
    | operator =>
      cases ho : Operator.ofSymbol? t.text with
      | none => exact .inr (.inr ⟨_, .unknown hkind ho⟩)
      | some o =>
        have hsign : t.isSign o := ⟨hkind, Operator.eq_symbol_of_ofSymbol? ho⟩
        cases hyield : applyTighter o y.operators y.values with
        | ok r => exact .inl ⟨_, _, .operator hsign hyield⟩
        | error e => exact .inr (.inr ⟨e, .operator hsign hyield⟩)
    | _ => exact .inr (.inr ⟨_, .unexpected (by rw [hkind]; rfl)⟩)

theorem Step.length_lt (h : Step ts y us z) : us.length < ts.length := by
  cases h with
  | blank | parensOpen | parensClose | operator => exact Nat.lt_succ_self _
  | operand he => exact Nat.lt_succ_of_le he.suffix.length_le

theorem exists_steps (stop : Nat) (ts : List Token) (y : ShuntingYard) :
    ∃ us z, Steps ts y us z ∧ (EndsExpression us ∨ ∃ e, Fails stop us z e) := by
  rcases step_or_ends stop ts y with ⟨us, z, hstep⟩ | hend
  · have hlt := hstep.length_lt
    obtain ⟨vs, w, hsteps, hend⟩ := exists_steps stop us z
    exact ⟨vs, w, .head hstep hsteps, hend⟩
  · exact ⟨ts, y, .refl, hend⟩
termination_by ts.length

/-- To read is to take steps, up to an end or to what is wrong. -/
theorem read_cases (stop : Nat) (ts : List Token) (y : ShuntingYard) :
    ∃ us z, Steps ts y us z ∧ ((EndsExpression us ∧ read stop ts y = .ok (z, us)) ∨
      ∃ e, Fails stop us z e ∧ read stop ts y = .error e) := by
  obtain ⟨us, z, hsteps, hend | ⟨e, hfails⟩⟩ := exists_steps stop ts y
  · exact ⟨us, z, hsteps, .inl ⟨hend, (read_of_steps hsteps).trans (read_end hend)⟩⟩
  · exact ⟨us, z, hsteps, .inr ⟨e, hfails, (read_of_steps hsteps).trans (read_of_fails hfails)⟩⟩

/-- What was read was read in steps, up to where the expression ends. -/
theorem steps_of_read (h : read stop ts y = .ok (z, rest)) :
    Steps ts y rest z ∧ EndsExpression rest := by
  obtain ⟨us, w, hsteps, ⟨hend, hread⟩ | ⟨e, _, hread⟩⟩ := read_cases stop ts y
  · rw [hread] at h
    cases h
    exact ⟨hsteps, hend⟩
  · rw [hread] at h
    cases h

end ShuntingYard

end Lindenmayer
