import Lindenmayer.Proofs.Lexemes
import Lindenmayer.Proofs.ShuntingYard

/-!
# What is accepted as an expression

The reader keeps two stacks and no record of whether an operand or an operator
is due. An operand too few shows when an operator is applied, and an operand
too many when the values are counted at the end; but the two faults make up for
each other, and `1 2 +` is read as a sum. So not everything that is read is an
expression of the grammar. What is missing is a look at operands that directly
follow each other, and nothing else is missing: this is
`derives_iff_operandsApart`.

Two things carry the proof. `Due` and `Ended` say what the tokens read so far
amount to where an operand is due and where one has just ended: a derivation
for each value on the stack, and a derivation cut short for each operator. And
`balance` counts the values that the operators on the stack are going to leave.
Where operands stand apart it is never above what it is in an expression, and
an operator or a closing parenthesis out of place leaves it below for good
(`balance_lt_of_behind`), so that no value is left at the end.
-/

namespace Lindenmayer

variable {stop : Nat} {ts rest : List Token}

/-- Whether no operand directly follows another, in the tokens of an
expression. `ended` says whether an operand has just ended. -/
def operandsApart (ended : Bool) (ts : List Token) : Bool :=
  match ts with
  | [] => true
  | t :: ts =>
    match t.kind with
    | .whitespace => operandsApart ended ts
    | .lineEnd => true
    | .curlyClose => true
    | .identifier => !ended && operandsApart true ts
    | .number => !ended && operandsApart true ts
    | .quote =>
      !ended && match h : readString t.text ts with
        | some (_, _, rest) =>
          have := length_readString h
          operandsApart true rest
        | none => true
    | .parensOpen => !ended && operandsApart false ts
    | .parensClose => operandsApart true ts
    | .operator => operandsApart false ts
    | _ => true
termination_by ts.length

/-! ## One token at a time -/

section Step

variable {ended : Bool} {t : Token}

theorem operandsApart_blank (h : t.kind = .whitespace) :
    operandsApart ended (t :: ts) = operandsApart ended ts := by
  rw [operandsApart, h]

theorem operandsApart_end (h : EndsExpression rest) : operandsApart ended rest = true := by
  cases rest with
  | nil => rw [operandsApart]
  | cons t rest =>
      rcases h with h | h
      · rw [operandsApart, h]
      · rw [operandsApart, h]

theorem operandsApart_literal (h : t.kind = .identifier ∨ t.kind = .number) :
    operandsApart ended (t :: ts) = (!ended && operandsApart true ts) := by
  rcases h with h | h
  · rw [operandsApart, h]
  · rw [operandsApart, h]

theorem operandsApart_string {content : String} {closing : Token} (h : t.kind = .quote)
    (hs : readString t.text ts = some (content, closing, rest)) :
    operandsApart ended (t :: ts) = (!ended && operandsApart true rest) := by
  rw [operandsApart, h]
  dsimp only
  split
  · next hs' =>
      rw [hs] at hs'
      cases hs'
      rfl
  · next hs' =>
      rw [hs] at hs'
      cases hs'

theorem operandsApart_parensOpen (h : t.kind = .parensOpen) :
    operandsApart ended (t :: ts) = (!ended && operandsApart false ts) := by
  rw [operandsApart, h]

theorem operandsApart_parensClose (h : t.kind = .parensClose) :
    operandsApart ended (t :: ts) = operandsApart true ts := by
  rw [operandsApart, h]

theorem operandsApart_operator (h : t.kind = .operator) :
    operandsApart ended (t :: ts) = operandsApart false ts := by
  rw [operandsApart, h]

end Step

/-- Within an expression operands stand apart. It must not follow an operand
itself, and after it one has just ended. -/
theorem operandsApart_of_derives {level : Level} {e : Expr} (h : Derives level ts e) :
    ∀ ended rest, operandsApart ended (ts ++ rest) = (!ended && operandsApart true rest) := by
  induction h with
  | number hkind _ => exact fun _ _ => operandsApart_literal (.inr hkind)
  | identifier hkind => exact fun _ _ => operandsApart_literal (.inl hkind)
  | @string opening closing body hopen hbody hclose =>
      intro ended rest
      have hs : readString opening.text (body ++ [closing] ++ rest) =
          some (stringContent body, closing, rest) := by
        rw [List.append_assoc]
        exact readString_of_body hbody hclose
      exact operandsApart_string hopen hs
  | @parens opening closing ts e hopen _ hclose ih =>
      intro ended rest
      have hinner : operandsApart false (ts ++ [closing] ++ rest) = operandsApart true rest := by
        rw [List.append_assoc, ih]
        exact operandsApart_parensClose hclose
      exact (operandsApart_parensOpen hopen).trans (congrArg (!ended && ·) hinner)
  | ofFactor _ ih => exact ih
  | ofTerm _ ih => exact ih
  | product _ _ hsign _ ihl ihr =>
      intro ended rest
      rw [List.append_assoc, ihl, List.cons_append, operandsApart_operator hsign.1, ihr]
      rfl
  | sum _ _ hsign _ ihl ihr =>
      intro ended rest
      rw [List.append_assoc, ihl, List.cons_append, operandsApart_operator hsign.1, ihr]
      rfl
  | blankBefore hkind _ ih =>
      intro ended rest
      rw [List.cons_append, operandsApart_blank hkind, ih]
  | blankAfter _ hkind ih =>
      intro ended rest
      rw [List.append_assoc, ih, List.singleton_append, operandsApart_blank hkind]

namespace ShuntingYard

variable {ops ops' : List (Operator × Region)} {vals vals' : List Expr}

/-! ## Counting values -/

/-- The number of values once all operators on the stack are applied. -/
def balance (ops : List (Operator × Region)) (vals : List Expr) : Int :=
  vals.length - ops.countP fun op => op.1 != .parens

theorem balance_parens (place : Region) :
    balance ((.parens, place) :: ops) vals = balance ops vals := by
  rw [balance, balance, List.countP_cons_of_neg (by simp)]

theorem balance_cons {o : Operator} (ho : o ≠ .parens) (place : Region) :
    balance ((o, place) :: ops) vals = balance ops vals - 1 := by
  rw [balance, balance, List.countP_cons_of_pos (by simpa using ho)]
  omega

theorem balance_value (e : Expr) : balance ops (e :: vals) = balance ops vals + 1 := by
  rw [balance, balance, List.length_cons]
  omega

/-- An operator is paid for with the value that it takes away. -/
theorem balance_apply {o : Operator} {place : Region} (ho : o ≠ .parens)
    (h : apply o place vals = .ok vals') :
    balance ops vals' = balance ((o, place) :: ops) vals := by
  rw [balance_cons ho]
  unfold apply at h
  split at h
  · cases h
    rw [balance_value, balance_value, balance_value]
    omega
  · cases h

theorem balance_applies (h : Applies (· ≠ .parens) ops vals ops' vals') :
    balance ops' vals' = balance ops vals := by
  induction h with
  | done => rfl
  | apply htop happly _ ih => exact ih.trans (balance_apply htop happly)

theorem balance_applyTighter {next : Operator}
    (h : applyTighter next ops vals = .ok (ops', vals')) :
    balance ops' vals' = balance ops vals :=
  balance_applies (applies_of_applyTighter h).1.ne_parens

theorem balance_closeParens {close : Region}
    (h : closeParens close ops vals = .ok (ops', vals')) :
    balance ops' vals' = balance ops vals := by
  obtain ⟨place, happlies⟩ := applies_of_closeParens h
  rw [← balance_applies happlies, balance_parens]

theorem balance_applyAll (h : applyAll ops vals = .ok vals') :
    (vals'.length : Int) = balance ops vals := by
  rw [← balance_applies (applies_of_applyAll h), balance, List.countP_nil]
  omega

/-- A parenthesis is no operator of a text, though it waits among them. -/
theorem ne_parens_of_isSign {t : Token} {o : Operator} (ht : t.Lexical) (h : t.isSign o) :
    o ≠ .parens := by
  rintro rfl
  obtain ⟨hkind, htext⟩ := h
  have hlexeme : Token.IsLexeme t.kind t.text.toList := ht
  have hmem : '(' ∈ t.text.toList := by
    rw [htext]
    exact List.mem_cons_self
  obtain ⟨hopen, _⟩ := hlexeme.of_isDelimiter hmem (by decide) (by decide) (by decide)
  rw [hkind] at hopen
  exact absurd hopen (by decide)

/-- The balance of an expression under way, where an operand has just ended and
where one is due. -/
def parity (ended : Bool) : Int := if ended then 1 else 0

/-! ## What was taken -/

/-- Tokens of an expression, one operand, parenthesis or operator after the
other, that lead from two stacks to those of `final`. -/
inductive Takes (final : ShuntingYard) :
    List Token → List (Operator × Region) → List Expr → Prop where
  | done : Takes final [] final.operators final.values
  | blank {t : Token} {ts : List Token} {ops : List (Operator × Region)} {vals : List Expr}
      (hkind : t.kind = .whitespace) (h : Takes final ts ops vals) : Takes final (t :: ts) ops vals
  | operand {us ts : List Token} {e : Expr} {ops : List (Operator × Region)} {vals : List Expr}
      (he : Derives .factor us e) (h : Takes final ts ops (e :: vals)) :
      Takes final (us ++ ts) ops vals
  | parensOpen {t : Token} {ts : List Token} {ops : List (Operator × Region)} {vals : List Expr}
      (hkind : t.kind = .parensOpen) (h : Takes final ts ((.parens, t.region) :: ops) vals) :
      Takes final (t :: ts) ops vals
  | parensClose {t : Token} {ts : List Token} {ops ops' : List (Operator × Region)}
      {vals vals' : List Expr} (hkind : t.kind = .parensClose)
      (hclose : closeParens t.region ops vals = .ok (ops', vals')) (h : Takes final ts ops' vals') :
      Takes final (t :: ts) ops vals
  | operator {t : Token} {ts : List Token} {o : Operator} {ops ops' : List (Operator × Region)}
      {vals vals' : List Expr} (ho : o ≠ .parens) (hsign : t.isSign o)
      (hyield : applyTighter o ops vals = .ok (ops', vals'))
      (h : Takes final ts ((o, t.region) :: ops') vals') : Takes final (t :: ts) ops vals

/-- Every step of reading takes something in, up to where the expression
ends. -/
theorem takes_of_steps {y final : ShuntingYard} (hts : ∀ t ∈ ts, t.Lexical)
    (h : Steps ts y rest final) :
    ∃ taken, ts = taken ++ rest ∧ Takes final taken y.operators y.values := by
  induction h with
  | refl => exact ⟨[], rfl, .done⟩
  | head hstep _ ih =>
      obtain ⟨taken, rfl, htakes⟩ := ih fun u hu => hts u (hstep.suffix.mem hu)
      cases hstep with
      | blank hkind => exact ⟨_ :: taken, rfl, .blank hkind htakes⟩
      | operand he =>
          obtain ⟨us, hsplit, hd⟩ := he.derives
          exact ⟨us ++ taken, by rw [hsplit, List.append_assoc], .operand hd htakes⟩
      | parensOpen hkind => exact ⟨_ :: taken, rfl, .parensOpen hkind htakes⟩
      | parensClose hkind hclose => exact ⟨_ :: taken, rfl, .parensClose hkind hclose htakes⟩
      | operator hsign hyield =>
          have hne := ne_parens_of_isSign (hts _ List.mem_cons_self) hsign
          exact ⟨_ :: taken, rfl, .operator hne hsign hyield htakes⟩

theorem takes_of_read {y final : ShuntingYard} (hts : ∀ t ∈ ts, t.Lexical)
    (h : read stop ts y = .ok (final, rest)) :
    ∃ taken, ts = taken ++ rest ∧ EndsExpression rest ∧
      Takes final taken y.operators y.values := by
  obtain ⟨hsteps, hend⟩ := steps_of_read h
  obtain ⟨taken, hsplit, htakes⟩ := takes_of_steps hts hsteps
  exact ⟨taken, hsplit, hend, htakes⟩

/-- Reading that is behind stays behind, and ends without a value. -/
theorem balance_lt_of_behind {final : ShuntingYard} {ended : Bool}
    (h : Takes final ts ops vals) (hapart : operandsApart ended (ts ++ rest) = true)
    (hbehind : balance ops vals < parity ended) : balance final.operators final.values < 1 := by
  induction h generalizing ended with
  | done =>
      have hle : parity ended ≤ 1 := by cases ended <;> decide
      omega
  | blank hkind _ ih =>
      rw [List.cons_append, operandsApart_blank hkind] at hapart
      exact ih hapart hbehind
  | operand he _ ih =>
      rw [List.append_assoc, operandsApart_of_derives he, Bool.and_eq_true] at hapart
      obtain ⟨hdue, hapart⟩ := hapart
      cases ended with
      | true => cases hdue
      | false =>
          refine ih hapart ?_
          rw [balance_value]
          change _ < (1 : Int)
          change _ < (0 : Int) at hbehind
          omega
  | @parensOpen t ts ops vals hkind _ ih =>
      rw [List.cons_append, operandsApart_parensOpen hkind, Bool.and_eq_true] at hapart
      obtain ⟨hdue, hapart⟩ := hapart
      cases ended with
      | true => cases hdue
      | false => exact ih hapart (by rw [balance_parens]; exact hbehind)
  | parensClose hkind hclose _ ih =>
      rw [List.cons_append, operandsApart_parensClose hkind] at hapart
      refine ih hapart ?_
      rw [balance_closeParens hclose]
      cases ended with
      | true => exact hbehind
      | false => exact Int.lt_trans hbehind (by decide)
  | operator ho hsign hyield _ ih =>
      rw [List.cons_append, operandsApart_operator hsign.1] at hapart
      refine ih hapart ?_
      rw [balance_cons ho, balance_applyTighter hyield]
      cases ended with
      | true =>
          change _ < (1 : Int) at hbehind
          change _ < (0 : Int)
          omega
      | false =>
          change _ < (0 : Int) at hbehind
          change _ < (0 : Int)
          omega

/-! ## What the stacks stand for -/

/-- Tokens up to where an operand is due, and the stacks that they lead to.
Every value on the stack derives from the tokens in front of its operator. -/
inductive Due : List Token → List (Operator × Region) → List Expr → Prop where
  | start {bs : List Token} (hbs : ∀ b ∈ bs, b.kind = .whitespace) : Due bs [] []
  | parens {ts bs : List Token} {t : Token} {ops : List (Operator × Region)} {vals : List Expr}
      (h : Due ts ops vals) (hkind : t.kind = .parensOpen) (hbs : ∀ b ∈ bs, b.kind = .whitespace) :
      Due (ts ++ t :: bs) ((.parens, t.region) :: ops) vals
  | operator {ts us bs : List Token} {t : Token} {o : Operator} {l : Expr}
      {ops : List (Operator × Region)} {vals : List Expr} (h : Due ts ops vals)
      (hl : Derives o.level us l) (ho : o ≠ .parens) (hwaits : Waits o.precedence ops)
      (hsign : t.isSign o) (hbs : ∀ b ∈ bs, b.kind = .whitespace) :
      Due (ts ++ (us ++ t :: bs)) ((o, t.region) :: ops) (l :: vals)

/-- Tokens up to where an operand of a level has just ended, and the stacks that
they lead to. No operator in front of the operand may take it yet. -/
inductive Ended (level : Level) :
    List Token → List (Operator × Region) → List Expr → Prop where
  | mk {ts us : List Token} {e : Expr} {ops : List (Operator × Region)} {vals : List Expr}
      (h : Due ts ops vals) (he : Derives level us e) (hwaits : Waits level.precedence ops) :
      Ended level (ts ++ us) ops (e :: vals)

theorem derives_of_blanks {level : Level} {bs us : List Token} {e : Expr}
    (hbs : ∀ b ∈ bs, b.kind = .whitespace) (h : Derives level us e) :
    Derives level (bs ++ us) e := by
  induction bs with
  | nil => exact h
  | cons b bs ih =>
      exact .blankBefore (hbs b List.mem_cons_self)
        (ih fun c hc => hbs c (List.mem_cons_of_mem b hc))

theorem precedence_level {o : Operator} (ho : o ≠ .parens) :
    o.level.precedence = o.precedence := by
  cases o with
  | parens => exact absurd rfl ho
  | add | subtract | multiply | divide => rfl

theorem le_of_yields {top next : Operator} (h : yields top next = true) :
    next.precedence ≤ top.precedence := by
  simp only [yields, Bool.and_eq_true, Bool.or_eq_true, decide_eq_true_eq, beq_iff_eq] at h
  omega

theorem waits_of_not_yields {top next : Operator} {place : Region} (hnext : next ≠ .parens)
    (h : ¬ yields top next = true) : Waits next.precedence ((top, place) :: ops) := by
  by_cases htop : top = .parens
  · exact .inl htop
  · exact .inr (Nat.lt_of_not_le fun hle => h (yields_of_le htop hnext hle))

/-- What an operator does not take stands at the level of its right operand. -/
theorem tighter_le_of_waits {o : Operator} {place : Region} {level : Level} (ho : o ≠ .parens)
    (h : Waits level.precedence ((o, place) :: ops)) :
    o.level.tighter.precedence ≤ level.precedence := by
  rcases h with hparens | hlt
  · exact absurd hparens ho
  · cases o with
    | parens => exact absurd rfl ho
    | add | subtract => exact hlt
    | multiply | divide => exact hlt

namespace Due

theorem balance_eq (h : Due ts ops vals) : balance ops vals = 0 := by
  induction h with
  | start => rfl
  | parens _ _ _ ih => rw [balance_parens, ih]
  | operator _ _ ho _ _ _ ih => rw [balance_cons ho, balance_value, ih]; rfl

theorem blank {t : Token} (h : Due ts ops vals) (hkind : t.kind = .whitespace) :
    Due (ts ++ [t]) ops vals := by
  have hmore : ∀ {bs : List Token}, (∀ b ∈ bs, b.kind = .whitespace) →
      ∀ b ∈ bs ++ [t], b.kind = .whitespace := by
    intro bs hbs b hb
    rcases List.mem_append.1 hb with hb | hb
    · exact hbs b hb
    · rw [List.mem_singleton.1 hb]
      exact hkind
  cases h with
  | start hbs => exact .start (hmore hbs)
  | parens h hopen hbs =>
      rw [List.append_assoc, List.cons_append]
      exact .parens h hopen (hmore hbs)
  | operator h hl ho hwaits hsign hbs =>
      rw [List.append_assoc, List.append_assoc, List.cons_append]
      exact .operator h hl ho hwaits hsign (hmore hbs)

end Due

namespace Ended

variable {level : Level}

theorem blank {t : Token} (h : Ended level ts ops vals) (hkind : t.kind = .whitespace) :
    Ended level (ts ++ [t]) ops vals := by
  cases h with
  | mk h he hwaits =>
      rw [List.append_assoc]
      exact .mk h (he.blankAfter hkind) hwaits

/-- An operator in front of the operand may be applied: the operation is the
operand then. -/
theorem apply {o : Operator} {place : Region} (ho : o ≠ .parens)
    (h : Ended level ts ((o, place) :: ops) vals)
    (happly : apply o place vals = .ok vals') : Ended o.level ts ops vals' := by
  cases h with
  | mk h he hwaits =>
      cases h with
      | parens => exact absurd rfl ho
      | @operator ts us bs t _ l _ vals h hl _ hfree hsign hbs =>
          cases happly
          have hr := derives_of_blanks hbs (he.weaken (tighter_le_of_waits ho hwaits))
          have hderives := Derives.operation ho hl hsign hr
          have hmk := Ended.mk h hderives (by rw [precedence_level ho]; exact hfree)
          rw [List.append_assoc, List.append_assoc, List.cons_append]
          exact hmk

/-- Operators that are applied leave one operand, an operation if there are any. -/
theorem applies {p : Operator → Prop} (hp : ∀ o, p o → o ≠ .parens)
    (happlies : Applies p ops vals ops' vals') (h : Ended level ts ops vals) :
    ∃ level', (level' = level ∨ ∃ o, p o ∧ level' = o.level) ∧ Ended level' ts ops' vals' := by
  induction happlies generalizing level with
  | done => exact ⟨level, .inl rfl, h⟩
  | @apply top _ _ _ _ _ _ htop happly _ ih =>
      obtain ⟨level', hlevel, hended⟩ := ih (h.apply (hp top htop) happly)
      exact ⟨level', .inr (hlevel.elim (fun h => ⟨top, htop, h⟩) id), hended⟩

/-- An operator that comes next finds an operand that it may take. -/
theorem applyTighter {next : Operator} (hnext : next ≠ .parens)
    (h : Ended level ts ops vals) (hle : next.precedence ≤ level.precedence)
    (hyield : applyTighter next ops vals = .ok (ops', vals')) :
    ∃ level', next.precedence ≤ level'.precedence ∧ Ended level' ts ops' vals' ∧
      Waits next.precedence ops' := by
  obtain ⟨happlies, hstays⟩ := applies_of_applyTighter hyield
  obtain ⟨level', hlevel, hended⟩ := h.applies (fun _ => ne_parens_of_yields) happlies
  refine ⟨level', ?_, hended, ?_⟩
  · rcases hlevel with rfl | ⟨o, hyields, rfl⟩
    · exact hle
    · rw [precedence_level (ne_parens_of_yields hyields)]
      exact le_of_yields hyields
  · cases ops' with
    | nil => trivial
    | cons op ops' => exact waits_of_not_yields hnext (hstays op rfl)

/-- Behind an operator an operand is due again. -/
theorem operator {t : Token} {o : Operator} (ho : o ≠ .parens) (hsign : t.isSign o)
    (h : Ended .factor ts ops vals)
    (hyield : ShuntingYard.applyTighter o ops vals = .ok (ops', vals')) :
    Due (ts ++ [t]) ((o, t.region) :: ops') vals' := by
  have hle : o.precedence ≤ Level.factor.precedence := by
    rw [← precedence_level ho]
    exact precedence_le_factor _
  obtain ⟨level, hlevel, hended, hwaits⟩ := h.applyTighter ho hle hyield
  cases hended with
  | mk h he _ =>
      rw [← precedence_level ho] at hlevel
      rw [List.append_assoc]
      exact .operator h (he.weaken hlevel) ho hwaits hsign fun b hb => absurd hb List.not_mem_nil

/-- A closing parenthesis makes an operand of what it closes. -/
theorem closeParens {t : Token} (hkind : t.kind = .parensClose) (h : Ended level ts ops vals)
    (hclose : closeParens t.region ops vals = .ok (ops', vals')) :
    Ended .factor (ts ++ [t]) ops' vals' := by
  obtain ⟨place, happlies⟩ := applies_of_closeParens hclose
  obtain ⟨level', _, hended⟩ := h.applies (fun _ => id) happlies
  cases hended with
  | mk h he hwaits =>
      cases h with
      | operator _ _ ho => exact absurd rfl ho
      | @parens ts bs opening _ _ h hopen hbs =>
          have hinner := derives_of_blanks hbs (he.weaken (sum_le_precedence level'))
          have hmk := Ended.mk h (.parens hopen hinner hkind) (waits_three _)
          simpa using hmk

/-- At the end there is one operand, of everything that was read. -/
theorem applyAll (h : Ended level ts ops vals) (hall : applyAll ops vals = .ok vals') :
    ∃ e, vals' = [e] ∧ Derives .sum ts e := by
  obtain ⟨level', _, hended⟩ := h.applies (fun _ => id) (applies_of_applyAll hall)
  cases hended with
  | mk h he hwaits =>
      cases h with
      | start hbs => exact ⟨_, rfl, derives_of_blanks hbs (he.weaken (sum_le_precedence level'))⟩

end Ended

/-! ## The whole expression -/

/-- Where reading stands between two tokens. -/
def Progress (ended : Bool) (ts : List Token) (ops : List (Operator × Region))
    (vals : List Expr) : Prop :=
  if ended then Ended .factor ts ops vals else Due ts ops vals

/-- Where operands stand apart, tokens that lead to a value are an operand. -/
theorem ended_of_takes {final : ShuntingYard} {ended : Bool} {before : List Token}
    (h : Takes final ts ops vals) (hapart : operandsApart ended (ts ++ rest) = true)
    (hfinal : balance final.operators final.values = 1)
    (hprogress : Progress ended before ops vals) :
    Ended .factor (before ++ ts) final.operators final.values := by
  induction h generalizing ended before with
  | done =>
      cases ended with
      | false =>
          have hzero := Due.balance_eq hprogress
          omega
      | true =>
          rw [List.append_nil]
          exact hprogress
  | @blank t ts ops vals hkind _ ih =>
      rw [List.cons_append, operandsApart_blank hkind] at hapart
      rw [List.append_cons]
      refine ih hapart ?_
      cases ended with
      | false => exact Due.blank hprogress hkind
      | true => exact Ended.blank hprogress hkind
  | @operand us ts e ops vals he _ ih =>
      rw [List.append_assoc, operandsApart_of_derives he, Bool.and_eq_true] at hapart
      obtain ⟨hdue, hapart⟩ := hapart
      rw [← List.append_assoc]
      cases ended with
      | false => exact ih hapart (.mk hprogress he (waits_three _))
      | true => cases hdue
  | @parensOpen t ts ops vals hkind _ ih =>
      rw [List.cons_append, operandsApart_parensOpen hkind, Bool.and_eq_true] at hapart
      obtain ⟨hdue, hapart⟩ := hapart
      rw [List.append_cons]
      cases ended with
      | false => exact ih hapart (.parens hprogress hkind fun b hb => absurd hb List.not_mem_nil)
      | true => cases hdue
  | @parensClose t ts ops ops' vals vals' hkind hclose htakes ih =>
      rw [List.cons_append, operandsApart_parensClose hkind] at hapart
      rw [List.append_cons]
      cases ended with
      | false =>
          -- Nothing is there to be closed.
          have hzero : balance ops' vals' = 0 := by
            rw [balance_closeParens hclose, Due.balance_eq hprogress]
          have hlt := balance_lt_of_behind htakes hapart (by rw [hzero]; decide)
          omega
      | true => exact ih hapart (Ended.closeParens hkind hprogress hclose)
  | @operator t ts o ops ops' vals vals' ho hsign hyield htakes ih =>
      rw [List.cons_append, operandsApart_operator hsign.1] at hapart
      rw [List.append_cons]
      cases ended with
      | false =>
          -- The operator has no operand on its left.
          have hzero : balance ((o, t.region) :: ops') vals' = -1 := by
            rw [balance_cons ho, balance_applyTighter hyield, Due.balance_eq hprogress]
            rfl
          have hlt := balance_lt_of_behind htakes hapart (by rw [hzero]; decide)
          omega
      | true => exact ih hapart (Ended.operator ho hsign hprogress hyield)

theorem applyAll_of_finish {y : ShuntingYard} {offset : Nat} {e : Expression}
    (h : y.finish offset = .ok e) : ShuntingYard.applyAll y.operators y.values = .ok [e.value] := by
  rw [finish] at h
  split at h
  · cases h
  · cases h
  · next hall =>
      cases h
      exact hall
  · cases h

end ShuntingYard

open ShuntingYard in
/-- Where operands stand apart, what is read is the tree of what was taken. -/
theorem derives_of_readExpression {e : Expression} (hts : ∀ t ∈ ts, t.Lexical)
    (h : readExpression stop ts = .ok (e, rest)) :
    EndsExpression rest ∧ (operandsApart false ts = true →
      ∃ taken, ts = taken ++ rest ∧ Derives .sum taken e.value) := by
  rw [readExpression] at h
  split at h
  · cases h
  · next y rest' hread =>
      split at h
      · cases h
      · next e' hfinish =>
          cases h
          have hall := applyAll_of_finish hfinish
          obtain ⟨taken, rfl, hend, htakes⟩ := takes_of_read hts hread
          refine ⟨hend, fun hapart => ⟨taken, rfl, ?_⟩⟩
          have hone : balance y.operators y.values = 1 := (balance_applyAll hall).symm
          have hdue : Progress false [] [] [] := Due.start fun b hb => absurd hb List.not_mem_nil
          have hended := ended_of_takes htakes hapart hone hdue
          obtain ⟨e', he, hderives⟩ := hended.applyAll hall
          cases he
          exact hderives

/-- What is read as an expression is one of the grammar just when its operands
stand apart, and then the tree is that of its derivation. -/
theorem derives_iff_operandsApart {e : Expression} (hts : ∀ t ∈ ts, t.Lexical)
    (h : readExpression stop ts = .ok (e, rest)) :
    EndsExpression rest ∧
    (operandsApart false ts = true ↔ ∃ taken tree, ts = taken ++ rest ∧ Derives .sum taken tree) ∧
    ∀ taken tree, ts = taken ++ rest → Derives .sum taken tree → tree = e.value := by
  obtain ⟨hend, hderives⟩ := derives_of_readExpression hts h
  refine ⟨hend, ⟨fun hapart => ?_, ?_⟩, ?_⟩
  · obtain ⟨taken, hsplit, hd⟩ := hderives hapart
    exact ⟨taken, e.value, hsplit, hd⟩
  · rintro ⟨taken, tree, rfl, hd⟩
    rw [operandsApart_of_derives hd, operandsApart_end hend]
    rfl
  · rintro taken tree rfl hd
    obtain ⟨region, hread⟩ : ∃ region,
        readExpression stop (taken ++ rest) = .ok (⟨tree, region⟩, rest) :=
      readExpression_eq hd hend
    rw [hread] at h
    cases h
    rfl

/-- In `(1 + x)` operands stand apart, and the parentheses leave no trace. -/
theorem derives_iff_operandsApart_parens :
    ∃ e rest, readExpression 8 (Token.scan "(1 + x)\n") = .ok (e, rest) ∧ EndsExpression rest ∧
      operandsApart false (Token.scan "(1 + x)\n") = true ∧
      ∃ taken, Token.scan "(1 + x)\n" = taken ++ rest ∧ Derives .sum taken e.value := by
  have hread : (readExpression 8 (Token.scan "(1 + x)\n")).toOption.isSome = true := by
    decide +kernel
  have hapart : operandsApart false (Token.scan "(1 + x)\n") = true := by decide +kernel
  cases h : readExpression 8 (Token.scan "(1 + x)\n") with
  | error e =>
      rw [h] at hread
      cases hread
  | ok r =>
      obtain ⟨e, rest⟩ := r
      obtain ⟨hend, hiff, htree⟩ :=
        derives_iff_operandsApart (fun t ht => Token.lexical_of_mem_scanFrom ht) h
      obtain ⟨taken, tree, hsplit, hd⟩ := hiff.1 hapart
      rw [htree taken tree hsplit hd] at hd
      exact ⟨e, rest, rfl, hend, hapart, taken, hsplit, hd⟩

/-- An operator behind its operands is read as if it stood between them. -/
theorem readExpression_postfix :
    readExpression 5 (Token.scan "1 2 +") =
      .ok (⟨.operation .add ⟨4, 1⟩ (.number (.integer 1) ⟨0, 1⟩) (.number (.integer 2) ⟨2, 1⟩),
        ⟨0, 5⟩⟩, []) ∧
    ¬ ∃ tree, Derives .sum (Token.scan "1 2 +") tree := by
  have hscan : Token.scan "1 2 +" =
      [⟨.number, "1", 0⟩, ⟨.whitespace, " ", 1⟩, ⟨.number, "2", 2⟩, ⟨.whitespace, " ", 3⟩,
        ⟨.operator, "+", 4⟩] := by decide +kernel
  have hone : Number.ofLiteral? "1" = some (.integer 1) := rfl
  have htwo : Number.ofLiteral? "2" = some (.integer 2) := rfl
  have hsteps : ShuntingYard.Steps (Token.scan "1 2 +") .empty []
      ⟨[.number (.integer 2) ⟨2, 1⟩, .number (.integer 1) ⟨0, 1⟩], [(.add, ⟨4, 1⟩)],
        some ⟨0, 5⟩⟩ := by
    rw [hscan]
    exact .head (.operand (.number rfl hone)) (.head (.blank rfl) (.head
      (.operand (.number rfl htwo)) (.head (.blank rfl) (.head
        (.operator (o := .add) ⟨rfl, rfl⟩ rfl) .refl))))
  constructor
  · rw [readExpression, ShuntingYard.read_of_steps hsteps, @ShuntingYard.read_end _ [] _ trivial]
    rfl
  · rintro ⟨tree, hd⟩
    have hapart := operandsApart_of_derives hd false []
    rw [List.append_nil, @operandsApart_end [] _ trivial] at hapart
    have hnot : operandsApart false (Token.scan "1 2 +") = false := by decide +kernel
    rw [hnot] at hapart
    cases hapart

end Lindenmayer
