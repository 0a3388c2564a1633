import Lindenmayer.Proofs.Operands
import Lindenmayer.Proofs.Places
import Mathlib.Logic.Relation

/-!
# How far reading gets

A reader is a function of what is left, and its answer says nothing about where it
has been. To speak of the places of a source that its readers get to, each call of one
by another is a step here (`Enters`): from a program to its next statement and to the
program behind it, from a block to its body, from a statement to the expression in
it, and within an expression from one token to the next, with what is on the two
stacks. `Meets` is a run of such steps from the start of a source to somewhere in an
expression.

What such a place is good for is that its fate is that of the source. An error that is
found there is what reading the source comes to, since every step hands errors on as
they are; and if the source can be read, what was on the stacks there is found again
in its statements (`Survives`), and so among the leaves of its tree. Nor does a program
have operands from elsewhere: each was put on the stack at such a place
(`exists_meets_of_mem_leavesAll`).
-/

namespace Lindenmayer

/-! ## Steps of readers -/

/-- A reader and what it has left. -/
inductive Reading where
  | program (s : TokenStream)
  | body (s : TokenStream)
  | statement (s : TokenStream)
  | operands (stop : Nat) (ts : List Token) (y : ShuntingYard)

/-- Whether a statement that starts with such a token is an expression. -/
def TokenKind.startsExpression : TokenKind → Bool
  | curlyOpen | curlyClose | ruleWord | setWord => false
  | _ => true

/-- Whether the one reader calls the other. -/
inductive Enters : Reading → Reading → Prop where
  | first {s : TokenStream} (hleft : s.atEnd.1 = false) : Enters (.program s) (.statement s)
  | more {s : TokenStream} {r : Statement.Taken s Statement} (hleft : s.atEnd.1 = false)
      (hread : Statement.read s = .ok r) : Enters (.program s) (.program r.1.2)
  | firstInside {s after : TokenStream} {t : Token} (hn : s.next = (.ok t, after))
      (hkind : t.kind ≠ .curlyClose) : Enters (.body s) (.statement s)
  | moreInside {s after : TokenStream} {t : Token} {r : Statement.Taken s Statement}
      (hn : s.next = (.ok t, after)) (hkind : t.kind ≠ .curlyClose)
      (hread : Statement.read s = .ok r) : Enters (.body s) (.body r.1.2)
  | block {s after : TokenStream} {t : Token} (hn : s.next = (.ok t, after))
      (hkind : t.kind = .curlyOpen) : Enters (.statement s) (.body after)
  | value {s after : TokenStream} {t : Token} (hn : s.next = (.ok t, after))
      (hkind : t.kind.startsExpression = true) :
      Enters (.statement s) (.operands s.settle.stop s.settle.rest .empty)
  | assigned {s s₁ s₂ s₃ : TokenStream} {set name equals : Token}
      (hset : Statement.expect .setWord s = .ok (set, s₁))
      (hname : Statement.expect .identifier s₁ = .ok (name, s₂))
      (hequals : Statement.expect .assignment s₂ = .ok (equals, s₃)) :
      Enters (.statement s) (.operands s₃.stop s₃.rest .empty)
  | step {stop : Nat} {ts us : List Token} {y z : ShuntingYard}
      (h : ShuntingYard.Step ts y us z) : Enters (.operands stop ts y) (.operands stop us z)

/-- Whether reading a source gets to these tokens in an expression, with this on the
stacks. -/
def Meets (source : String) (ts : List Token) (y : ShuntingYard) : Prop :=
  Relation.ReflTransGen Enters (.program (.ofSource source))
    (.operands source.utf8ByteSize ts y)

/-- A source that starts with an expression. -/
theorem meets_start {source : String}
    (h : (TokenStream.ofSource source).settle.rest.head?.any (fun t => t.kind.startsExpression) =
      true) : Meets source (TokenStream.ofSource source).settle.rest .empty := by
  cases hrest : (TokenStream.ofSource source).settle.rest with
  | nil =>
      rw [hrest] at h
      cases h
  | cons t rest =>
      rw [hrest] at h
      have hleft : (TokenStream.ofSource source).atEnd.1 = false := by
        rw [TokenStream.atEnd, hrest]
        rfl
      have henter := Enters.value (TokenStream.next_of_cons hrest) h
      rw [hrest] at henter
      exact .tail (.single (.first hleft)) henter

/-! ## Where readers are in a source -/

/-- Whether a reader has left the last tokens of a source. -/
def Reading.In (source : String) : Reading → Prop
  | .program s | .body s | .statement s => s.In source
  | .operands stop ts _ => ts <:+ Token.scan source ∧ stop = source.utf8ByteSize

section In

variable {source : String} {s s' : TokenStream} {a b : Reading}

theorem TokenStream.In.of_read {r : Statement.Taken s Statement} (h : s.In source)
    (hread : Statement.read s = .ok r) : r.1.2.In source := by
  have hreads := Statement.reads_read h
  rw [hread] at hreads
  exact hreads.1

theorem TokenStream.In.of_next {t : Token} (h : s.In source) (hn : s.next = (.ok t, s')) :
    s'.In source := by
  rcases h.next with ⟨_, herror⟩ | ⟨u, after, hnext, hafter, _⟩
  · rw [hn] at herror
    cases herror
  · rw [hn] at hnext
    cases hnext
    exact hafter

theorem TokenStream.In.of_expect {kind : TokenKind} {t : Token} (h : s.In source)
    (hexpect : Statement.expect kind s = .ok (t, s')) : s'.In source :=
  h.of_next (Statement.next_of_expect hexpect).1

/-- No step leaves the source. -/
theorem Enters.in (h : Enters a b) (ha : a.In source) : b.In source := by
  cases h with
  | first | firstInside => exact ha
  | more _ hread | moreInside _ _ hread => exact ha.of_read hread
  | block hn => exact ha.of_next hn
  | value => exact ⟨ha.settle.1.suffix, ha.settle.1.stop⟩
  | assigned hset hname hequals =>
      have hafter := ((TokenStream.In.of_expect ha hset).of_expect hname).of_expect hequals
      exact ⟨hafter.suffix, hafter.stop⟩
  | step h => exact ⟨h.suffix.trans ha.1, ha.2⟩

theorem in_of_steps (h : Relation.ReflTransGen Enters (.program (.ofSource source)) b) :
    b.In source := by
  induction h with
  | refl => exact TokenStream.in_ofSource source
  | tail _ hstep ih => exact hstep.in ih

theorem in_of_meets {ts : List Token} {y : ShuntingYard} (h : Meets source ts y) :
    (Reading.operands source.utf8ByteSize ts y).In source :=
  in_of_steps h

end In

/-! ## What becomes of a place -/

mutual

/-- The operands in a statement that are no operations, in order. -/
def Statement.leaves : Statement → List Expr
  | .assignment _ _ value => value.value.leaves
  | .rule _ _ _ _ => []
  | .block _ body => Statement.leavesAll body
  | .expression value => value.value.leaves

def Statement.leavesAll : List Statement → List Expr
  | [] => []
  | st :: more => st.leaves ++ Statement.leavesAll more

end

/-- What a reader comes to: an error, or operands in the order they stand in. -/
def Reading.outcome : Reading → Except SyntaxError (List Expr)
  | .program s => (Statement.readAll s).map Statement.leavesAll
  | .body s => (Statement.readBody s).map fun r => Statement.leavesAll r.1.1.1
  | .statement s => (Statement.read s).map fun r => r.1.1.leaves
  | .operands stop ts y =>
    (ShuntingYard.read stop ts y).map fun r => r.1.values.reverse.flatMap Expr.leaves

/-- Whether an error in a part is the error of the whole, and else all that was found in
the part is found in the whole if that has no error. -/
def Survives : Except SyntaxError (List Expr) → Except SyntaxError (List Expr) → Prop
  | .error e, whole => whole = .error e
  | .ok es, whole => ∀ fs, whole = .ok fs → es ⊆ fs

namespace Survives

variable {x y z : Except SyntaxError (List Expr)}

theorem refl (x : Except SyntaxError (List Expr)) : Survives x x := by
  cases x with
  | error e => rfl
  | ok es =>
      rintro fs ⟨⟩
      exact fun _ h => h

theorem trans (h : Survives x y) (h' : Survives y z) : Survives x z := by
  cases x with
  | error e =>
      obtain rfl : y = .error e := h
      exact h'
  | ok es =>
      cases y with
      | error e =>
          obtain rfl : z = .error e := h'
          exact fun fs hfs => nomatch hfs
      | ok fs =>
          have hsub : es ⊆ fs := h fs rfl
          exact fun gs hgs => List.Subset.trans hsub (h' gs hgs)

theorem of_map {α : Type} {part : Except SyntaxError α} {f : α → List Expr}
    (herror : ∀ e, part = .error e → z = .error e)
    (hok : ∀ a fs, part = .ok a → z = .ok fs → f a ⊆ fs) : Survives (part.map f) z := by
  cases part with
  | error e => exact herror e rfl
  | ok a => exact fun fs hfs => hok a fs rfl hfs

/-- What comes first, and then more. -/
def inTurn {α : Type} (part : Except SyntaxError α) (f : α → List Expr)
    (more : α → Except SyntaxError (List Expr)) : Except SyntaxError (List Expr) :=
  part.bind fun a => (more a).map (f a ++ ·)

theorem first {α : Type} (part : Except SyntaxError α) (f : α → List Expr)
    (more : α → Except SyntaxError (List Expr)) : Survives (part.map f) (inTurn part f more) := by
  cases part with
  | error e => rfl
  | ok a =>
      intro fs hfs
      rw [inTurn, Except.bind] at hfs
      cases hmore : more a with
      | error e =>
          rw [hmore] at hfs
          cases hfs
      | ok es =>
          rw [hmore] at hfs
          cases hfs
          exact List.subset_append_left _ _

theorem more {α : Type} {part : Except SyntaxError α} {a : α} (h : part = .ok a)
    (f : α → List Expr) (more : α → Except SyntaxError (List Expr)) :
    Survives (more a) (inTurn part f more) := by
  rw [h, inTurn, Except.bind]
  cases more a with
  | error e => rfl
  | ok es =>
      rintro fs ⟨⟩
      exact List.subset_append_right _ _

end Survives

/-- An expression has the leaves of the values that it was made of. -/
theorem ShuntingYard.leaves_of_finish {y : ShuntingYard} {offset : Nat} {e : Expression}
    (h : y.finish offset = .ok e) : e.value.leaves = y.values.reverse.flatMap Expr.leaves := by
  have hholds : Holds y.operators y.values _ _ := ⟨rfl, .refl _⟩
  have hall := (hholds.applyAll (applyAll_of_finish h)).leaves
  rwa [List.reverse_singleton, List.flatMap_singleton] at hall

namespace Statement

variable {s : TokenStream}

theorem outcome_program (h : s.atEnd.1 = false) : (Reading.program s).outcome =
    Survives.inTurn (read s) (fun r => r.1.1.leaves) fun r => (Reading.program r.1.2).outcome := by
  rw [Reading.outcome, readAll, if_neg (by rw [h]; exact Bool.false_ne_true)]
  cases read s with
  | error e => rfl
  | ok r =>
      rw [Survives.inTurn, Except.bind, Reading.outcome]
      dsimp only
      cases readAll r.1.2 with
      | error e => rfl
      | ok more => rw [Except.map, Except.map, Except.map, leavesAll]

theorem outcome_body {after : TokenStream} {t : Token} (hn : s.next = (.ok t, after))
    (hkind : t.kind ≠ .curlyClose) : (Reading.body s).outcome =
    Survives.inTurn (read s) (fun r => r.1.1.leaves) fun r => (Reading.body r.1.2).outcome := by
  have hbody : (Reading.body s).outcome =
      ((readBody s).map Subtype.val).map fun r => leavesAll r.1.1 := by
    rw [Reading.outcome]
    cases readBody s with
    | error e => rfl
    | ok r => rfl
  rw [hbody, readBody_of_next hn, if_neg hkind]
  cases read s with
  | error e => rfl
  | ok r =>
      rw [Survives.inTurn, Except.bind, Reading.outcome]
      dsimp only
      cases readBody r.1.2 with
      | error e => rfl
      | ok r' =>
          rw [Except.map, Except.map, Except.map, Except.map]
          dsimp only
          rw [leavesAll]

/-- The operands of an expression are those of the yard that it is read in. -/
theorem survives_readValue (s : TokenStream) :
    Survives (Reading.operands s.stop s.rest .empty).outcome
      ((readValue s).map fun r => r.1.value.leaves) := by
  refine .of_map (fun e he => ?_) (fun r fs hr hfs => ?_)
  · rw [readValue, readExpression, he]
    rfl
  · obtain ⟨y, rest⟩ := r
    rw [readValue, readExpression, hr] at hfs
    dsimp only at hfs
    split at hfs
    · next hread =>
        split at hread
        · cases hread
        · next hfinish =>
            cases hread
            cases hfs
            dsimp only
            rw [ShuntingYard.leaves_of_finish hfinish]
            exact List.Subset.refl _
    · cases hfs

theorem outcome_statement (s : TokenStream) :
    (Reading.statement s).outcome = ((read s).map Subtype.val).map fun r => r.1.leaves := by
  rw [Reading.outcome]
  cases read s with
  | error e => rfl
  | ok r => rfl

theorem read_of_startsExpression {after : TokenStream} {t : Token}
    (hn : s.next = (.ok t, after))
    (hkind : t.kind.startsExpression = true) :
    (read s).map Subtype.val = (readValue s.settle).map fun r => (.expression r.1, r.2) := by
  rw [read_of_next hn]
  split
  all_goals first
    | rfl
    | next h =>
        rw [h] at hkind
        cases hkind

theorem survives_value {after : TokenStream} {t : Token} (hn : s.next = (.ok t, after))
    (hkind : t.kind.startsExpression = true) :
    Survives (Reading.operands s.settle.stop s.settle.rest .empty).outcome
      (Reading.statement s).outcome := by
  have hsame : (Reading.statement s).outcome =
      (readValue s.settle).map fun r => r.1.value.leaves := by
    rw [outcome_statement, read_of_startsExpression hn hkind]
    cases readValue s.settle with
    | error e => rfl
    | ok r => rw [Except.map, Except.map, leaves]; rfl
  rw [hsame]
  exact survives_readValue s.settle

theorem survives_assigned {s₁ s₂ s₃ : TokenStream} {set name equals : Token}
    (hset : expect .setWord s = .ok (set, s₁)) (hname : expect .identifier s₁ = .ok (name, s₂))
    (hequals : expect .assignment s₂ = .ok (equals, s₃)) :
    Survives (Reading.operands s₃.stop s₃.rest .empty).outcome (Reading.statement s).outcome := by
  obtain ⟨hn, hkind⟩ := next_of_expect hset
  have hread := read_of_next hn
  rw [hkind] at hread
  dsimp only at hread
  have hsame : (Reading.statement s).outcome =
      (readValue s₃).map fun r => r.1.value.leaves := by
    rw [outcome_statement, hread, readAssignment, hset]
    dsimp only
    rw [hname]
    dsimp only
    rw [hequals]
    dsimp only
    cases readValue s₃ with
    | error e => rfl
    | ok r => rw [Except.map, Except.map, leaves]
  rw [hsame]
  exact survives_readValue s₃

theorem survives_block {after : TokenStream} {t : Token} (hn : s.next = (.ok t, after))
    (hkind : t.kind = .curlyOpen) :
    Survives (Reading.body after).outcome (Reading.statement s).outcome := by
  have hread := read_of_next hn
  rw [hkind] at hread
  rw [outcome_statement, hread]
  refine .of_map (fun e he => ?_) (fun r fs hr hfs => ?_)
  · rw [he]
    rfl
  · rw [hr] at hfs
    cases hfs
    exact List.Subset.refl _

end Statement

/-- Every step hands on what the next reader comes to. -/
theorem Enters.survives {a b : Reading} (h : Enters a b) : Survives b.outcome a.outcome := by
  cases h with
  | first hleft =>
      rw [Statement.outcome_program hleft]
      exact .first _ _ _
  | more hleft hread =>
      rw [Statement.outcome_program hleft]
      exact .more hread _ fun r => (Reading.program r.1.2).outcome
  | firstInside hn hkind =>
      rw [Statement.outcome_body hn hkind]
      exact .first _ _ _
  | moreInside hn hkind hread =>
      rw [Statement.outcome_body hn hkind]
      exact .more hread _ fun r => (Reading.body r.1.2).outcome
  | block hn hkind => exact Statement.survives_block hn hkind
  | value hn hkind => exact Statement.survives_value hn hkind
  | assigned hset hname hequals => exact Statement.survives_assigned hset hname hequals
  | step h =>
      rw [Reading.outcome, Reading.outcome, ShuntingYard.read_of_step h]
      exact .refl _

section Fate

variable {source : String} {ts : List Token} {y : ShuntingYard}

theorem survives_of_meets (h : Meets source ts y) :
    Survives (Reading.operands source.utf8ByteSize ts y).outcome
      ((Statement.ofSource source).map Statement.leavesAll) :=
  h.head_induction_on
    (motive := fun a _ => Survives (Reading.operands source.utf8ByteSize ts y).outcome a.outcome)
    (.refl _) fun hstep _ ih => ih.trans hstep.survives

/-- What is wrong in an expression of a source is what is wrong with the source. -/
theorem Tree.ofSource_of_meets {e : SyntaxError} (h : Meets source ts y)
    (he : ShuntingYard.read source.utf8ByteSize ts y = .error e) :
    Tree.ofSource source = .error e := by
  have hsurvives := survives_of_meets h
  rw [Reading.outcome, he] at hsurvives
  have hwhole : (Statement.ofSource source).map Statement.leavesAll = .error e := hsurvives
  rw [Tree.ofSource]
  cases hread : Statement.ofSource source with
  | error e' =>
      rw [hread] at hwhole
      cases hwhole
      rfl
  | ok program =>
      rw [hread] at hwhole
      cases hwhole

/-- Reading on takes nothing from the stacks but what it puts together. -/
theorem ShuntingYard.leaves_subset_of_read {stop : Nat} {rest : List Token} {y' : ShuntingYard}
    (hts : ∀ t ∈ ts, t.Lexical) (h : read stop ts y = .ok (y', rest)) :
    y.values.flatMap Expr.leaves ⊆ y'.values.reverse.flatMap Expr.leaves := by
  obtain ⟨taken, _, _, htakes⟩ := takes_of_read hts h
  have hholds : Holds y.operators y.values _ _ := ⟨rfl, .refl _⟩
  obtain ⟨fs, _, _, hfinal⟩ := holds_of_takes htakes hholds
  rw [hfinal.leaves]
  refine fun l hl => List.mem_append_left _ ?_
  obtain ⟨v, hv, hl⟩ := List.mem_flatMap.1 hl
  exact List.mem_flatMap.2 ⟨v, List.mem_reverse.2 hv, hl⟩

/-- What is on the stacks somewhere in an expression is in the program, if there is one. -/
theorem mem_leavesAll_of_meets (h : Meets source ts y) {l : Expr}
    (hl : l ∈ y.values.flatMap Expr.leaves) {program : List Statement}
    (hp : Statement.ofSource source = .ok program) : l ∈ Statement.leavesAll program := by
  have hsurvives := survives_of_meets h
  rw [Reading.outcome, hp] at hsurvives
  cases hread : ShuntingYard.read source.utf8ByteSize ts y with
  | error e =>
      rw [hread] at hsurvives
      cases hsurvives
  | ok r =>
      rw [hread] at hsurvives
      have hlexical : ∀ t ∈ ts, t.Lexical :=
        fun t ht => Token.lexical_of_mem_scanFrom ((in_of_meets h).1.mem ht)
      exact hsurvives _ rfl (ShuntingYard.leaves_subset_of_read hlexical hread hl)

end Fate

/-! ## Where operands come from -/

/-- Whether a reader gets to a place where an operand goes onto the stack. -/
def Reading.Finds (a : Reading) (l : Expr) : Prop :=
  ∃ stop ts us y, Relation.ReflTransGen Enters a (.operands stop ts y) ∧
    Enters (.operands stop ts y) (.operands stop us (y.push l l.region))

theorem Enters.finds {a b : Reading} {l : Expr} (h : Enters a b) (hb : b.Finds l) : a.Finds l := by
  obtain ⟨stop, ts, us, y, hrun, hpush⟩ := hb
  exact ⟨stop, ts, us, y, .head h hrun, hpush⟩

namespace ShuntingYard

variable {stop : Nat} {ts us rest : List Token} {y y' z : ShuntingYard} {l : Expr}

/-- What a step puts on the stack is found there, and nothing else is new. -/
theorem Step.finds (h : Step ts y us z) (hl : l ∈ z.values.reverse.flatMap Expr.leaves) :
    l ∈ y.values.reverse.flatMap Expr.leaves ∨ (Reading.operands stop ts y).Finds l := by
  have hholds : Holds y.operators y.values _ _ := ⟨rfl, .refl _⟩
  cases h with
  | blank | parensOpen => exact .inl hl
  | @operand _ _ _ _ e region he =>
      obtain ⟨rfl, hleaves⟩ : region = e.region ∧ e.leaves = [e] := by
        cases he with
        | identifier | number | string => exact ⟨rfl, rfl⟩
      have hvalues : (y.push e e.region).values.reverse.flatMap Expr.leaves =
          y.values.reverse.flatMap Expr.leaves ++ [e] := by
        rw [push, cover, List.reverse_cons, List.flatMap_append, List.flatMap_singleton, hleaves]
      rw [hvalues, List.mem_append, List.mem_singleton] at hl
      rcases hl with hold | rfl
      · exact .inl hold
      · exact .inr ⟨stop, _, _, y, .refl, .step (.operand he)⟩
  | parensClose _ hclose =>
      rw [cover, (hholds.closeParens hclose).leaves] at hl
      exact .inl hl
  | operator _ hyield =>
      rw [cover, (hholds.applyTighter hyield).leaves] at hl
      exact .inl hl

theorem finds_of_steps (h : Steps ts y rest y') (hl : l ∈ y'.values.reverse.flatMap Expr.leaves) :
    l ∈ y.values.reverse.flatMap Expr.leaves ∨ (Reading.operands stop ts y).Finds l := by
  induction h with
  | refl => exact .inl hl
  | head hstep _ ih =>
      rcases ih hl with hold | hlater
      · exact hstep.finds hold
      · exact .inr ((Enters.step hstep).finds hlater)

/-- What is on the stack in the end was there before or has been found since. -/
theorem finds_of_read (h : read stop ts y = .ok (y', rest))
    (hl : l ∈ y'.values.reverse.flatMap Expr.leaves) :
    l ∈ y.values.reverse.flatMap Expr.leaves ∨ (Reading.operands stop ts y).Finds l :=
  finds_of_steps (steps_of_read h).1 hl

end ShuntingYard

namespace Statement

variable {s after : TokenStream} {t : Token} {l : Expr}

theorem finds_of_readValue {r : Expression × TokenStream} (h : readValue s = .ok r)
    (hl : l ∈ r.1.value.leaves) : (Reading.operands s.stop s.rest .empty).Finds l := by
  rw [readValue, readExpression] at h
  cases hread : ShuntingYard.read s.stop s.rest .empty with
  | error e =>
      rw [hread] at h
      cases h
  | ok yard =>
      rw [hread] at h
      dsimp only at h
      cases hfinish : yard.1.finish ((yard.2.head?.map Token.offset).getD s.stop) with
      | error e =>
          rw [hfinish] at h
          cases h
      | ok e =>
          rw [hfinish] at h
          cases h
          rw [ShuntingYard.leaves_of_finish hfinish] at hl
          exact (ShuntingYard.finds_of_read hread hl).resolve_left List.not_mem_nil

theorem finds_of_readAssignment {r : Statement × TokenStream} (h : readAssignment s = .ok r)
    (hl : l ∈ r.1.leaves) : (Reading.statement s).Finds l := by
  rw [readAssignment] at h
  split at h
  · cases h
  · next hset =>
      split at h
      · cases h
      · next hname =>
          split at h
          · cases h
          · next hequals =>
              split at h
              · cases h
              · next hvalue =>
                  cases h
                  rw [leaves] at hl
                  exact (Enters.assigned hset hname hequals).finds (finds_of_readValue hvalue hl)

theorem leaves_of_readRule {r : Statement × TokenStream} (h : readRule s = .ok r) :
    r.1.leaves = [] := by
  rw [readRule] at h
  repeat' split at h
  all_goals cases h
  rw [leaves]

mutual

theorem finds_of_read {s : TokenStream} {r : Taken s Statement} (hr : read s = .ok r)
    (hl : l ∈ r.1.1.leaves) : (Reading.statement s).Finds l := by
  obtain ⟨t, after, hn, hclose⟩ := next_of_read hr
  by_cases hstarts : t.kind.startsExpression = true
  · have hread := read_of_startsExpression hn hstarts
    rw [hr] at hread
    cases hvalue : readValue s.settle with
    | error e =>
        rw [hvalue] at hread
        cases hread
    | ok r' =>
        rw [hvalue] at hread
        have heq : r.1 = (.expression r'.1, r'.2) := Except.ok.inj hread
        rw [heq, leaves] at hl
        exact (Enters.value hn hstarts).finds (finds_of_readValue hvalue hl)
  · have hread := read_of_next hn
    rw [hr] at hread
    cases hkind : t.kind with
    | curlyOpen =>
        rw [hkind] at hread
        dsimp only at hread
        cases hbody : readBody after with
        | error e =>
            rw [hbody] at hread
            cases hread
        | ok r' =>
            rw [hbody] at hread
            have heq : r.1 = (.block _ r'.1.1.1, r'.1.2) := Except.ok.inj hread
            rw [heq, leaves] at hl
            have hlt := TokenStream.remaining_next_lt hn
            exact (Enters.block hn hkind).finds (finds_of_readBody hbody hl)
    | ruleWord =>
        rw [hkind] at hread
        rw [leaves_of_readRule hread.symm] at hl
        cases hl
    | setWord =>
        rw [hkind] at hread
        exact finds_of_readAssignment hread.symm hl
    | curlyClose => exact absurd hkind hclose
    | _ =>
        rw [hkind] at hstarts
        exact absurd rfl hstarts
termination_by 2 * s.remaining

theorem finds_of_readBody {s : TokenStream} {r : Taken s (List Statement × Token)}
    (hr : readBody s = .ok r) (hl : l ∈ leavesAll r.1.1.1) : (Reading.body s).Finds l := by
  rcases readBody_cases hr with ⟨t, after, hn, heq⟩ | ⟨r₁, r₂, hfirst, hmore, heq⟩
  · rw [heq, leavesAll] at hl
    cases hl
  · have hlt := r₁.2
    obtain ⟨t, after, hn, hclose⟩ := next_of_read hfirst
    rw [heq, leavesAll, List.mem_append] at hl
    rcases hl with hl | hl
    · exact (Enters.firstInside hn hclose).finds (finds_of_read hfirst hl)
    · exact (Enters.moreInside hn hclose hfirst).finds (finds_of_readBody hmore hl)
termination_by 2 * s.remaining + 1

end

theorem finds_of_readAll {s : TokenStream} {sts : List Statement} (hr : readAll s = .ok sts)
    (hl : l ∈ leavesAll sts) : (Reading.program s).Finds l := by
  rw [readAll] at hr
  split at hr
  · cases hr
    rw [leavesAll] at hl
    cases hl
  · next hleft =>
      have hleft' : s.atEnd.1 = false := Bool.eq_false_iff.2 hleft
      split at hr
      · cases hr
      · next first s' hlt hfirst =>
          split at hr
          · cases hr
          · next more hmore =>
              cases hr
              rw [leavesAll, List.mem_append] at hl
              rcases hl with hl | hl
              · exact (Enters.first hleft').finds (finds_of_read hfirst hl)
              · exact (Enters.more hleft' hfirst).finds (finds_of_readAll hmore hl)
termination_by s.remaining

end Statement

/-- Every operand of a program was put on the stack at a place that reading the source
got to. -/
theorem exists_meets_of_mem_leavesAll {source : String} {program : List Statement} {l : Expr}
    (hp : Statement.ofSource source = .ok program) (hl : l ∈ Statement.leavesAll program) :
    ∃ ts us y, Meets source ts y ∧ Enters (.operands source.utf8ByteSize ts y)
      (.operands source.utf8ByteSize us (y.push l l.region)) := by
  obtain ⟨stop, ts, us, y, hrun, hpush⟩ := Statement.finds_of_readAll hp hl
  obtain rfl : stop = source.utf8ByteSize := (in_of_steps hrun).2
  exact ⟨ts, us, y, hrun, hpush⟩

/-! ## Leaves of trees -/

namespace Subtree

theorem mem_leaves_of_child {s u : Subtree} {cs : List Subtree} (hs : s ∈ cs) (hu : u ∈ s.leaves)
    (id : NodeId) (kind : NodeKind) (region : Region) : u ∈ (node id kind region cs).leaves := by
  have hall : u ∈ leavesAll cs := by
    induction cs with
    | nil => cases hs
    | cons c cs ih =>
        rw [leavesAll]
        rcases List.mem_cons.1 hs with rfl | hs
        · exact List.mem_append_left _ hu
        · exact List.mem_append_right _ (ih hs)
  rw [leaves, if_neg]
  · exact hall
  · rw [List.isEmpty_iff]
    rintro rfl
    cases hs

/-- Whether a subtree has a leaf for an operand. -/
def HasLeaf (s : Subtree) (l : Expr) : Prop :=
  ∃ scope, ∃ u ∈ s.leaves, u.kind = l.kind scope ∧ u.region = l.region

theorem HasLeaf.of_child {s : Subtree} {l : Expr} {cs : List Subtree} (h : s.HasLeaf l)
    (hs : s ∈ cs) (id : NodeId) (kind : NodeKind) (region : Region) :
    (node id kind region cs).HasLeaf l := by
  obtain ⟨scope, u, hu, hsame⟩ := h
  exact ⟨scope, u, mem_leaves_of_child hs hu id kind region, hsame⟩

theorem HasLeaf.of_only {s : Subtree} {l : Expr} (h : s.HasLeaf l) (id : NodeId) (kind : NodeKind)
    (region : Region) : (node id kind region [s]).HasLeaf l :=
  h.of_child (List.mem_singleton.2 rfl) id kind region

end Subtree

theorem Expression.hasLeaf_of_shows {scope : ScopeId} {e : Expression} {s : Subtree}
    (h : e.Shows scope s) {l : Expr} (hl : l ∈ e.value.leaves) : s.HasLeaf l := by
  obtain ⟨id, v, rfl, hv⟩ := h
  have hmem : (l.kind scope, l.region) ∈ v.leaves.map fun u => (u.kind, u.region) := by
    rw [(Expr.nodes_of_shows hv).1]
    exact List.mem_map_of_mem hl
  obtain ⟨u, hu, hsame⟩ := List.mem_map.1 hmem
  exact Subtree.HasLeaf.of_only ⟨scope, u, hu, Prod.mk.inj hsame⟩ _ _ _

namespace Statement

mutual

theorem hasLeaf_of_shows {scope : ScopeId} (st : Statement) {s : Subtree} (h : st.Shows scope s)
    {l : Expr} (hl : l ∈ st.leaves) : s.HasLeaf l := by
  match st with
  | .assignment name region value =>
      rw [Shows] at h
      obtain ⟨id, full, id', v, rfl, hv⟩ := h
      rw [leaves] at hl
      exact ((Expression.hasLeaf_of_shows hv hl).of_only _ _ _).of_only _ _ _
  | .rule name expected replacement region =>
      rw [leaves] at hl
      cases hl
  | .block region body =>
      rw [Shows] at h
      obtain ⟨id, full, id', inner, statements, rfl, hbody⟩ := h
      rw [leaves] at hl
      obtain ⟨u, hu, hleaf⟩ := hasLeaf_of_showsAll body hbody hl
      exact (hleaf.of_child hu _ _ _).of_only _ _ _
  | .expression value =>
      rw [Shows] at h
      obtain ⟨id, full, v, rfl, hv⟩ := h
      rw [leaves] at hl
      exact (Expression.hasLeaf_of_shows hv hl).of_only _ _ _

theorem hasLeaf_of_showsAll {scope : ScopeId} (sts : List Statement) {ss : List Subtree}
    (h : ShowsAll scope sts ss) {l : Expr} (hl : l ∈ leavesAll sts) : ∃ s ∈ ss, s.HasLeaf l := by
  match sts with
  | [] =>
      rw [leavesAll] at hl
      cases hl
  | st :: more =>
      rw [ShowsAll] at h
      obtain ⟨s, ss', rfl, hst, hmore⟩ := h
      rw [leavesAll] at hl
      rcases List.mem_append.1 hl with hl | hl
      · exact ⟨s, List.mem_cons_self, hasLeaf_of_shows st hst hl⟩
      · obtain ⟨u, hu, hleaf⟩ := hasLeaf_of_showsAll more hmore hl
        exact ⟨u, List.mem_cons_of_mem s hu, hleaf⟩

end

end Statement

/-- What is on the stacks somewhere in an expression is a leaf of the tree, if there is
one. -/
theorem Tree.hasLeaf_of_meets {source : String} {ts : List Token} {y : ShuntingYard}
    (h : Meets source ts y) {l : Expr} (hl : l ∈ y.values.flatMap Expr.leaves) {t : Tree}
    (ht : Tree.ofSource source = .ok t) : (t.subtree Tree.root).HasLeaf l := by
  cases hp : Statement.ofSource source with
  | error e =>
      rw [Tree.ofSource, hp] at ht
      cases ht
  | ok program =>
      obtain rfl := eq_ofStatements ht hp
      obtain ⟨_, region, ss, hroot, hshows⟩ := ofStatements_shows program
      obtain ⟨s, hs, hleaf⟩ :=
        Statement.hasLeaf_of_showsAll program hshows (mem_leavesAll_of_meets h hl hp)
      rw [hroot]
      exact hleaf.of_child hs _ _ _

end Lindenmayer
