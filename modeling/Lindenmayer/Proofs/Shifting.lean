import Lindenmayer.Proofs.Lexemes
import Lindenmayer.Proofs.Readers
import Lindenmayer.Proofs.YardSteps

/-!
# Reading further down

What a text says does not depend on where in a longer text it stands, other than
for the places that are recorded of it. `shift` moves all places by a number of
bytes: those of tokens, of what is read from them and of what is reported to be
wrong with them. Every reader commutes with it, which is all that this file says,
from the tokens of a text to its statements.
-/

namespace Lindenmayer

/-- What records places in a text, and can be moved with it. -/
class Shift (α : Type) where
  /-- The same, so many bytes further down. -/
  shift : Nat → α → α

open Shift (shift)

section Instances

variable {α β : Type}

/-! ## What is moved -/

instance : Shift String := ⟨fun _ s => s⟩

instance : Shift (Option String) := ⟨fun _ s => s⟩

instance : Shift Operator := ⟨fun _ o => o⟩

instance : Shift Region := ⟨fun d r => { r with start := r.start + d }⟩

instance : Shift Token := ⟨fun d t => { t with offset := t.offset + d }⟩

instance [Shift α] : Shift (List α) := ⟨fun d xs => xs.map (shift d)⟩

instance [Shift α] [Shift β] : Shift (α × β) := ⟨fun d x => (shift d x.1, shift d x.2)⟩

instance : Shift SyntaxError where
  shift d
    | .prematureEnd offset => .prematureEnd (offset + d)
    | .pushBackAtStart => .pushBackAtStart
    | .unexpectedToken expected found text region =>
      .unexpectedToken expected found text (shift d region)
    | .malformed fault region => .malformed fault (shift d region)
    | .illegalNumber literal region => .illegalNumber literal (shift d region)

instance [Shift α] : Shift (Except SyntaxError α) where
  shift d
    | .ok a => .ok (shift d a)
    | .error e => .error (shift d e)

protected def Expr.shift (d : Nat) : Expr → Expr
  | .number n region => .number n (shift d region)
  | .string s region => .string s (shift d region)
  | .identifier name region => .identifier name (shift d region)
  | .operation operator region lhs rhs =>
    .operation operator (shift d region) (lhs.shift d) (rhs.shift d)

instance : Shift Expr := ⟨Expr.shift⟩

instance : Shift Expression := ⟨fun d e => ⟨shift d e.value, shift d e.region⟩⟩

mutual

protected def Statement.shift (d : Nat) : Statement → Statement
  | .assignment name region value =>
    .assignment name (shift d region) (shift d value)
  | .rule name expected replacement region => .rule name expected replacement (shift d region)
  | .block region body => .block (shift d region) (Statement.shiftAll d body)
  | .expression value => .expression (shift d value)

def Statement.shiftAll (d : Nat) : List Statement → List Statement
  | [] => []
  | st :: more => st.shift d :: Statement.shiftAll d more

end

instance : Shift Statement := ⟨Statement.shift⟩

instance : Shift ShuntingYard :=
  ⟨fun d y => ⟨shift d y.values, shift d y.operators, y.region.map (shift d)⟩⟩

instance : Shift TokenStream :=
  ⟨fun d s => { s with rest := shift d s.rest, stop := s.stop + d }⟩

end Instances

section Laws

variable {α β : Type} [Shift α] [Shift β] {d : Nat}

@[simp] theorem shift_cons (x : α) (xs : List α) :
    shift d (x :: xs) = shift d x :: shift d xs := rfl

@[simp] theorem shift_pair (x : α) (y : β) : shift d (x, y) = (shift d x, shift d y) := rfl

@[simp] theorem fst_shift (x : α × β) : (shift d x).1 = shift d x.1 := rfl

@[simp] theorem snd_shift (x : α × β) : (shift d x).2 = shift d x.2 := rfl

@[simp] theorem shift_ok (a : α) :
    shift d (.ok a : Except SyntaxError α) = .ok (shift d a) := rfl

theorem map_shift {f g : α → β} (h : ∀ a, f (shift d a) = shift d (g a))
    (x : Except SyntaxError α) : (shift d x).map f = shift d (x.map g) := by
  cases x with
  | error e => rfl
  | ok a => exact congrArg Except.ok (h a)

end Laws

@[simp] theorem shift_operator (d : Nat) (o : Operator) : shift d o = o := rfl

theorem Statement.shiftAll_eq (d : Nat) (sts : List Statement) :
    Statement.shiftAll d sts = shift d sts := by
  induction sts with
  | nil => rfl
  | cons st more ih => rw [Statement.shiftAll, ih]; rfl

/-- A merged region is moved as its parts are. -/
theorem Region.shift_merge (d : Nat) (r s : Region) :
    (shift d r).merge (shift d s) = shift d (r.merge s) := by
  have hstart : min (r.start + d) (s.start + d) = min r.start s.start + d := by omega
  have hstop : max (r.start + d + r.length) (s.start + d + s.length) =
      max (r.start + r.length) (s.start + s.length) + d := by omega
  show (⟨min (r.start + d) (s.start + d), max (r.start + d + r.length) (s.start + d + s.length) -
    min (r.start + d) (s.start + d)⟩ : Region) = ⟨min r.start s.start + d,
      max (r.start + r.length) (s.start + s.length) - min r.start s.start⟩
  rw [hstart, hstop, Nat.add_sub_add_right]

namespace Token

variable (d : Nat) (t : Token)

@[simp] theorem kind_shift : (shift d t).kind = t.kind := rfl

@[simp] theorem text_shift : (shift d t).text = t.text := rfl

@[simp] theorem region_shift : (shift d t).region = shift d t.region := rfl

theorem scanFrom_shift (offset : Nat) (cs : List Char) :
    scanFrom (offset + d) cs = shift d (scanFrom offset cs) := by
  fun_induction scanFrom offset cs with
  | case1 => rw [scanFrom]; rfl
  | case2 offset c cs more ih =>
      rw [scanFrom_cons, Nat.add_right_comm, ih]
      rfl

end Token

/-! ## Expressions -/

namespace ShuntingYard

variable (d : Nat)

theorem apply_shift (operator : Operator) (place : Region) (vals : List Expr) :
    apply operator (shift d place) (shift d vals) = shift d (apply operator place vals) := by
  rcases vals with _ | ⟨rhs, _ | ⟨lhs, vals⟩⟩ <;> rfl

theorem applyTighter_shift (next : Operator) (ops : List (Operator × Region)) (vals : List Expr) :
    applyTighter next (shift d ops) (shift d vals) = shift d (applyTighter next ops vals) := by
  induction ops generalizing vals with
  | nil => rfl
  | cons op ops ih =>
      obtain ⟨top, place⟩ := op
      rw [shift_cons, shift_pair, shift_operator, applyTighter, applyTighter, apply_shift]
      split
      · cases apply top place vals with
        | error e => rfl
        | ok vals => exact ih vals
      · rfl

theorem closeParens_shift (close : Region) (ops : List (Operator × Region)) (vals : List Expr) :
    closeParens (shift d close) (shift d ops) (shift d vals) =
      shift d (closeParens close ops vals) := by
  induction ops generalizing vals with
  | nil => rfl
  | cons op ops ih =>
      obtain ⟨top, place⟩ := op
      rw [shift_cons, shift_pair, shift_operator, closeParens, closeParens, apply_shift]
      split
      · rfl
      · cases apply top place vals with
        | error e => rfl
        | ok vals => exact ih vals

theorem applyAll_shift (ops : List (Operator × Region)) (vals : List Expr) :
    applyAll (shift d ops) (shift d vals) = shift d (applyAll ops vals) := by
  induction ops generalizing vals with
  | nil => rfl
  | cons op ops ih =>
      obtain ⟨top, place⟩ := op
      rw [shift_cons, shift_pair, shift_operator, applyAll, applyAll, apply_shift]
      split
      · rfl
      · cases apply top place vals with
        | error e => rfl
        | ok vals => exact ih vals

theorem cover_shift (y : ShuntingYard) (r : Region) :
    (shift d y).cover (shift d r) = shift d (y.cover r) := by
  obtain ⟨vals, ops, region⟩ := y
  cases region with
  | none => rfl
  | some before =>
      show (⟨shift d vals, shift d ops,
        some ((shift d before).merge (shift d r))⟩ : ShuntingYard) = _
      rw [Region.shift_merge]
      rfl

theorem push_shift (y : ShuntingYard) (e : Expr) (r : Region) :
    (shift d y).push (shift d e) (shift d r) = shift d (y.push e r) :=
  cover_shift d { y with values := e :: y.values } r

theorem readString_shift (quote : String) (ts : List Token) :
    readString quote (shift d ts) =
      (readString quote ts).map fun r => (r.1, shift d r.2.1, shift d r.2.2) := by
  induction ts with
  | nil => rfl
  | cons t ts ih =>
      rw [shift_cons, readString, readString, Token.kind_shift, Token.text_shift, ih]
      split
      · rfl
      · cases readString quote ts <;> rfl

variable {d : Nat} {stop : Nat} {t : Token} {ts us rest : List Token} {y z : ShuntingYard}
  {e : Expr} {region : Region}

theorem Operand.shift (h : Operand t ts e region rest) :
    Operand (shift d t) (shift d ts) (shift d e) (shift d region) (shift d rest) := by
  cases h with
  | identifier hkind => exact .identifier hkind
  | number hkind hvalue => exact .number hkind hvalue
  | @string content close _ hkind hs =>
      have hs' := readString_shift d t.text ts
      rw [hs] at hs'
      have he : Operand (Shift.shift d t) (Shift.shift d ts) _ _ (Shift.shift d rest) :=
        .string hkind hs'
      rw [Token.region_shift, Token.region_shift, Region.shift_merge] at he
      exact he

theorem Step.shift (h : Step ts y us z) :
    Step (shift d ts) (shift d y) (shift d us) (shift d z) := by
  cases h with
  | blank hkind => exact .blank hkind
  | operand he =>
      rw [← push_shift]
      exact .operand he.shift
  | parensOpen hkind =>
      rw [← cover_shift]
      exact .parensOpen hkind
  | @parensClose t _ _ _ _ hkind hclose =>
      have hclose' := closeParens_shift d t.region y.operators y.values
      rw [hclose] at hclose'
      rw [← cover_shift]
      exact .parensClose hkind hclose'
  | @operator _ _ _ o _ _ hsign hyield =>
      have hyield' := applyTighter_shift d o y.operators y.values
      rw [hyield] at hyield'
      rw [← cover_shift]
      exact .operator hsign hyield'

theorem Steps.shift (h : Steps ts y us z) :
    Steps (shift d ts) (shift d y) (shift d us) (shift d z) := by
  induction h with
  | refl => exact .refl
  | head hstep _ ih => exact .head hstep.shift ih

theorem Fails.shift {e : SyntaxError} (h : Fails stop ts y e) :
    Fails (stop + d) (shift d ts) (shift d y) (shift d e) := by
  cases h with
  | number hkind hvalue => exact .number hkind hvalue
  | @string t ts _ hkind hs =>
      have hs' := readString_shift d t.text ts
      rw [hs] at hs'
      exact .string hkind hs'
  | @parensClose t _ _ _ hkind hclose =>
      have hclose' := closeParens_shift d t.region y.operators y.values
      rw [hclose] at hclose'
      exact .parensClose hkind hclose'
  | unknown hkind hnone => exact .unknown hkind hnone
  | @operator _ _ _ o _ hsign hyield =>
      have hyield' := applyTighter_shift d o y.operators y.values
      rw [hyield] at hyield'
      exact .operator hsign hyield'
  | unexpected hkind => exact .unexpected hkind

theorem read_shift (d stop : Nat) (ts : List Token) (y : ShuntingYard) :
    read (stop + d) (shift d ts) (shift d y) = shift d (read stop ts y) := by
  obtain ⟨us, z, hsteps, ⟨hend, hread⟩ | ⟨e, hfails, hread⟩⟩ := read_cases stop ts y
  · have hend' : EndsExpression (Shift.shift d us) := by
      cases us with
      | nil => exact trivial
      | cons t us => exact hend
    rw [hread, read_of_steps hsteps.shift, read_end hend']
    rfl
  · rw [hread, read_of_steps hsteps.shift, read_of_fails hfails.shift]
    rfl

theorem finish_shift (y : ShuntingYard) (offset : Nat) :
    (shift d y).finish (offset + d) = shift d (y.finish offset) := by
  have hregion : (shift d y).region.getD ⟨offset + d, 0⟩ = shift d (y.region.getD ⟨offset, 0⟩) := by
    show (y.region.map (shift d)).getD _ = _
    cases y.region <;> rfl
  have hall : applyAll (shift d y).operators (shift d y).values =
      shift d (applyAll y.operators y.values) := applyAll_shift d _ _
  rw [finish, finish, hregion, hall]
  cases applyAll y.operators y.values with
  | error e => rfl
  | ok vals => rcases vals with _ | ⟨e, _ | ⟨e', vals⟩⟩ <;> rfl

end ShuntingYard

theorem readExpression_shift (d stop : Nat) (ts : List Token) :
    readExpression (stop + d) (shift d ts) = shift d (readExpression stop ts) := by
  have hread : ShuntingYard.read (stop + d) (shift d ts) .empty =
      shift d (ShuntingYard.read stop ts .empty) := ShuntingYard.read_shift d stop ts .empty
  rw [readExpression, readExpression, hread]
  cases ShuntingYard.read stop ts .empty with
  | error e => rfl
  | ok r =>
      obtain ⟨y, rest⟩ := r
      have hoffset : ((shift d rest).head?.map Token.offset).getD (stop + d) =
          (rest.head?.map Token.offset).getD stop + d := by cases rest <;> rfl
      simp only [shift_ok, shift_pair]
      rw [hoffset, ShuntingYard.finish_shift]
      cases y.finish ((rest.head?.map Token.offset).getD stop) with
      | error e => rfl
      | ok e => rfl

/-! ## Statements -/

namespace TokenStream

variable (d : Nat) (s : TokenStream)

theorem settle_shift : (shift d s).settle = shift d s.settle := by
  unfold settle
  show (if s.skipping && !s.buffered then _ else _) =
    shift d (if s.skipping && !s.buffered then _ else _)
  split
  · show (⟨(s.rest.map (shift d)).dropWhile Token.isBlank, _, _, _⟩ : TokenStream) =
      ⟨(s.rest.dropWhile Token.isBlank).map (shift d), _, _, _⟩
    rw [List.dropWhile_map]
    rfl
  · rfl

theorem next_shift : (shift d s).next = shift d s.next := by
  have hrest : (shift d s.settle).rest = shift d s.settle.rest := rfl
  rw [next, next, settle_shift, hrest]
  cases s.settle.rest <;> rfl

theorem atEnd_shift : (shift d s).atEnd.1 = s.atEnd.1 := by
  rw [atEnd, atEnd, settle_shift]
  show (shift d s.settle.rest).isEmpty = _
  cases s.settle.rest <;> rfl

end TokenStream

namespace Statement

variable (d : Nat) (s : TokenStream)

theorem expect_shift (kind : TokenKind) : expect kind (shift d s) = shift d (expect kind s) := by
  rw [expect, expect, TokenStream.nextKind, TokenStream.nextKind, TokenStream.next_shift]
  cases s.next with
  | mk result after =>
      cases result with
      | error e => rfl
      | ok t =>
          by_cases hkind : t.kind = kind
          · simp [hkind]
          · simp [hkind]
            rfl

theorem readValue_shift : readValue (shift d s) = shift d (readValue s) := by
  have hread : readExpression (shift d s).stop (shift d s).rest =
      shift d (readExpression s.stop s.rest) := readExpression_shift d s.stop s.rest
  rw [readValue, readValue, hread]
  cases readExpression s.stop s.rest with
  | error e => rfl
  | ok r => rfl

theorem joinRun_shift (first : Token) (more : List Token) :
    joinRun (shift d first) (shift d more) = shift d (joinRun first more) := by
  have hfold : ∀ (ts : List Token) (run : String × Region),
      (shift d ts).foldl (fun run t => (run.1 ++ t.text, run.2.merge t.region)) (shift d run) =
        shift d (ts.foldl (fun run t => (run.1 ++ t.text, run.2.merge t.region)) run) := by
    intro ts
    induction ts with
    | nil => exact fun _ => rfl
    | cons t ts ih =>
        intro run
        rw [shift_cons, List.foldl_cons, List.foldl_cons, ← ih, Token.region_shift]
        congr 1
        exact Prod.ext rfl (Region.shift_merge d run.2 t.region)
  exact hfold more (first.text, first.region)

theorem unbrokenRun_shift : unbrokenRun (shift d s) = shift d (unbrokenRun s) := by
  rw [unbrokenRun, unbrokenRun, TokenStream.next_shift]
  cases s.next with
  | mk result after =>
      cases result with
      | error e => rfl
      | ok first =>
          have htake : (shift d after.rest).takeWhile (!·.isBlank) =
              shift d (after.rest.takeWhile (!·.isBlank)) := List.takeWhile_map ..
          have hdrop : (shift d after.rest).dropWhile (!·.isBlank) =
              shift d (after.rest.dropWhile (!·.isBlank)) := List.dropWhile_map ..
          show Except.ok (joinRun (shift d first) ((shift d after.rest).takeWhile _),
            (⟨(shift d after.rest).dropWhile _, _, _, _⟩ : TokenStream)) = _
          rw [htake, hdrop, joinRun_shift]
          rfl

theorem readRuleName_shift : readRuleName (shift d s) = shift d (readRuleName s) := by
  rw [readRuleName, readRuleName, TokenStream.next_shift]
  cases s.next with
  | mk result after =>
      cases result with
      | error e => rfl
      | ok t =>
          by_cases hkind : t.kind = .identifier
          · simp [hkind]
            rfl
          · simp [hkind]
            rfl

theorem readAssignment_shift : readAssignment (shift d s) = shift d (readAssignment s) := by
  rw [readAssignment, readAssignment, expect_shift]
  cases expect .setWord s with
  | error e => rfl
  | ok set =>
      simp only [shift_ok, fst_shift, snd_shift]
      rw [expect_shift]
      cases expect .identifier set.2 with
      | error e => rfl
      | ok name =>
          simp only [shift_ok, fst_shift, snd_shift]
          rw [expect_shift]
          cases expect .assignment name.2 with
          | error e => rfl
          | ok equals =>
              simp only [shift_ok, fst_shift, snd_shift]
              rw [readValue_shift]
              cases readValue equals.2 with
              | error e => rfl
              | ok value =>
                  simp only [shift_ok, fst_shift, snd_shift, Token.region_shift, Region.shift_merge]
                  rfl

theorem readRule_shift : readRule (shift d s) = shift d (readRule s) := by
  rw [readRule, readRule, expect_shift]
  cases expect .ruleWord s with
  | error e => rfl
  | ok word =>
      simp only [shift_ok, fst_shift, snd_shift]
      rw [readRuleName_shift]
      simp only [fst_shift, snd_shift]
      rw [expect_shift]
      cases expect .colon (readRuleName word.2).2 with
      | error e => rfl
      | ok colon =>
          simp only [shift_ok, snd_shift]
          rw [unbrokenRun_shift]
          cases unbrokenRun colon.2 with
          | error e => rfl
          | ok expected =>
              simp only [shift_ok, fst_shift, snd_shift]
              rw [expect_shift]
              cases expect .arrow expected.2 with
              | error e => rfl
              | ok arrow =>
                  simp only [shift_ok, snd_shift]
                  rw [unbrokenRun_shift]
                  cases unbrokenRun arrow.2 with
                  | error e => rfl
                  | ok replacement =>
                      simp only [shift_ok, fst_shift, snd_shift, Token.region_shift,
                        Region.shift_merge]
                      rfl

/-- A result that is read off without the fact that tokens were taken. -/
theorem map_map_val {α β : Type} {s : TokenStream} (f : α × TokenStream → β)
    (x : Except SyntaxError (Taken s α)) : (x.map fun r => f r.1) = (x.map Subtype.val).map f := by
  cases x <;> rfl

theorem cases_of_map_val {α : Type} [Shift α] {d : Nat} {s s' : TokenStream}
    {x : Except SyntaxError (Taken s α)} {x' : Except SyntaxError (Taken s' α)}
    (h : x'.map Subtype.val = shift d (x.map Subtype.val)) :
    (∃ e, x = .error e ∧ x' = .error (shift d e)) ∨
      ∃ r r', x = .ok r ∧ x' = .ok r' ∧ r'.1 = shift d r.1 := by
  cases x with
  | error e =>
      cases x' with
      | error e' => exact .inl ⟨e, rfl, congrArg Except.error (Except.error.inj h)⟩
      | ok r' => cases h
  | ok r =>
      obtain ⟨r', hx', hr'⟩ := exists_of_map_val h
      exact .inr ⟨r, r', rfl, hx', hr'⟩

mutual

theorem read_shift (d : Nat) (s : TokenStream) :
    (read (shift d s)).map Subtype.val = shift d ((read s).map Subtype.val) := by
  have hnext := TokenStream.next_shift d s
  cases hn : s.next with
  | mk result after =>
      rw [hn] at hnext
      cases result with
      | error e =>
          rw [read_of_end hn, read_of_end hnext]
          rfl
      | ok t =>
          have hlt := TokenStream.remaining_next_lt hn
          rw [read_of_next hn, read_of_next hnext, Token.kind_shift]
          cases hkind : t.kind with
          | curlyOpen =>
              -- The fact about lengths is of another type on either side, so it goes first.
              let block (t : Token) (r : (List Statement × Token) × TokenStream) :=
                (Statement.block (t.region.merge r.1.2.region) r.1.1, r.2)
              show (readBody (shift d after)).map (fun r => block (shift d t) r.1) =
                shift d ((readBody after).map fun r => block t r.1)
              rw [map_map_val, map_map_val, readBody_shift d after]
              refine map_shift (fun r => ?_) _
              simp only [block, fst_shift, snd_shift, Token.region_shift, Region.shift_merge,
                ← shiftAll_eq]
              rfl
          | ruleWord => exact readRule_shift d s
          | setWord => exact readAssignment_shift d s
          | curlyClose => rfl
          | _ =>
              dsimp only
              rw [TokenStream.settle_shift, readValue_shift]
              refine map_shift (fun r => ?_) _
              rfl
termination_by 2 * s.remaining

theorem readBody_shift (d : Nat) (s : TokenStream) :
    (readBody (shift d s)).map Subtype.val = shift d ((readBody s).map Subtype.val) := by
  have hnext := TokenStream.next_shift d s
  cases hn : s.next with
  | mk result after =>
      rw [hn] at hnext
      cases result with
      | error e =>
          rw [readBody_of_end hn, readBody_of_end hnext]
          rfl
      | ok t =>
          rw [readBody_of_next hn, readBody_of_next hnext, Token.kind_shift]
          split
          · rfl
          · rcases cases_of_map_val (read_shift d s) with
              ⟨e, hread, hread'⟩ | ⟨r, r', hread, hread', hr'⟩
            · rw [hread, hread']
              rfl
            · let onto (first : Statement) (r : (List Statement × Token) × TokenStream) :=
                ((first :: r.1.1, r.1.2), r.2)
              have hlt := r.2
              rw [hread, hread']
              show (readBody r'.1.2).map (fun more => onto r'.1.1 more.1) =
                shift d ((readBody r.1.2).map fun more => onto r.1.1 more.1)
              rw [map_map_val, map_map_val, hr', snd_shift, readBody_shift d r.1.2]
              refine map_shift (fun more => ?_) _
              rfl
termination_by 2 * s.remaining + 1

end

/-- A sequence of statements is its first and the others. -/
theorem readAll_of_not_atEnd {s : TokenStream} (h : ¬ s.atEnd.1 = true) :
    readAll s =
      ((read s).map Subtype.val).bind fun r => (readAll r.2).map (r.1 :: ·) := by
  rw [readAll, if_neg h]
  cases read s with
  | error e => rfl
  | ok r =>
      show _ = (readAll r.1.2).map (r.1.1 :: ·)
      dsimp only
      cases readAll r.1.2 <;> rfl

theorem readAll_shift (d : Nat) (s : TokenStream) : readAll (shift d s) = shift d (readAll s) := by
  have hatEnd := TokenStream.atEnd_shift d s
  by_cases hend : s.atEnd.1 = true
  · rw [readAll, if_pos (hatEnd.trans hend), readAll, if_pos hend]
    rfl
  · rw [readAll_of_not_atEnd hend, readAll_of_not_atEnd (hatEnd ▸ hend), read_shift]
    cases read s with
    | error e => rfl
    | ok r =>
        have hlt := r.2
        show (readAll (shift d r.1.2)).map (shift d r.1.1 :: ·) = _
        rw [readAll_shift d r.1.2]
        refine map_shift (fun more => ?_) _
        rfl
termination_by s.remaining

end Statement

end Lindenmayer
