import Lindenmayer.Proofs.OnePass

/-!
# The parser is stable in fuel

Fuel pays for rounds of loops and decides nothing. An answer that was given with
some fuel is given with more of it, be it a tree or an error, so an answer belongs
to a parser and not to the fuel it happens to have. The proof follows the loops;
all that is in it is that two parsers in sequence are as stable as each of the two.
-/

namespace Lindenmayer.Parser

variable {α β : Type}

/-- Whether whatever the one answers the other answers too. -/
def Under (x y : Parsing α) : Prop := ∀ p r, x p = some r → y p = some r

namespace Under

theorem refl (x : Parsing α) : Under x x := fun _ _ h => h

theorem trans {x y z : Parsing α} (h : Under x y) (h' : Under y z) : Under x z :=
  fun p r hr => h' p r (h p r hr)

theorem outOfFuel (x : Parsing α) : Under Parser.outOfFuel x := by
  intro p r hr
  cases hr

theorem bind {x y : Parsing α} {f g : α → Parsing β} (h : Under x y)
    (hf : ∀ a, Under (f a) (g a)) : Under (x >>= f) (y >>= g) := by
  intro p r hr
  cases hx : x p with
  | none =>
      rw [bind_none hx] at hr
      cases hr
  | some result =>
      cases result with
      | error e =>
          rw [bind_error hx] at hr
          rw [bind_error (h p _ hx), ← hr]
      | ok answer =>
          obtain ⟨a, q⟩ := answer
          rw [bind_ok hx] at hr
          rw [bind_ok (h p _ hx)]
          exact hf a q r hr

/-- The same parser, followed by others. -/
theorem next {x : Parsing α} {f g : α → Parsing β} (hf : ∀ a, Under (f a) (g a)) :
    Under (x >>= f) (x >>= g) :=
  bind (refl x) hf

theorem ite (c : Prop) [Decidable c] {x x' y y' : Parsing α} (h : Under x x') (h' : Under y y') :
    Under (if c then x else y) (if c then x' else y') := by
  split
  · exact h
  · exact h'

end Under

variable (fuel : Nat)

theorem stringContent_succ (quote content : String) :
    Under (stringContent quote fuel content) (stringContent quote (fuel + 1) content) := by
  induction fuel generalizing content with
  | zero => exact .outOfFuel _
  | succ fuel ih =>
      rw [stringContent, stringContent]
      refine .next fun _ => .ite _ (.refl _) ?_
      exact .next fun _ => .ite _ (.refl _) (.ite _ (ih _) (ih _))

theorem string_succ : Under (string fuel) (string (fuel + 1)) :=
  .next fun _ => .next fun _ => .next fun _ => .bind (stringContent_succ fuel _ _) fun _ => .refl _

theorem operands_succ (y : Yard) : Under (operands fuel y) (operands (fuel + 1) y) := by
  induction fuel generalizing y with
  | zero => exact .outOfFuel _
  | succ fuel ih =>
      rw [operands, operands]
      refine .next fun _ => .ite _ (.refl _) ?_
      refine .next fun t => ?_
      cases t.kind with
      | whitespace => exact .next fun _ => ih _
      | identifier => exact .next fun _ => .next fun _ => ih _
      | number => exact .next fun _ => .next fun _ => ih _
      | quote => exact .bind (string_succ fuel) fun _ => .next fun _ => ih _
      | parensOpen => exact .next fun _ => ih _
      | parensClose => exact .next fun _ => .next fun _ => ih _
      | operator =>
          refine .next fun u => ?_
          cases Operator.ofSymbol? u.text with
          | none => exact .refl _
          | some operator => exact .next fun _ => ih _
      | _ => exact .refl _

theorem expression_succ : Under (expression fuel) (expression (fuel + 1)) :=
  .next fun _ => .next fun _ =>
    .bind (.bind (operands_succ fuel _) fun _ => .refl _) fun _ => .refl _

theorem runOn_succ (run : String × Region) : Under (runOn fuel run) (runOn (fuel + 1) run) := by
  induction fuel generalizing run with
  | zero => exact .outOfFuel _
  | succ fuel ih =>
      rw [runOn, runOn]
      refine .next fun _ => .ite _ (.refl _) ?_
      exact .next fun _ => .ite _ (.refl _) (.next fun _ => ih _)

theorem unbrokenRun_succ : Under (unbrokenRun fuel) (unbrokenRun (fuel + 1)) := by
  refine .next fun _ => .ite _ (.refl _) ?_
  exact .next fun _ => .next fun _ => .next fun _ => .bind (runOn_succ fuel _) fun _ => .refl _

theorem ruleDefinition_succ : Under (ruleDefinition fuel) (ruleDefinition (fuel + 1)) := by
  refine .next fun _ => .next fun _ => .next fun _ => .bind (unbrokenRun_succ fuel) fun _ => ?_
  exact .next fun _ => .bind (unbrokenRun_succ fuel) fun _ => .refl _

theorem assignment_succ : Under (assignment fuel) (assignment (fuel + 1)) :=
  .next fun _ => .next fun _ => .next fun _ => .bind (expression_succ fuel) fun _ => .refl _

mutual

theorem statement_succ (fuel : Nat) : Under (statement fuel) (statement (fuel + 1)) := by
  match fuel with
  | 0 =>
      rw [statement]
      exact .outOfFuel _
  | fuel + 1 =>
      rw [statement, statement]
      refine .next fun t => .bind ?_ fun _ => .refl _
      cases t.kind with
      | curlyOpen => exact block_succ fuel
      | ruleWord => exact ruleDefinition_succ fuel
      | setWord => exact assignment_succ fuel
      | curlyClose => exact .refl _
      | _ => exact expression_succ fuel

theorem block_succ (fuel : Nat) : Under (block fuel) (block (fuel + 1)) := by
  match fuel with
  | 0 =>
      rw [block]
      exact .outOfFuel _
  | fuel + 1 =>
      rw [block, block]
      exact .next fun _ => .next fun _ => .bind (body_succ fuel _) fun _ => .refl _

theorem body_succ (fuel : Nat) (ns : List NodeId) : Under (body fuel ns) (body (fuel + 1) ns) := by
  match fuel with
  | 0 =>
      rw [body]
      exact .outOfFuel _
  | fuel + 1 =>
      rw [body, body]
      refine .next fun _ => .ite _ (.refl _) ?_
      refine .next fun _ => .ite _ (.refl _) ?_
      exact .bind (statement_succ fuel) fun _ => body_succ fuel _

end

theorem program_succ : Under (program fuel) (program (fuel + 1)) := by
  induction fuel with
  | zero => exact .outOfFuel _
  | succ fuel ih =>
      rw [program, program]
      refine .next fun _ => .ite _ (.refl _) ?_
      exact .bind (statement_succ fuel) fun _ => .next fun _ => ih

variable {fuel}

/-- More fuel gives no other answer. -/
theorem under_of_le {x : Nat → Parsing α} (hsucc : ∀ fuel, Under (x fuel) (x (fuel + 1)))
    {more : Nat} (h : fuel ≤ more) : Under (x fuel) (x more) := by
  induction more, h using Nat.le_induction with
  | base => exact .refl _
  | succ more _ ih => exact ih.trans (hsucc more)

end Lindenmayer.Parser
