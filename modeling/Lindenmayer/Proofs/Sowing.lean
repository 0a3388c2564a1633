import Lindenmayer.Proofs.Planting
import Lindenmayer.Proofs.WellWritten

/-!
# What a source text makes grow

Planting follows the syntax, but all it ever does to a tree is one of few
things: a node is put on top of those that were just made, a name is declared
at its node, a scope is opened for what a block holds. `Sown` is the list of
them, with what each kind of node demands of the kinds below it
(`NodeKind.admits`). What holds of every tree that was read from a source is
then an induction with a case for each, and not once more a recursion through
expressions and statements.

An operation never stands for a parenthesis, because what was read from a
source is well written; that is all `sown_plantAll` needs to know of the
syntax.
-/

namespace Lindenmayer

namespace NodeKind

/-- Whether a node can be an operand of an operation, or an expression's only
content. -/
def isOperand : NodeKind → Bool
  | operation _ | identifier _ _ | number _ | string _ => true
  | _ => false

/-- Whether a node can be what a statement says. -/
def isSaid : NodeKind → Bool
  | assignment _ _ | rule _ _ _ | block _ | expression => true
  | _ => false

def isStatement : NodeKind → Bool
  | statement => true
  | _ => false

def isExpression : NodeKind → Bool
  | expression => true
  | _ => false

theorem isExpression_iff {kind : NodeKind} : kind.isExpression = true ↔ kind = .expression := by
  cases kind <;> simp [isExpression]

/-- Whether nodes of the given kinds, in this order, are what a node may have
below it. -/
def admits : NodeKind → List NodeKind → Bool
  | root _, ks => ks.all isStatement
  | block _, ks => ks.all isStatement
  | statement, [k] => k.isSaid
  | assignment _ _, [k] => k.isExpression
  | expression, [k] => k.isOperand
  | operation operator, [l, r] => operator ≠ .parens && l.isOperand && r.isOperand
  | rule _ _ _, [] => true
  | identifier _ _, [] => true
  | number _, [] => true
  | string _, [] => true
  | _, _ => false

/-- Whether planting such a node in a scope does nothing to scopes. -/
def PlainIn (scope : ScopeId) : NodeKind → Prop
  | root _ | block _ | identifier _ _ => False
  | assignment _ id => id = scope
  | _ => True

end NodeKind

/-- What an expression stands for at its top. -/
def Expr.kind (scope : ScopeId) : Expr → NodeKind
  | .number n _ => .number n
  | .string s _ => .string s
  | .identifier name _ => .identifier name scope
  | .operation operator _ _ _ => .operation operator

theorem Expr.isOperand_kind (scope : ScopeId) (e : Expr) : (e.kind scope).isOperand = true := by
  cases e <;> rfl

namespace Tree

/-- Whether a tree can grow out of another by what is planted in a scope. The
nodes are those on top of what was planted, and the kinds are theirs. -/
inductive Sown : ScopeId → Tree → Tree → List NodeId → List NodeKind → Prop
  | nothing {scope : ScopeId} {t : Tree} : Sown scope t t [] []
  | append {scope : ScopeId} {t t' t'' : Tree} {ns ms : List NodeId} {ks ls : List NodeKind}
      (first : Sown scope t t' ns ks) (second : Sown scope t' t'' ms ls) :
      Sown scope t t'' (ns ++ ms) (ks ++ ls)
  | wrap {scope : ScopeId} {t t' : Tree} {ns : List NodeId} {ks : List NodeKind}
      (kind : NodeKind) (region : Region) (hplain : kind.PlainIn scope)
      (hadmits : kind.admits ks = true) (below : Sown scope t t' ns ks) :
      Sown scope t ((t'.newNode kind region).2.addChildren ⟨t'.size⟩ ns) [⟨t'.size⟩] [kind]
  | identifier {scope : ScopeId} {t : Tree} (name : String) (region : Region) :
      Sown scope t
        { (t.newNode (.identifier name scope) region).2 with
          scopes := (t.scopes.declare scope name (some ⟨t.size⟩)).2 }
        [⟨t.size⟩] [.identifier name scope]
  | block {scope : ScopeId} {t t' : Tree} {ns : List NodeId} {ks : List NodeKind}
      (region : Region) (hadmits : ks.all NodeKind.isStatement = true)
      (below : Sown (t.scopes.createAnonymous scope).1
        { t with scopes := (t.scopes.createAnonymous scope).2 } t' ns ks) :
      Sown scope t
        ((t'.newNode (.block (t.scopes.createAnonymous scope).1) region).2.addChildren
          ⟨t'.size⟩ ns)
        [⟨t'.size⟩] [.block (t.scopes.createAnonymous scope).1]

variable {t t' : Tree} {scope : ScopeId} {ns : List NodeId} {ks : List NodeKind}

namespace Sown

theorem planted (h : Sown scope t t' ns ks) (hw : t.WellLinked) : Planted t t' ns := by
  induction h with
  | nothing => exact .refl hw
  | append _ _ ih ih' => exact (ih hw).trans (ih' (ih hw).wellLinked)
  | wrap kind region _ _ _ ih => exact (ih hw).planted_wrap kind region
  | identifier name region => exact (Planted.newNode hw _ region).withScopes _
  | block region _ _ ih => exact (ih (hw.withScopes _)).of_withScopes.planted_wrap _ region

/-- The kinds are those of the nodes. -/
theorem kinds (h : Sown scope t t' ns ks) (hw : t.WellLinked) : ns.map t'.kind = ks := by
  induction h with
  | nothing => rfl
  | append first second ih ih' =>
      have hfirst := first.planted hw
      have hsecond := second.planted hfirst.wellLinked
      rw [List.map_append, ih' hfirst.wellLinked, ← ih hw]
      congr 1
      exact List.map_congr_left fun n hn => congrArg Node.kind (hsecond.frame n (hfirst.lt n hn))
  | wrap kind region _ _ below _ =>
      rw [List.map_singleton, ((below.planted hw).wrap_self kind region).1]
  | identifier name region =>
      exact congrArg (fun node : Node => [node.kind]) (node_newNode_self _ region)
  | block region _ below _ =>
      rw [List.map_singleton, ((below.planted (hw.withScopes _)).wrap_self _ region).1]

end Sown

/-! ## Following the syntax -/

theorem sown_plantExpr (scope : ScopeId) {e : Expr} (hwell : e.WellWritten) : ∀ {t : Tree},
    Sown scope t (plantExpr scope t e).2 [(plantExpr scope t e).1] [e.kind scope] := by
  induction e with
  | number n region =>
      intro t
      exact .wrap (.number n) region trivial rfl .nothing
  | string s region =>
      intro t
      exact .wrap (.string s) region trivial rfl .nothing
  | identifier name region =>
      intro t
      exact .identifier name region
  | operation operator region lhs rhs ihl ihr =>
      intro t
      obtain ⟨hoperator, hl, hr⟩ := hwell
      have hadmits :
          (NodeKind.operation operator).admits [lhs.kind scope, rhs.kind scope] = true := by
        simp [NodeKind.admits, hoperator, Expr.isOperand_kind]
      exact .wrap (.operation operator) region trivial hadmits ((ihl hl).append (ihr hr))

theorem sown_plantExpression (scope : ScopeId) {e : Expression} (hwell : e.value.WellWritten) :
    Sown scope t (plantExpression scope t e).2 [(plantExpression scope t e).1] [.expression] := by
  refine .wrap .expression e.region trivial ?_ (sown_plantExpr scope hwell)
  exact e.value.isOperand_kind scope

/-- A statement goes on top of what it says. -/
theorem Sown.wrapStatement {n : NodeId} {kind : NodeKind} (h : Sown scope t t' [n] [kind])
    (hsaid : kind.isSaid = true) :
    Sown scope t (t'.wrapStatement n).2 [(t'.wrapStatement n).1] [.statement] := by
  refine .wrap .statement (t'.fullRegion n) trivial ?_ h
  exact hsaid

mutual

theorem sown_plantStatement (scope : ScopeId) (st : Statement) (hwell : st.WellWritten)
    {t : Tree} :
    Sown scope t (plantStatement scope t st).2 [(plantStatement scope t st).1] [.statement] := by
  match st with
  | .assignment name region value =>
      rw [Statement.WellWritten] at hwell
      have hassigned := Sown.wrap (.assignment name scope) region rfl rfl
        (sown_plantExpression (t := t) scope hwell.2)
      exact hassigned.wrapStatement rfl
  | .rule name expected replacement region =>
      have hrule : Sown scope t _ _ _ :=
        .wrap (.rule name expected replacement) region trivial rfl .nothing
      exact hrule.wrapStatement rfl
  | .block region body =>
      rw [Statement.WellWritten] at hwell
      have hbody := sown_plantAll (t.scopes.createAnonymous scope).1 body hwell
        (t := { t with scopes := (t.scopes.createAnonymous scope).2 })
      exact (Sown.block region (by simp [NodeKind.isStatement]) hbody).wrapStatement rfl
  | .expression value =>
      rw [Statement.WellWritten] at hwell
      exact (sown_plantExpression scope hwell).wrapStatement rfl

theorem sown_plantAll (scope : ScopeId) (sts : List Statement)
    (hwell : Statement.AllWellWritten sts) {t : Tree} :
    Sown scope t (plantAll scope t sts).2 (plantAll scope t sts).1
      (sts.map fun _ => .statement) := by
  match sts with
  | [] => exact .nothing
  | st :: more =>
      rw [Statement.AllWellWritten] at hwell
      exact (sown_plantStatement scope st hwell.1).append (sown_plantAll scope more hwell.2)

end

/-- A tree that was read is the empty one after statements were planted in the
global scope and put below the root. -/
theorem exists_sown {source : String} (h : ofSource source = .ok t) :
    ∃ t' ns ks, Sown Scopes.global empty t' ns ks ∧ ks.all NodeKind.isStatement = true ∧
      t = t'.addChildren root ns := by
  rw [ofSource] at h
  split at h
  · next program hprogram =>
      cases h
      exact ⟨_, _, _, sown_plantAll Scopes.global program (Statement.wellWritten_ofSource hprogram),
        by simp [NodeKind.isStatement], rfl⟩
  · cases h

end Tree

end Lindenmayer
