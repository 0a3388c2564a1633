import Lindenmayer.Proofs.Acceptance
import Lindenmayer.Proofs.InStep
import Lindenmayer.Proofs.Listing
import Lindenmayer.Proofs.Nesting
import Lindenmayer.Proofs.Sowing
import Mathlib.Data.List.Perm.Basic

/-!
# Nothing is lost in an expression

Not all that is read as an expression is one of the grammar, so no derivation says
what becomes of its tokens. What can be said of any is an account of them:
`Accounts` takes the tokens one by one and writes down an operand for each literal,
name and string, and a sign for each operator. Blanks and parentheses add nothing.

The two stacks hold the same account in another form. Their values, from the bottom
up, have the operands as leaves, in order, because an operation takes the two values
on top and puts them side by side. Signs move from the stack of operators into the
values, and there they are in whatever order they were applied; so of these all that
can be said is that none is lost and none is made (`Holds`). Nothing that is done to
the stacks changes either, wherever it is done from: in front of a tighter operator,
at a closing parenthesis or at the end.

What is planted for an expression is in the order of its leaves and signs, each node
behind those below it, and nothing else is planted (`Bears`).
-/

namespace Lindenmayer

/-! ## Leaves and signs -/

namespace Expr

def region : Expr → Region
  | .number _ region => region
  | .string _ region => region
  | .identifier _ region => region
  | .operation _ region _ _ => region

/-- The operands that are no operations themselves, from left to right. -/
def leaves : Expr → List Expr
  | .operation _ _ lhs rhs => lhs.leaves ++ rhs.leaves
  | e => [e]

/-- The operators with their places, from left to right and from the bottom up. -/
def signs : Expr → List (Operator × Region)
  | .operation operator region lhs rhs => lhs.signs ++ rhs.signs ++ [(operator, region)]
  | _ => []

/-- An expression has one operand more than it has operators. -/
theorem length_leaves (e : Expr) : e.leaves.length = e.signs.length + 1 := by
  induction e with
  | number | string | identifier => rfl
  | operation _ _ _ _ ihl ihr =>
      rw [leaves, signs, List.length_append, List.length_append, List.length_append, ihl, ihr,
        List.length_singleton]
      omega

end Expr

/-! ## An account of tokens -/

/-- What the tokens of an expression account for: operands and operators, each in the
order of the source. -/
inductive Accounts : List Token → List Expr → List (Operator × Region) → Prop where
  | nil : Accounts [] [] []
  | silent {t : Token} {ts : List Token} {es : List Expr} {os : List (Operator × Region)}
      (hkind : t.kind = .whitespace ∨ t.kind = .parensOpen ∨ t.kind = .parensClose)
      (more : Accounts ts es os) : Accounts (t :: ts) es os
  | identifier {t : Token} {ts : List Token} {es : List Expr} {os : List (Operator × Region)}
      (hkind : t.kind = .identifier) (more : Accounts ts es os) :
      Accounts (t :: ts) (.identifier t.text t.region :: es) os
  | number {t : Token} {n : Number} {ts : List Token} {es : List Expr}
      {os : List (Operator × Region)} (hkind : t.kind = .number)
      (hvalue : Number.ofLiteral? t.text = some n) (more : Accounts ts es os) :
      Accounts (t :: ts) (.number n t.region :: es) os
  | string {opening closing : Token} {body ts : List Token} {es : List Expr}
      {os : List (Operator × Region)} (hopen : opening.kind = .quote)
      (hbody : ∀ t ∈ body, ¬ t.closes opening) (hclose : closing.closes opening)
      (more : Accounts ts es os) :
      Accounts (opening :: (body ++ closing :: ts))
        (.string (stringContent body) (opening.region.merge closing.region) :: es) os
  | sign {t : Token} {o : Operator} {ts : List Token} {es : List Expr}
      {os : List (Operator × Region)} (ho : o ≠ .parens) (hsign : t.isSign o)
      (more : Accounts ts es os) : Accounts (t :: ts) es ((o, t.region) :: os)

namespace Accounts

variable {ts us : List Token} {es fs : List Expr} {os ps : List (Operator × Region)}

theorem append (h : Accounts ts es os) (h' : Accounts us fs ps) :
    Accounts (ts ++ us) (es ++ fs) (os ++ ps) := by
  induction h with
  | nil => exact h'
  | silent hkind _ ih => exact .silent hkind ih
  | identifier hkind _ ih => exact .identifier hkind ih
  | number hkind hvalue _ ih => exact .number hkind hvalue ih
  | sign ho hsign _ ih => exact .sign ho hsign ih
  | string hopen hbody hclose _ ih =>
      rw [List.cons_append, List.append_assoc, List.cons_append]
      exact .string hopen hbody hclose ih

/-- What is silent adds nothing behind a text either. -/
theorem silentAfter {t : Token} (h : Accounts ts es os)
    (hkind : t.kind = .whitespace ∨ t.kind = .parensOpen ∨ t.kind = .parensClose) :
    Accounts (ts ++ [t]) es os := by
  have happend := h.append (.silent hkind .nil)
  rwa [List.append_nil, List.append_nil] at happend

theorem operation {t : Token} {o : Operator} (ho : o ≠ .parens) (hsign : t.isSign o)
    (h : Accounts ts es os) (h' : Accounts us fs ps) :
    Accounts (ts ++ t :: us) (es ++ fs) (os ++ (o, t.region) :: ps) :=
  h.append (.sign ho hsign h')

end Accounts

/-- An operator comes behind both of its operands among the signs, and stands between them
in the text. -/
theorem signs_operation_perm {os ps : List (Operator × Region)} {l r : Expr} {o : Operator}
    {place : Region} (hl : l.signs.Perm os) (hr : r.signs.Perm ps) :
    (Expr.operation o place l r).signs.Perm (os ++ (o, place) :: ps) := by
  have hlast : (os ++ (ps ++ [(o, place)])).Perm (os ++ (o, place) :: ps) :=
    (List.perm_append_singleton _ ps).append_left os
  rw [← List.append_assoc] at hlast
  exact ((hl.append hr).append_right _).trans hlast

theorem ne_parens_of_or {o a b : Operator} (ho : o = a ∨ o = b) (ha : a ≠ .parens)
    (hb : b ≠ .parens) : o ≠ .parens := by
  rcases ho with rfl | rfl
  · exact ha
  · exact hb

/-- The tree of a derivation has the leaves that its tokens account for, and their
signs. -/
theorem accounts_of_derives {level : Level} {ts : List Token} {e : Expr}
    (h : Derives level ts e) : ∃ os, Accounts ts e.leaves os ∧ e.signs.Perm os := by
  induction h with
  | number hkind hvalue => exact ⟨[], .number hkind hvalue .nil, .nil⟩
  | identifier hkind => exact ⟨[], .identifier hkind .nil, .nil⟩
  | string hopen hbody hclose => exact ⟨[], .string hopen hbody hclose .nil, .nil⟩
  | parens hopen _ hclose ih =>
      obtain ⟨os, haccounts, hperm⟩ := ih
      exact ⟨os, .silent (.inr (.inl hopen)) (haccounts.silentAfter (.inr (.inr hclose))), hperm⟩
  | ofFactor _ ih => exact ih
  | ofTerm _ ih => exact ih
  | product _ ho hsign _ ihl ihr =>
      obtain ⟨os, hl, hperml⟩ := ihl
      obtain ⟨ps, hr, hpermr⟩ := ihr
      have hne := ne_parens_of_or ho (by decide) (by decide)
      exact ⟨_, hl.operation hne hsign hr, signs_operation_perm hperml hpermr⟩
  | sum _ ho hsign _ ihl ihr =>
      obtain ⟨os, hl, hperml⟩ := ihl
      obtain ⟨ps, hr, hpermr⟩ := ihr
      have hne := ne_parens_of_or ho (by decide) (by decide)
      exact ⟨_, hl.operation hne hsign hr, signs_operation_perm hperml hpermr⟩
  | blankBefore hkind _ ih =>
      obtain ⟨os, haccounts, hperm⟩ := ih
      exact ⟨os, .silent (.inl hkind) haccounts, hperm⟩
  | blankAfter _ hkind ih =>
      obtain ⟨os, haccounts, hperm⟩ := ih
      exact ⟨os, haccounts.silentAfter (.inl hkind), hperm⟩

/-! ## The account that the stacks hold -/

namespace ShuntingYard

variable {ops ops' : List (Operator × Region)} {vals vals' : List Expr} {es : List Expr}
  {os : List (Operator × Region)}

/-- The operators that wait on a stack, parentheses aside. -/
def waiting (ops : List (Operator × Region)) : List (Operator × Region) :=
  ops.filter fun op => op.1 ≠ .parens

theorem waiting_parens (place : Region) : waiting ((.parens, place) :: ops) = waiting ops :=
  List.filter_cons_of_neg (by simp)

theorem waiting_cons {o : Operator} (ho : o ≠ .parens) (place : Region) :
    waiting ((o, place) :: ops) = (o, place) :: waiting ops :=
  List.filter_cons_of_pos (by simpa using ho)

/-- Whether two stacks hold these operands, in order from the bottom up, and these
operators. -/
structure Holds (ops : List (Operator × Region)) (vals : List Expr) (es : List Expr)
    (os : List (Operator × Region)) : Prop where
  leaves : vals.reverse.flatMap Expr.leaves = es
  signs : (vals.flatMap Expr.signs ++ waiting ops).Perm os

namespace Holds

theorem push {fs : List Expr} {ps : List (Operator × Region)} {e : Expr}
    (h : Holds ops vals es os) (hleaves : e.leaves = fs) (hsigns : e.signs.Perm ps) :
    Holds ops (e :: vals) (es ++ fs) (os ++ ps) where
  leaves := by
    rw [List.reverse_cons, List.flatMap_append, h.leaves, List.flatMap_singleton, hleaves]
  signs := by
    rw [List.flatMap_cons, List.append_assoc]
    exact (hsigns.append h.signs).trans List.perm_append_comm

theorem parens (h : Holds ops vals es os) (place : Region) :
    Holds ((.parens, place) :: ops) vals es os :=
  ⟨h.leaves, by rw [waiting_parens]; exact h.signs⟩

theorem sign {o : Operator} (ho : o ≠ .parens) (place : Region) (h : Holds ops vals es os) :
    Holds ((o, place) :: ops) vals es (os ++ [(o, place)]) where
  leaves := h.leaves
  signs := by
    rw [waiting_cons ho]
    exact (List.perm_middle.trans (h.signs.cons _)).trans (List.perm_append_singleton _ os).symm

/-- An operator that is applied stands among the signs of the value that it makes. -/
theorem apply {o : Operator} {place : Region} (ho : o ≠ .parens)
    (h : Holds ((o, place) :: ops) vals es os) (happly : apply o place vals = .ok vals') :
    Holds ops vals' es os := by
  unfold ShuntingYard.apply at happly
  split at happly
  · next rhs lhs below =>
      cases happly
      constructor
      · rw [← h.leaves]
        simp only [List.reverse_cons, List.flatMap_append, List.flatMap_singleton, Expr.leaves,
          List.append_assoc]
      · refine List.Perm.trans ?_ h.signs
        rw [waiting_cons ho]
        simp only [List.flatMap_cons, Expr.signs, List.append_assoc, List.singleton_append]
        -- The operands change places, and the operator comes up from the other stack.
        have hmiddle : ((o, place) :: (below.flatMap Expr.signs ++ waiting ops)).Perm
            (below.flatMap Expr.signs ++ (o, place) :: waiting ops) := List.perm_middle.symm
        rw [← List.append_assoc, ← List.append_assoc rhs.signs]
        exact List.perm_append_comm.append hmiddle
  · cases happly

theorem applies (happlies : Applies (· ≠ .parens) ops vals ops' vals')
    (h : Holds ops vals es os) : Holds ops' vals' es os := by
  induction happlies with
  | done => exact h
  | apply htop happly _ ih => exact ih (h.apply htop happly)

theorem applyTighter {next : Operator} (h : Holds ops vals es os)
    (hyield : applyTighter next ops vals = .ok (ops', vals')) : Holds ops' vals' es os :=
  h.applies (applies_of_applyTighter hyield).1.ne_parens

theorem closeParens {close : Region} (h : Holds ops vals es os)
    (hclose : closeParens close ops vals = .ok (ops', vals')) : Holds ops' vals' es os := by
  obtain ⟨place, happlies⟩ := applies_of_closeParens hclose
  obtain ⟨hleaves, hsigns⟩ := h.applies happlies
  rw [waiting_parens] at hsigns
  exact ⟨hleaves, hsigns⟩

theorem applyAll (h : Holds ops vals es os) (hall : applyAll ops vals = .ok vals') :
    Holds [] vals' es os :=
  h.applies (applies_of_applyAll hall)

end Holds

/-- Tokens that are taken in add to what the stacks hold what they account for. -/
theorem holds_of_takes {final : ShuntingYard} {ts : List Token} (h : Takes final ts ops vals)
    (hholds : Holds ops vals es os) :
    ∃ fs ps, Accounts ts fs ps ∧ Holds final.operators final.values (es ++ fs) (os ++ ps) := by
  induction h generalizing es os with
  | done => exact ⟨[], [], .nil, by rwa [List.append_nil, List.append_nil]⟩
  | blank hkind _ ih =>
      obtain ⟨fs, ps, haccounts, hfinal⟩ := ih hholds
      exact ⟨fs, ps, .silent (.inl hkind) haccounts, hfinal⟩
  | @operand us ts e ops vals he _ ih =>
      obtain ⟨qs, hoperand, hperm⟩ := accounts_of_derives he
      obtain ⟨fs, ps, haccounts, hfinal⟩ := ih (hholds.push rfl hperm)
      rw [List.append_assoc, List.append_assoc] at hfinal
      exact ⟨_, _, hoperand.append haccounts, hfinal⟩
  | parensOpen hkind _ ih =>
      obtain ⟨fs, ps, haccounts, hfinal⟩ := ih (hholds.parens _)
      exact ⟨fs, ps, .silent (.inr (.inl hkind)) haccounts, hfinal⟩
  | parensClose hkind hclose _ ih =>
      obtain ⟨fs, ps, haccounts, hfinal⟩ := ih (hholds.closeParens hclose)
      exact ⟨fs, ps, .silent (.inr (.inr hkind)) haccounts, hfinal⟩
  | @operator t ts o ops ops' vals vals' ho hsign hyield _ ih =>
      obtain ⟨fs, ps, haccounts, hfinal⟩ := ih ((hholds.applyTighter hyield).sign ho t.region)
      rw [List.append_assoc, List.singleton_append] at hfinal
      exact ⟨fs, _, .sign ho hsign haccounts, hfinal⟩

end ShuntingYard

open ShuntingYard in
/-- What was read as an expression has the leaves that the tokens in front of its end
account for, and their signs. -/
theorem accounts_of_readExpression {stop : Nat} {ts rest : List Token} {e : Expression}
    (hts : ∀ t ∈ ts, t.Lexical) (h : readExpression stop ts = .ok (e, rest)) :
    ∃ taken os, ts = taken ++ rest ∧ EndsExpression rest ∧ Accounts taken e.value.leaves os ∧
      e.value.signs.Perm os := by
  rw [readExpression] at h
  split at h
  · cases h
  · next y rest' hread =>
      split at h
      · cases h
      · next e' hfinish =>
          cases h
          obtain ⟨taken, rfl, hend, htakes⟩ := takes_of_read hts hread
          have hstart : Holds [] [] [] [] := ⟨rfl, .nil⟩
          obtain ⟨fs, ps, haccounts, hfinal⟩ := holds_of_takes htakes hstart
          obtain ⟨hleaves, hsigns⟩ := hfinal.applyAll (applyAll_of_finish hfinish)
          have hleaves : e.value.leaves = fs := by simpa using hleaves
          have hsigns : e.value.signs.Perm ps := by simpa [waiting] using hsigns
          exact ⟨taken, ps, rfl, hend, hleaves ▸ haccounts, hsigns⟩

/-! ## The nodes that an expression is planted as -/

namespace Subtree

mutual

/-- The nodes that have nothing below them, from left to right. -/
def leaves : Subtree → List Subtree
  | node id kind region children =>
    if children.isEmpty then [node id kind region children] else leavesAll children

def leavesAll : List Subtree → List Subtree
  | [] => []
  | s :: more => leaves s ++ leavesAll more

end

mutual

/-- The nodes that have something below them, children before parents. -/
def branches : Subtree → List Subtree
  | node id kind region children =>
    branchesAll children ++ if children.isEmpty then [] else [node id kind region children]

def branchesAll : List Subtree → List Subtree
  | [] => []
  | s :: more => branches s ++ branchesAll more

end

theorem leaves_pair (id : NodeId) (kind : NodeKind) (region : Region) (l r : Subtree) :
    (node id kind region [l, r]).leaves = l.leaves ++ r.leaves := by
  rw [leaves, if_neg (by simp), leavesAll, leavesAll, leavesAll, List.append_nil]

theorem branches_pair (id : NodeId) (kind : NodeKind) (region : Region) (l r : Subtree) :
    (node id kind region [l, r]).branches =
      l.branches ++ r.branches ++ [node id kind region [l, r]] := by
  rw [branches, if_neg (by simp), branchesAll, branchesAll, branchesAll, List.append_nil]

theorem postorder_pair (id : NodeId) (kind : NodeKind) (region : Region) (l r : Subtree) :
    (node id kind region [l, r]).postorder = l.postorder ++ r.postorder ++ [id] := by
  rw [postorder, postorderAll, postorderAll, postorderAll, List.append_nil]

end Subtree

namespace Expr

variable {scope : ScopeId}

/-- What a subtree that shows an expression has for leaves, branches and children. -/
theorem nodes_of_shows {e : Expr} : ∀ {s : Subtree}, e.Shows scope s →
    (s.leaves.map fun l => (l.kind, l.region)) = e.leaves.map (fun l => (l.kind scope, l.region)) ∧
    (s.branches.map fun b => (b.kind, b.region)) =
      e.signs.map (fun o => (.operation o.1, o.2)) ∧
    ∀ b ∈ s.branches, b.children.length = 2 := by
  induction e with
  | number n region =>
      rintro s ⟨id, rfl⟩
      exact ⟨rfl, rfl, fun b hb => nomatch hb⟩
  | string str region =>
      rintro s ⟨id, rfl⟩
      exact ⟨rfl, rfl, fun b hb => nomatch hb⟩
  | identifier name region =>
      rintro s ⟨id, rfl⟩
      exact ⟨rfl, rfl, fun b hb => nomatch hb⟩
  | operation operator region lhs rhs ihl ihr =>
      rintro s ⟨id, l, r, rfl, hl, hr⟩
      obtain ⟨hleavesl, hbranchesl, htwol⟩ := ihl hl
      obtain ⟨hleavesr, hbranchesr, htwor⟩ := ihr hr
      rw [Subtree.leaves_pair, Subtree.branches_pair, leaves, signs]
      refine ⟨?_, ?_, ?_⟩
      · rw [List.map_append, List.map_append, hleavesl, hleavesr]
      · rw [List.map_append, List.map_append, List.map_append, List.map_append, hbranchesl,
          hbranchesr]
        rfl
      · simp only [List.forall_mem_append, List.forall_mem_singleton]
        exact ⟨⟨htwol, htwor⟩, rfl⟩

end Expr

namespace Tree

/-- Whether a tree has a node for each of these operands and operators more than
another one, made in the order in which they are found below `n`, and no others. -/
structure Bears (scope : ScopeId) (t t' : Tree) (n : NodeId) (es : List Expr)
    (os : List (Operator × Region)) : Prop where
  /-- The leaves are the operands, in order. -/
  leaves : ((t'.subtree n).leaves.map fun s => (s.kind, s.region)) =
    es.map fun e => (e.kind scope, e.region)
  /-- All others are the operators, one for each. -/
  branches : ((t'.subtree n).branches.map fun s => (s.kind, s.region)).Perm
    (os.map fun o => (.operation o.1, o.2))
  two : ∀ s ∈ (t'.subtree n).branches, s.children.length = 2
  /-- The new nodes are those below `n`, each made after what is below it. -/
  allocated : (t'.subtree n).postorder =
    Subtree.namesFrom t.size (es.length + os.length)
  size : t'.size = t.size + (es.length + os.length)
  frame : ∀ m, m.index < t.size → t'.node m = t.node m

/-- Planting an expression makes a node for each leaf and each sign, in post-order. -/
theorem postorder_plantExpr (scope : ScopeId) (e : Expr) : ∀ {t : Tree}, t.WellLinked →
    ((plantExpr scope t e).2.subtree (plantExpr scope t e).1).postorder =
      Subtree.namesFrom t.size (e.leaves.length + e.signs.length) ∧
    (plantExpr scope t e).2.size = t.size + (e.leaves.length + e.signs.length) := by
  induction e with
  | number n region =>
      intro t hw
      obtain ⟨_, hsub⟩ := (Planted.refl hw).wrap (.number n) region
      exact ⟨congrArg Subtree.postorder hsub, size_newNode _ _⟩
  | string s region =>
      intro t hw
      obtain ⟨_, hsub⟩ := (Planted.refl hw).wrap (.string s) region
      exact ⟨congrArg Subtree.postorder hsub, size_newNode _ _⟩
  | identifier name region =>
      intro t hw
      obtain ⟨_, hsub⟩ := (Planted.refl hw).wrap (.identifier name scope) region
      exact ⟨congrArg Subtree.postorder ((subtree_withScopes _ _).trans hsub), size_newNode _ _⟩
  | operation operator region lhs rhs ihl ihr =>
      intro t hw
      obtain ⟨hl, _⟩ := plantExpr_shows scope lhs hw
      obtain ⟨hr, _⟩ := plantExpr_shows scope rhs hl.wellLinked
      obtain ⟨hordl, hsizel⟩ := ihl hw
      obtain ⟨hordr, hsizer⟩ := ihr hl.wellLinked
      have hkeep := hr.subtree_eq hl.wellLinked (hl.lt _ (List.mem_singleton.2 rfl))
      obtain ⟨_, hsub⟩ := (hl.trans hr).wrap (.operation operator) region
      have hcount : (Expr.operation operator region lhs rhs).leaves.length +
          (Expr.operation operator region lhs rhs).signs.length =
            (lhs.leaves.length + lhs.signs.length) +
              (rhs.leaves.length + rhs.signs.length) + 1 := by
        simp only [Expr.leaves, Expr.signs, List.length_append, List.length_singleton]
        omega
      rw [plantExpr_operation, newAbove, hcount]
      constructor
      · rw [← hkeep] at hordl
        refine (congrArg Subtree.postorder hsub).trans ?_
        rw [Subtree.namesFrom_concat, Subtree.namesFrom_add, List.map_append, List.map_singleton,
          List.map_singleton, List.singleton_append, Subtree.postorder_pair, hordl, hordr, hsizer,
          hsizel, Nat.add_assoc t.size]
      · rw [size_addChildren, size_newNode, hsizer, hsizel]
        omega

theorem bears_plantExpr (scope : ScopeId) (e : Expr) {os : List (Operator × Region)}
    (hos : e.signs.Perm os) {t : Tree} (hw : t.WellLinked) :
    Bears scope t (plantExpr scope t e).2 (plantExpr scope t e).1 e.leaves os := by
  obtain ⟨hplanted, hshows⟩ := plantExpr_shows scope e hw
  obtain ⟨hleaves, hbranches, htwo⟩ := Expr.nodes_of_shows hshows
  obtain ⟨hordered, hsize⟩ := postorder_plantExpr scope e hw
  rw [hos.length_eq] at hordered hsize
  exact ⟨hleaves, by rw [hbranches]; exact hos.map _, htwo, hordered, hsize, hplanted.frame⟩

end Tree

/-! ## Reading and planting -/

/-- Whatever is read as an expression accounts for the nodes that are planted, each
leaf and each operation, and there is one leaf more than there are operations. A
parser that makes its nodes while it reads makes the same. -/
theorem readExpression_bears {stop : Nat} {ts rest : List Token} {e : Expression}
    (hts : ∀ t ∈ ts, t.Lexical) (h : readExpression stop ts = .ok (e, rest)) :
    ∃ taken operands signs, ts = taken ++ rest ∧ EndsExpression rest ∧
      Accounts taken operands signs ∧ operands.length = signs.length + 1 ∧
      (∀ (scope : ScopeId) (t : Tree), t.WellLinked →
        Tree.Bears scope t (t.plantExpr scope e.value).2 (t.plantExpr scope e.value).1
          operands signs) ∧
      ∀ (p : Parser) (fuel : Nat), p.reader.At stop ts → ts.length < fuel → ∃ q : Parser,
        Parser.operatorPrecedence fuel p =
          some (.ok (((p.tree.plantExpr p.scope e.value).1, e.region), q)) ∧
        q.tree = (p.tree.plantExpr p.scope e.value).2 := by
  obtain ⟨taken, os, hsplit, hend, haccounts, hperm⟩ := accounts_of_readExpression hts h
  refine ⟨taken, e.value.leaves, os, hsplit, hend, haccounts, ?_, ?_, ?_⟩
  · rw [e.value.length_leaves, hperm.length_eq]
  · exact fun scope t hw => Tree.bears_plantExpr scope e.value hperm hw
  · intro p fuel hat hfuel
    have hgives := Parser.gives_operatorPrecedence hat hfuel
    rw [h] at hgives
    obtain ⟨⟨n, region⟩, q, hrun, _, _, hregion, hplanted⟩ := hgives
    obtain rfl : region = e.region := hregion
    rw [hplanted]
    exact ⟨q, hrun, rfl⟩

/-- In `1 (2 + 3) 4 * -` the difference comes last and is at the top. -/
theorem readExpression_bears_postfix :
    ∃ e taken operands signs, readExpression 15 (Token.scan "1 (2 + 3) 4 * -") = .ok (e, []) ∧
      Token.scan "1 (2 + 3) 4 * -" = taken ++ [] ∧ Accounts taken operands signs ∧
      operands.length = signs.length + 1 ∧
      Tree.Bears Scopes.global .empty (Tree.plantExpr Scopes.global .empty e.value).2
        (Tree.plantExpr Scopes.global .empty e.value).1 operands signs := by
  have hread : (readExpression 15 (Token.scan "1 (2 + 3) 4 * -")).toOption.any
      (fun r => r.2.isEmpty) = true := by decide +kernel
  obtain ⟨⟨e, rest⟩, h, hrest⟩ := Tree.ok_of_any hread
  obtain rfl : rest = [] := List.isEmpty_iff.1 hrest
  obtain ⟨taken, operands, signs, hsplit, _, haccounts, hlength, hbears, _⟩ :=
    readExpression_bears (fun t ht => Token.lexical_of_mem_scanFrom ht) h
  exact ⟨e, taken, operands, signs, h, hsplit, haccounts, hlength,
    hbears Scopes.global .empty Tree.empty_wellLinked⟩

end Lindenmayer
