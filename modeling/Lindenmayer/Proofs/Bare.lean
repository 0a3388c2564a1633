import Lindenmayer.Proofs.Planting
import Lindenmayer.Tree.Printer

/-!
# Trees without their regions

Regions say where a part was read and nothing else depends on them: neither
which nodes are made, nor how they are linked, nor which names are declared, nor
what is printed. All of that is the statement that making a tree commutes with
`bare`, which forgets the regions, on both sides.
-/

namespace Lindenmayer

/-- A node that was read nowhere. -/
def Node.bare (node : Node) : Node := { node with region := .origin }

/-- A tree without regions. -/
def Tree.bare (t : Tree) : Tree := { t with nodes := t.nodes.map Node.bare }

def Expr.bare : Expr → Expr
  | .number n _ => .number n .origin
  | .string s _ => .string s .origin
  | .identifier name _ => .identifier name .origin
  | .operation operator _ lhs rhs => .operation operator .origin lhs.bare rhs.bare

def Expression.bare (e : Expression) : Expression := ⟨e.value.bare, .origin⟩

mutual

def Statement.bare : Statement → Statement
  | .assignment name _ value => .assignment name .origin value.bare
  | .rule name expected replacement _ => .rule name expected replacement .origin
  | .block _ body => .block .origin (Statement.bareAll body)
  | .expression value => .expression value.bare

def Statement.bareAll : List Statement → List Statement
  | [] => []
  | st :: more => st.bare :: Statement.bareAll more

end

namespace Tree

variable (t : Tree)

/-! ## The operations on nodes -/

@[simp] theorem size_bare : t.bare.size = t.size := Array.size_map

@[simp] theorem scopes_bare : t.bare.scopes = t.scopes := rfl

theorem node_bare (n : NodeId) : t.bare.node n = (t.node n).bare := by
  rw [node, bare, Array.getElem?_map, node]
  cases t.nodes[n.index]? with
  | none => rfl
  | some node => rfl

theorem kind_bare (n : NodeId) : t.bare.kind n = t.kind n := by
  rw [kind, node_bare]
  rfl

theorem region_bare (n : NodeId) : t.bare.region n = .origin := by
  rw [region, node_bare]
  rfl

theorem parent_bare (n : NodeId) : t.bare.parent n = t.parent n := by
  rw [parent, node_bare]
  rfl

theorem children_bare (n : NodeId) : t.bare.children n = t.children n := by
  rw [children, node_bare]
  rfl

theorem bare_newNode (kind : NodeKind) (region : Region) :
    (t.newNode kind region).2.bare = (t.bare.newNode kind .origin).2 := by
  rw [newNode, bare, newNode, bare, Array.map_push]
  rfl

theorem bare_modify (n : NodeId) {f : Node → Node} (hf : ∀ node, (f node).bare = f node.bare) :
    (t.modify n f).bare = t.bare.modify n f := by
  rw [modify, bare, modify, bare]
  congr 1
  apply Array.ext
  · simp
  · intro i h₁ h₂
    simp only [Array.getElem_map, Array.getElem_modify]
    split
    · exact hf _
    · rfl

theorem bare_detach (n : NodeId) : (t.detach n).bare = t.bare.detach n := by
  rw [detach, detach, parent_bare]
  split
  · rfl
  · rw [bare_modify, bare_modify]
    · exact fun _ => rfl
    · exact fun _ => rfl

theorem bare_addChild (p c : NodeId) : (t.addChild p c).bare = t.bare.addChild p c := by
  rw [addChild, addChild, bare_modify, bare_modify, bare_detach]
  · exact fun _ => rfl
  · exact fun _ => rfl

theorem bare_addChildren (p : NodeId) (cs : List NodeId) :
    (t.addChildren p cs).bare = t.bare.addChildren p cs := by
  induction cs generalizing t with
  | nil => rfl
  | cons c cs ih => exact (ih (t.addChild p c)).trans (by rw [bare_addChild]; rfl)

theorem size_congr {t t' : Tree} (h : t.bare = t'.bare) : t.size = t'.size := by
  rw [← size_bare t, h, size_bare]

/-! ## Planting -/

variable {t t' : Tree}

theorem bare_newNode_congr (h : t.bare = t'.bare) (kind : NodeKind) (region region' : Region) :
    (t.newNode kind region).2.bare = (t'.newNode kind region').2.bare := by
  rw [bare_newNode, bare_newNode, h]

theorem bare_wrap_congr (h : t.bare = t'.bare) {cs cs' : List NodeId} (hcs : cs = cs')
    (kind : NodeKind) (region region' : Region) :
    ((t.newNode kind region).2.addChildren ⟨t.size⟩ cs).bare =
      ((t'.newNode kind region').2.addChildren ⟨t'.size⟩ cs').bare := by
  rw [bare_addChildren, bare_addChildren, bare_newNode_congr h kind region region', size_congr h,
    hcs]

theorem bare_plantExpr (scope : ScopeId) (e : Expr) : ∀ {t t' : Tree}, t.bare = t'.bare →
    (plantExpr scope t e).1 = (plantExpr scope t' e.bare).1 ∧
    (plantExpr scope t e).2.bare = (plantExpr scope t' e.bare).2.bare := by
  induction e with
  | number n region =>
      intro t t' h
      exact ⟨congrArg NodeId.mk (size_congr h), bare_newNode_congr h (.number n) region _⟩
  | string s region =>
      intro t t' h
      exact ⟨congrArg NodeId.mk (size_congr h), bare_newNode_congr h (.string s) region _⟩
  | identifier name region =>
      intro t t' h
      have hid : (⟨t.size⟩ : NodeId) = ⟨t'.size⟩ := congrArg NodeId.mk (size_congr h)
      have hscopes : (t.scopes.declare scope name (some ⟨t.size⟩)).2 =
          (t'.scopes.declare scope name (some ⟨t'.size⟩)).2 := by
        rw [hid, ← scopes_bare t, h, scopes_bare]
      have hnode := bare_newNode_congr h (.identifier name scope) region .origin
      exact ⟨hid, congrArg₂ (fun u scopes => ({ u with scopes } : Tree)) hnode hscopes⟩
  | operation operator region lhs rhs ihl ihr =>
      intro t t' h
      obtain ⟨hl, hlt⟩ := ihl h
      obtain ⟨hr, hrt⟩ := ihr hlt
      rw [plantExpr_operation, Expr.bare, plantExpr_operation]
      refine ⟨congrArg NodeId.mk (size_congr hrt), bare_wrap_congr hrt ?_ _ _ _⟩
      rw [hl, hr]

theorem bare_plantExpression (scope : ScopeId) (e : Expression) (h : t.bare = t'.bare) :
    (plantExpression scope t e).1 = (plantExpression scope t' e.bare).1 ∧
    (plantExpression scope t e).2.bare = (plantExpression scope t' e.bare).2.bare := by
  obtain ⟨hv, hvt⟩ := bare_plantExpr scope e.value h
  exact ⟨congrArg NodeId.mk (size_congr hvt),
    bare_wrap_congr hvt (congrArg (fun n => [n]) hv) .expression e.region _⟩

theorem bare_wrapStatement (h : t.bare = t'.bare) {n n' : NodeId} (hn : n = n') :
    (t.wrapStatement n).1 = (t'.wrapStatement n').1 ∧
    (t.wrapStatement n).2.bare = (t'.wrapStatement n').2.bare :=
  ⟨congrArg NodeId.mk (size_congr h),
    bare_wrap_congr h (congrArg (fun n => [n]) hn) .statement _ _⟩

theorem bare_statement (h : t.bare = t'.bare) {cs cs' : List NodeId} (hcs : cs = cs')
    (kind : NodeKind) (region region' : Region) :
    (((t.newNode kind region).2.addChildren ⟨t.size⟩ cs).wrapStatement ⟨t.size⟩).1 =
      (((t'.newNode kind region').2.addChildren ⟨t'.size⟩ cs').wrapStatement ⟨t'.size⟩).1 ∧
    (((t.newNode kind region).2.addChildren ⟨t.size⟩ cs).wrapStatement ⟨t.size⟩).2.bare =
      (((t'.newNode kind region').2.addChildren ⟨t'.size⟩ cs').wrapStatement ⟨t'.size⟩).2.bare :=
  bare_wrapStatement (bare_wrap_congr h hcs kind region region')
    (congrArg NodeId.mk (size_congr h))

mutual

theorem bare_plantStatement (scope : ScopeId) (st : Statement) {t t' : Tree}
    (h : t.bare = t'.bare) :
    (plantStatement scope t st).1 = (plantStatement scope t' st.bare).1 ∧
    (plantStatement scope t st).2.bare = (plantStatement scope t' st.bare).2.bare := by
  match st with
  | .assignment name region value =>
      obtain ⟨hv, hvt⟩ := bare_plantExpression scope value h
      rw [Statement.bare, plantStatement, plantStatement]
      exact bare_statement hvt (congrArg (fun n => [n]) hv) _ _ _
  | .rule name expected replacement region =>
      have hinner := bare_newNode_congr h (.rule name expected replacement) region .origin
      rw [Statement.bare, plantStatement, plantStatement]
      exact bare_wrapStatement hinner (congrArg NodeId.mk (size_congr h))
  | .block region body =>
      have hscopes : t.scopes = t'.scopes := by rw [← scopes_bare t, h, scopes_bare]
      have hinner : ({ t with scopes := (t.scopes.createAnonymous scope).2 } : Tree).bare =
          ({ t' with scopes := (t'.scopes.createAnonymous scope).2 } : Tree).bare := by
        rw [hscopes]
        exact congrArg
          (fun u => ({ u with scopes := (t'.scopes.createAnonymous scope).2 } : Tree)) h
      obtain ⟨hids, hbare⟩ := bare_plantAll (t.scopes.createAnonymous scope).1 body hinner
      rw [Statement.bare, plantStatement, plantStatement]
      rw [hscopes] at hids hbare ⊢
      exact bare_statement hbare hids _ _ _
  | .expression value =>
      obtain ⟨hv, hvt⟩ := bare_plantExpression scope value h
      rw [Statement.bare, plantStatement, plantStatement]
      exact bare_wrapStatement hvt hv

theorem bare_plantAll (scope : ScopeId) (sts : List Statement) {t t' : Tree}
    (h : t.bare = t'.bare) :
    (plantAll scope t sts).1 = (plantAll scope t' (Statement.bareAll sts)).1 ∧
    (plantAll scope t sts).2.bare = (plantAll scope t' (Statement.bareAll sts)).2.bare := by
  match sts with
  | [] => exact ⟨rfl, h⟩
  | st :: more =>
      obtain ⟨hfirst, hbare⟩ := bare_plantStatement scope st h
      obtain ⟨hrest, hbare'⟩ := bare_plantAll scope more hbare
      rw [Statement.bareAll, plantAll, plantAll]
      exact ⟨congrArg₂ List.cons hfirst hrest, hbare'⟩

end

/-- What is planted depends on the statements only up to regions. -/
theorem bare_ofStatements {p q : List Statement}
    (h : Statement.bareAll p = Statement.bareAll q) :
    (ofStatements p).bare = (ofStatements q).bare := by
  obtain ⟨hp, hpt⟩ := bare_plantAll Scopes.global p (rfl : empty.bare = empty.bare)
  obtain ⟨hq, hqt⟩ := bare_plantAll Scopes.global q (rfl : empty.bare = empty.bare)
  rw [h] at hp hpt
  have hfirst : (ofStatements p).bare =
      (plantAll Scopes.global empty p).2.bare.addChildren root (plantAll Scopes.global empty p).1 :=
    bare_addChildren _ _ _
  have hsecond : (ofStatements q).bare =
      (plantAll Scopes.global empty q).2.bare.addChildren root (plantAll Scopes.global empty q).1 :=
    bare_addChildren _ _ _
  rw [hfirst, hsecond, hp, hpt, hq, hqt]

end Tree

/-! ## Printing -/

namespace Subtree

mutual

/-- A subtree without regions. -/
def bare : Subtree → Subtree
  | node id kind _ children => node id kind .origin (bareAll children)

def bareAll : List Subtree → List Subtree
  | [] => []
  | s :: more => bare s :: bareAll more

end

theorem needsParens_bare (around : Operator) (onRight : Bool) (s : Subtree) :
    needsParens around onRight s.bare = needsParens around onRight s := by
  cases s with
  | node id kind region children =>
      rw [bare]
      cases kind <;> rfl

mutual

theorem print_bare (depth : Nat) (s : Subtree) : s.bare.print depth = s.print depth := by
  match s with
  | node id kind region children =>
      rw [bare]
      cases kind with
      | root scope => rw [print, print, printStatements_bare depth children]
      | statement => rw [print, print, printAll_bare depth children]
      | expression => rw [print, print, printAll_bare depth children]
      | assignment name scope => rw [print, print, printAll_bare depth children]
      | rule name expected replacement => rw [print, print]
      | block scope => rw [print, print, printStatements_bare (depth + 1) children]
      | operation operator => rw [print, print, printOperation_bare depth operator children]
      | identifier name scope => rw [print, print]
      | number n => rw [print, print]
      | string s => rw [print, print]

theorem printAll_bare (depth : Nat) (ss : List Subtree) :
    printAll depth (bareAll ss) = printAll depth ss := by
  match ss with
  | [] => rfl
  | s :: more => rw [bareAll, printAll, printAll, print_bare depth s, printAll_bare depth more]

theorem printStatements_bare (depth : Nat) (ss : List Subtree) :
    printStatements depth (bareAll ss) = printStatements depth ss := by
  match ss with
  | [] => rfl
  | [s] => rw [bareAll, bareAll, printStatements, printStatements, print_bare depth s]
  | s :: s' :: more =>
      have hmore := printStatements_bare depth (s' :: more)
      rw [bareAll] at hmore
      rw [bareAll, bareAll, printStatements, printStatements, print_bare depth s, hmore]

theorem printOperation_bare (depth : Nat) (operator : Operator) (ss : List Subtree) :
    printOperation depth operator (bareAll ss) = printOperation depth operator ss := by
  match ss with
  | [] => rfl
  | [s] =>
      rw [bareAll, bareAll, printOperation, printOperation, operandText, operandText,
        needsParens_bare, print_bare depth s]
  | s :: s' :: more =>
      rw [bareAll, bareAll, printOperation, printOperation, operandText, operandText, operandText,
        operandText, needsParens_bare, needsParens_bare, print_bare depth s, print_bare depth s']

end

end Subtree

namespace Tree

theorem subtreeWithin_bare (t : Tree) (depth : Nat) (n : NodeId) :
    t.bare.subtreeWithin depth n = (t.subtreeWithin depth n).bare := by
  induction depth generalizing n with
  | zero => rw [subtreeWithin, subtreeWithin, Subtree.bare, Subtree.bareAll, kind_bare, region_bare]
  | succ depth ih =>
      have hmap : ∀ ns : List NodeId, ns.map (t.bare.subtreeWithin depth) =
          Subtree.bareAll (ns.map (t.subtreeWithin depth)) := by
        intro ns
        induction ns with
        | nil => rfl
        | cons m ns ihn => rw [List.map_cons, List.map_cons, Subtree.bareAll, ih m, ihn]
      rw [subtreeWithin, subtreeWithin, Subtree.bare, kind_bare, region_bare, children_bare, hmap]

theorem print_congr {t t' : Tree} (h : t.bare = t'.bare) (n : NodeId) : t.print n = t'.print n := by
  rw [print, print, ← Subtree.print_bare, ← Subtree.print_bare 0 (t'.subtree n), subtree, subtree,
    ← subtreeWithin_bare, ← subtreeWithin_bare, h, size_congr h]

end Tree

end Lindenmayer
