import Lindenmayer.Proofs.Definitions
import Lindenmayer.Proofs.Lines
import Lindenmayer.Proofs.Scoping

/-!
# Programs that are put together

Two programs with a line end between them are a program. It has the statements of
both, those of the first as they are and those of the second further on, by the
same number of nodes, bytes and scopes throughout (`compose_lines`).

That reading goes on as if it had begun behind the line end is known already, and
what is left is planting. It takes new nodes and scopes in the order they come in,
so that two trees in which the same is planted stay at the distance they had before
(`PlantedTwice`), and the subtrees of the one are those of the other, moved by it.
Scopes are the reason why the distance cannot be read off the second program alone:
the global one is shared and only those of blocks are counted on.
-/

namespace Lindenmayer

open Shift (shift)

/-! ## Trees further on -/

/-- By how much the nodes, the bytes and the scopes of a program are further on
where it stands behind another one. -/
structure Offsets where
  nodes : Nat
  bytes : Nat
  scopes : Nat
  deriving DecidableEq, Repr

namespace Offsets

variable (o : Offsets)

def node (n : NodeId) : NodeId := ⟨n.index + o.nodes⟩

/-- There is one global scope, whatever is put together. -/
def scope (s : ScopeId) : ScopeId :=
  if s = Scopes.global then s else ⟨s.index + o.scopes⟩

def kind : NodeKind → NodeKind
  | .root scope => .root (o.scope scope)
  | .assignment name scope => .assignment name (o.scope scope)
  | .block scope => .block (o.scope scope)
  | .identifier name scope => .identifier name (o.scope scope)
  | .statement => .statement
  | .rule name expected replacement => .rule name expected replacement
  | .expression => .expression
  | .operation operator => .operation operator
  | .number n => .number n
  | .string s => .string s

mutual

def subtree : Subtree → Subtree
  | .node id kind region children =>
    .node (o.node id) (o.kind kind) (shift o.bytes region) (subtrees children)

def subtrees : List Subtree → List Subtree
  | [] => []
  | s :: more => subtree s :: subtrees more

end

theorem subtrees_eq (ss : List Subtree) : o.subtrees ss = ss.map o.subtree := by
  induction ss with
  | nil => rfl
  | cons s more ih => rw [subtrees, ih, List.map_cons]

mutual

/-- The region of a whole subtree is moved with it. -/
theorem fullRegion_subtree (s : Subtree) :
    (o.subtree s).fullRegion = shift o.bytes s.fullRegion := by
  match s with
  | .node id kind region children => exact coverAll_subtrees region children

theorem coverAll_subtrees (region : Region) (ss : List Subtree) :
    Subtree.coverAll (shift o.bytes region) (o.subtrees ss) =
      shift o.bytes (Subtree.coverAll region ss) := by
  match ss with
  | [] => rfl
  | s :: more =>
      rw [subtrees, Subtree.coverAll, Subtree.coverAll, fullRegion_subtree s, Region.shift_merge,
        coverAll_subtrees]

end

/-- Whether one tree is further on than another by so many nodes and scopes. -/
structure Between (t u : Tree) : Prop where
  size : u.size = t.size + o.nodes
  scopes : u.scopes.scopes.size = t.scopes.scopes.size + o.scopes
  global_lt : Scopes.global.index < t.scopes.scopes.size

end Offsets

namespace Tree

variable {o : Offsets} {t t' t'' u u' u'' : Tree} {ns ns' ms ms' : List NodeId}

/-- Whether the same was planted in two trees. -/
structure PlantedTwice (o : Offsets) (t t' : Tree) (ns : List NodeId) (u u' : Tree)
    (ms : List NodeId) : Prop where
  first : Planted t t' ns
  second : Planted u u' ms
  between : o.Between t' u'
  subtrees : ms.map u'.subtree = (ns.map t'.subtree).map o.subtree

namespace PlantedTwice

theorem refl (ht : t.WellLinked) (hu : u.WellLinked) (h : o.Between t u) :
    PlantedTwice o t t [] u u [] :=
  ⟨.refl ht, .refl hu, h, rfl⟩

theorem trans (h : PlantedTwice o t t' ns u u' ms) (h' : PlantedTwice o t' t'' ns' u' u'' ms') :
    PlantedTwice o t t'' (ns ++ ns') u u'' (ms ++ ms') where
  first := h.first.trans h'.first
  second := h.second.trans h'.second
  between := h'.between
  subtrees := by
    have hns : ns.map t''.subtree = ns.map t'.subtree :=
      List.map_congr_left fun n hn => h'.first.subtree_eq h.first.wellLinked (h.first.lt n hn)
    have hms : ms.map u''.subtree = ms.map u'.subtree :=
      List.map_congr_left fun n hn => h'.second.subtree_eq h.second.wellLinked (h.second.lt n hn)
    rw [List.map_append, List.map_append, List.map_append, hns, hms, h.subtrees, h'.subtrees]

/-- A node is put on top in both trees. -/
theorem newAbove (h : PlantedTwice o t t' ns u u' ms) (kind : NodeKind) (region : Region) :
    PlantedTwice o t (t'.newAbove kind region ns).2 [(t'.newAbove kind region ns).1]
      u (u'.newAbove (o.kind kind) (shift o.bytes region) ms).2
      [(u'.newAbove (o.kind kind) (shift o.bytes region) ms).1] := by
  obtain ⟨hfirst, hsub⟩ := h.first.wrap kind region
  obtain ⟨hsecond, hsub'⟩ := h.second.wrap (o.kind kind) (shift o.bytes region)
  refine ⟨hfirst, hsecond, ⟨?_, ?_, ?_⟩, ?_⟩
  · rw [Tree.newAbove, Tree.newAbove, size_addChildren, size_addChildren, size_newNode,
      size_newNode, h.between.size, Nat.add_right_comm]
  · rw [Tree.newAbove, Tree.newAbove, scopes_addChildren, scopes_addChildren]
    exact h.between.scopes
  · rw [Tree.newAbove, scopes_addChildren]
    exact h.between.global_lt
  · show [_] = [o.subtree _]
    rw [Tree.newAbove, Tree.newAbove, hsub, hsub', Offsets.subtree, Offsets.subtrees_eq,
      h.subtrees, h.between.size]
    rfl

theorem wrapStatement {n m : NodeId} (h : PlantedTwice o t t' [n] u u' [m]) :
    PlantedTwice o t (t'.wrapStatement n).2 [(t'.wrapStatement n).1]
      u (u'.wrapStatement m).2 [(u'.wrapStatement m).1] := by
  have hsub : u'.subtree m = o.subtree (t'.subtree n) := List.singleton_inj.1 h.subtrees
  have hfull : u'.fullRegion m = shift o.bytes (t'.fullRegion n) := by
    rw [fullRegion, fullRegion, hsub, o.fullRegion_subtree]
  rw [wrapStatement_eq, wrapStatement_eq, hfull]
  exact h.newAbove .statement (t'.fullRegion n)

/-- Names are declared in both trees, or not, without any more scopes. -/
theorem withScopes (h : PlantedTwice o t t' ns u u' ms) {scopes scopes' : Scopes}
    (hscopes : scopes.scopes.size = t'.scopes.scopes.size)
    (hscopes' : scopes'.scopes.size = u'.scopes.scopes.size) :
    PlantedTwice o t { t' with scopes } ns u { u' with scopes := scopes' } ms where
  first := h.first.withScopes scopes
  second := h.second.withScopes scopes'
  between := ⟨h.between.size, hscopes'.trans (h.between.scopes.trans (by rw [hscopes])),
    Nat.lt_of_lt_of_eq h.between.global_lt hscopes.symm⟩
  subtrees := by
    have hns : ns.map ({ t' with scopes } : Tree).subtree = ns.map t'.subtree :=
      List.map_congr_left fun n _ => subtree_withScopes scopes n
    have hms : ms.map ({ u' with scopes := scopes' } : Tree).subtree = ms.map u'.subtree :=
      List.map_congr_left fun n _ => subtree_withScopes scopes' n
    rw [hns, hms, h.subtrees]

theorem of_withScopes {scopes scopes' : Scopes}
    (h : PlantedTwice o { t with scopes } t' ns { u with scopes := scopes' } u' ms) :
    PlantedTwice o t t' ns u u' ms :=
  ⟨h.first.of_withScopes, h.second.of_withScopes, h.between, h.subtrees⟩

end PlantedTwice

/-! ## Planting the same twice -/

theorem plantExpr_twice (scope : ScopeId) (e : Expr) {t u : Tree} (ht : t.WellLinked)
    (hu : u.WellLinked) (h : o.Between t u) :
    PlantedTwice o t (plantExpr scope t e).2 [(plantExpr scope t e).1]
      u (plantExpr (o.scope scope) u (shift o.bytes e)).2
      [(plantExpr (o.scope scope) u (shift o.bytes e)).1] := by
  induction e generalizing t u with
  | number n region => exact (PlantedTwice.refl ht hu h).newAbove (.number n) region
  | string s region => exact (PlantedTwice.refl ht hu h).newAbove (.string s) region
  | identifier name region =>
      have hnode := (PlantedTwice.refl ht hu h).newAbove (.identifier name scope) region
      exact hnode.withScopes (Scopes.size_scopes_declare ..) (Scopes.size_scopes_declare ..)
  | operation operator region lhs rhs ihl ihr =>
      have hl := ihl ht hu h
      have hr := ihr hl.first.wellLinked hl.second.wellLinked hl.between
      exact (hl.trans hr).newAbove (.operation operator) region

theorem plantExpression_twice (scope : ScopeId) (e : Expression) {t u : Tree} (ht : t.WellLinked)
    (hu : u.WellLinked) (h : o.Between t u) :
    PlantedTwice o t (plantExpression scope t e).2 [(plantExpression scope t e).1]
      u (plantExpression (o.scope scope) u (shift o.bytes e)).2
      [(plantExpression (o.scope scope) u (shift o.bytes e)).1] :=
  (plantExpr_twice scope e.value ht hu h).newAbove .expression e.region

/-- The scopes that are opened have their distance, too. -/
theorem scope_createAnonymous (scope : ScopeId) {t u : Tree} (h : o.Between t u) :
    (u.scopes.createAnonymous (o.scope scope)).1 =
      o.scope (t.scopes.createAnonymous scope).1 := by
  have hne : (t.scopes.createAnonymous scope).1 ≠ Scopes.global := by
    intro heq
    have hindex : t.scopes.scopes.size = Scopes.global.index := congrArg ScopeId.index heq
    exact absurd h.global_lt (by rw [hindex]; exact Nat.lt_irrefl _)
  exact (congrArg ScopeId.mk h.scopes).trans (if_neg hne).symm

theorem between_createAnonymous (scope : ScopeId) {t u : Tree} (h : o.Between t u) :
    o.Between { t with scopes := (t.scopes.createAnonymous scope).2 }
      { u with scopes := (u.scopes.createAnonymous (o.scope scope)).2 } where
  size := h.size
  scopes := by
    rw [Scopes.size_scopes_createAnonymous, Scopes.size_scopes_createAnonymous, h.scopes,
      Nat.add_right_comm]
  global_lt := by
    rw [Scopes.size_scopes_createAnonymous]
    exact Nat.lt_succ_of_lt h.global_lt

mutual

theorem plantStatement_twice (scope : ScopeId) (st : Statement) {t u : Tree} (ht : t.WellLinked)
    (hu : u.WellLinked) (h : o.Between t u) :
    PlantedTwice o t (plantStatement scope t st).2 [(plantStatement scope t st).1]
      u (plantStatement (o.scope scope) u (st.shift o.bytes)).2
      [(plantStatement (o.scope scope) u (st.shift o.bytes)).1] := by
  match st with
  | .assignment name region value =>
      rw [Statement.shift, plantStatement_assignment, plantStatement_assignment]
      have hvalue := plantExpression_twice scope value ht hu h
      exact (hvalue.newAbove (.assignment name scope) region).wrapStatement
  | .rule name expected replacement region =>
      rw [Statement.shift, plantStatement_rule, plantStatement_rule]
      have hrefl := PlantedTwice.refl ht hu h
      exact (hrefl.newAbove (.rule name expected replacement) region).wrapStatement
  | .block region body =>
      have hbody := plantAll_twice (t.scopes.createAnonymous scope).1 body
        (ht.withScopes (t.scopes.createAnonymous scope).2)
        (hu.withScopes (u.scopes.createAnonymous (o.scope scope)).2)
        (between_createAnonymous scope h)
      rw [Statement.shift, plantStatement_block, plantStatement_block,
        scope_createAnonymous scope h]
      exact (hbody.of_withScopes.newAbove (.block (t.scopes.createAnonymous scope).1)
        region).wrapStatement
  | .expression value =>
      rw [Statement.shift, plantStatement_expression, plantStatement_expression]
      exact (plantExpression_twice scope value ht hu h).wrapStatement

theorem plantAll_twice (scope : ScopeId) (sts : List Statement) {t u : Tree} (ht : t.WellLinked)
    (hu : u.WellLinked) (h : o.Between t u) :
    PlantedTwice o t (plantAll scope t sts).2 (plantAll scope t sts).1
      u (plantAll (o.scope scope) u (Statement.shiftAll o.bytes sts)).2
      (plantAll (o.scope scope) u (Statement.shiftAll o.bytes sts)).1 := by
  match sts with
  | [] => exact .refl ht hu h
  | st :: more =>
      have hfirst := plantStatement_twice scope st ht hu h
      have hrest := plantAll_twice scope more hfirst.first.wellLinked hfirst.second.wellLinked
        hfirst.between
      exact hfirst.trans hrest

end

/-! ## Whole programs -/

theorem plantAll_append (scope : ScopeId) (sts sts' : List Statement) (t : Tree) :
    plantAll scope t (sts ++ sts') =
      ((plantAll scope t sts).1 ++ (plantAll scope (plantAll scope t sts).2 sts').1,
        (plantAll scope (plantAll scope t sts).2 sts').2) := by
  induction sts generalizing t with
  | nil => rfl
  | cons st more ih =>
      show (_ :: (plantAll scope _ (more ++ sts')).1, (plantAll scope _ (more ++ sts')).2) = _
      rw [ih]
      rfl

/-- The statements of a program are those that were planted. -/
theorem statements_ofStatements (program : List Statement) :
    (ofStatements program).statements.map (ofStatements program).subtree =
      (plantAll Scopes.global empty program).1.map
        (plantAll Scopes.global empty program).2.subtree := by
  have hplanted := (plantAll_shows Scopes.global program empty_wellLinked).1
  have hroot := hplanted.subtree_root
  rw [hplanted.addChildren_root.1.subtree_eq] at hroot
  exact (Subtree.node.inj hroot).2.2.2

theorem ofStatements_append (program other : List Statement) {o : Offsets}
    (h : o.Between empty (plantAll Scopes.global empty program).2) :
    (ofStatements (program ++ Statement.shiftAll o.bytes other)).statements.map
        (ofStatements (program ++ Statement.shiftAll o.bytes other)).subtree =
      (ofStatements program).statements.map (ofStatements program).subtree ++
        ((ofStatements other).statements.map (ofStatements other).subtree).map o.subtree := by
  have hplanted := (plantAll_shows Scopes.global program empty_wellLinked).1
  have htwice := plantAll_twice Scopes.global other empty_wellLinked hplanted.wellLinked h
  -- The second program is planted in the same scope as the first, not in a moved one.
  have hglobal : o.scope Scopes.global = Scopes.global := if_pos rfl
  rw [hglobal] at htwice
  have hkeep : ∀ n ∈ (plantAll Scopes.global empty program).1, _ = _ := fun n hn =>
    htwice.second.subtree_eq hplanted.wellLinked (hplanted.lt n hn)
  rw [statements_ofStatements, statements_ofStatements, statements_ofStatements, plantAll_append,
    List.map_append, List.map_congr_left hkeep, htwice.subtrees]

/-- By how much a program is further on in the lines behind another one. -/
def offsets (t : Tree) (source : String) : Offsets where
  nodes := t.size - 1
  bytes := source.utf8ByteSize + 1
  scopes := (t.find fun kind => kind.blockScope?.isSome).length

/-- A program has a scope for every block, and the global one. -/
theorem length_blocks {source : String} (h : ofSource source = .ok t) :
    (t.find fun kind => kind.blockScope?.isSome).length = t.scopes.scopes.size - 1 := by
  have hblocks := congrArg List.length (blocks_of_ofSource h)
  rw [List.length_map, List.length_filterMap_eq_countP, List.Ico.length] at hblocks
  rw [find_eq, ← List.countP_eq_length_filter]
  exact hblocks

theorem between_offsets {source : String} {program : List Statement}
    (h : ofSource source = .ok t) (hp : Statement.ofSource source = .ok program) :
    (t.offsets source).Between empty (plantAll Scopes.global empty program).2 := by
  have hplanted := (plantAll_shows Scopes.global program empty_wellLinked).1
  have hsome : 1 ≤ (plantAll Scopes.global empty program).2.size := hplanted.size_le
  have hsize : (ofStatements program).size = (plantAll Scopes.global empty program).2.size :=
    size_addChildren root _ _
  have hscopes : (ofStatements program).scopes = (plantAll Scopes.global empty program).2.scopes :=
    scopes_addChildren ..
  have hglobal : 0 < t.scopes.scopes.size := (wellNamed_of_ofSource h).global_lt
  have hblocks := length_blocks h
  obtain rfl := eq_ofStatements h hp
  rw [hscopes] at hglobal hblocks
  refine ⟨?_, ?_, Nat.zero_lt_one⟩
  · show _ = 1 + ((ofStatements program).size - 1)
    omega
  · show _ = 1 + List.length _
    omega

/-- A program with more text in the lines behind it can be read just if that text
can. The whole then has the statements of both, and otherwise it fails as the text
behind the program does. -/
theorem compose_lines {source : String} (h : ofSource source = .ok t) (other : String) :
    ((∃ whole, ofSource (source ++ "\n" ++ other) = .ok whole) ↔ ∃ u, ofSource other = .ok u) ∧
    (∀ whole u, ofSource (source ++ "\n" ++ other) = .ok whole → ofSource other = .ok u →
      whole.statements.map whole.subtree =
        t.statements.map t.subtree ++
          (u.statements.map u.subtree).map (t.offsets source).subtree) ∧
    ∀ e, ofSource other = .error e →
      ofSource (source ++ "\n" ++ other) = .error (shift (source.utf8ByteSize + 1) e) := by
  obtain ⟨program, hp⟩ := exists_program h
  have hwhole := Statement.ofSource_newline hp other
  cases hother : Statement.ofSource other with
  | error e =>
      have hu : ofSource other = .error e := by rw [ofSource, hother]
      have herror : ofSource (source ++ "\n" ++ other) =
          .error (shift (source.utf8ByteSize + 1) e) := by
        rw [ofSource, hwhole, hother]
        rfl
      rw [hu, herror]
      refine ⟨iff_of_false (not_exists.2 fun _ hok => ?_) (not_exists.2 fun _ hok => ?_),
        fun _ _ hok => ?_, fun _ he => ?_⟩
      · cases hok
      · cases hok
      · cases hok
      · cases he
        rfl
  | ok more =>
      have hu : ofSource other = .ok (ofStatements more) := ofSource_of_ok hother
      have hok : ofSource (source ++ "\n" ++ other) =
          .ok (ofStatements (program ++ Statement.shiftAll (source.utf8ByteSize + 1) more)) := by
        rw [ofSource, hwhole, hother, Statement.shiftAll_eq]
        rfl
      rw [hu, hok]
      refine ⟨iff_of_true ⟨_, rfl⟩ ⟨_, rfl⟩, fun _ _ hok' hu' => ?_, fun _ he => ?_⟩
      · cases hok'
        cases hu'
        obtain rfl := eq_ofStatements h hp
        exact ofStatements_append program more (between_offsets h hp)
      · cases he

/-- The carriage return at the end of one block and the line end in front of
another are a single token in the text that holds both. -/
theorem compose_lines_blocks :
    ∃ t u whole, ofSource "\x7ba\x7d\r" = .ok t ∧ ofSource "\x7bb\x7d" = .ok u ∧
      ofSource ("\x7ba\x7d\r" ++ "\n" ++ "\x7bb\x7d") = .ok whole ∧
      t.offsets "\x7ba\x7d\r" = ⟨5, 5, 1⟩ ∧
      whole.statements.map whole.subtree =
        t.statements.map t.subtree ++
          (u.statements.map u.subtree).map (Offsets.subtree ⟨5, 5, 1⟩) := by
  have hfirst : (ofSource "\x7ba\x7d\r").toOption.any
      (fun t => t.offsets "\x7ba\x7d\r" = ⟨5, 5, 1⟩) = true := by decide +kernel
  have hsecond : (ofSource "\x7bb\x7d").toOption.any (fun _ => true) = true := by decide +kernel
  obtain ⟨t, ht, hoffsets⟩ := exists_of_checked hfirst
  obtain ⟨u, hu, _⟩ := exists_of_checked hsecond
  have hlines := compose_lines ht "\x7bb\x7d"
  obtain ⟨whole, hwhole⟩ := hlines.1.2 ⟨u, hu⟩
  have hstatements := hlines.2.1 whole u hwhole hu
  rw [of_decide_eq_true hoffsets] at hstatements
  exact ⟨t, u, whole, ht, hu, hwhole, of_decide_eq_true hoffsets, hstatements⟩

end Tree

end Lindenmayer
