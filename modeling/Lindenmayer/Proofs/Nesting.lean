import Lindenmayer.Proofs.Places
import Lindenmayer.Proofs.Scoping

/-!
# How the regions of a tree nest

A node has the region of what it was read from, and diagnostics show that part of
the source. A tree keeps no source, so that its regions go together is a fact
about reading and planting: `Subtree.Laid` says it of a subtree, node by node,
and follows planting from what `Located` says of the syntax.

An operation has the region of its operator alone and an assignment has one that
ends with the equals sign. These do not cover what is below them. The nodes that
do are those of expressions, blocks and statements.
-/

namespace Lindenmayer

open Lindenmayer.Text

def Subtree.region : Subtree → Region
  | node _ _ region _ => region

/-- Whether the region of a node is as its kind asks, with the children that it
has. -/
def NodeKind.Fits (source : String) (region : Region) (children : List Subtree) :
    NodeKind → Prop
  | .root _ => children.Pairwise fun a b => a.region.stop ≤ b.region.start
  | .statement => ∀ c ∈ children, region = c.fullRegion
  | .block _ =>
    (∀ c ∈ children, c.fullRegion.Inside region) ∧
      children.Pairwise fun a b => a.region.stop ≤ b.region.start
  | .expression => ∀ c ∈ children, c.fullRegion.Inside region
  | .identifier name _ => region.IsToken source .identifier name
  | .number n => ∃ text, region.IsToken source .number text ∧ Number.ofLiteral? text = some n
  | _ => True

namespace Subtree

variable {source : String} {lo hi : Nat} {r : Region} {s : Subtree} {ss : List Subtree}

mutual

/-- Whether the regions in a subtree are as a source and the kinds of the nodes
ask. -/
def Laid (source : String) : Subtree → Prop
  | node _ kind region children =>
    region.Within source ∧ kind.Fits source region children ∧ AllLaid source children

def AllLaid (source : String) : List Subtree → Prop
  | [] => True
  | s :: more => s.Laid source ∧ AllLaid source more

end

theorem allLaid_iff : AllLaid source ss ↔ ∀ s ∈ ss, s.Laid source := by
  induction ss with
  | nil => exact ⟨fun _ => nofun, fun _ => trivial⟩
  | cons s ss ih => rw [AllLaid, ih, List.forall_mem_cons]

theorem fullRegion_node {id : NodeId} {kind : NodeKind} :
    (node id kind r ss).fullRegion = coverAll r ss := rfl

/-- Covering what is inside does not extend a region. -/
theorem coverAll_eq_of_inside (h : ∀ s ∈ ss, s.fullRegion.Inside r) : coverAll r ss = r := by
  induction ss with
  | nil => rfl
  | cons s ss ih =>
      rw [coverAll, Region.merge_eq_of_inside (h s List.mem_cons_self)]
      exact ih fun c hc => h c (List.mem_cons_of_mem s hc)

/-- Whether a subtree is laid out between two places of a source. -/
structure LaidIn (source : String) (lo hi : Nat) (s : Subtree) : Prop where
  laid : s.Laid source
  between : s.fullRegion.Between source lo hi

/-- Whether subtrees are laid out between two places of a source, one behind the
other, with regions of their own that cover all that is below. -/
structure LaidOut (source : String) (lo hi : Nat) (ss : List Subtree) : Prop where
  each : ∀ s ∈ ss, s.LaidIn source lo hi
  full : ∀ s ∈ ss, s.fullRegion = s.region
  ordered : ss.Pairwise fun a b => a.region.stop ≤ b.region.start

theorem LaidOut.cons {mid : Nat} (hs : s.LaidIn source lo mid) (hfull : s.fullRegion = s.region)
    (hss : LaidOut source mid hi ss) (hmid : mid ≤ hi) : LaidOut source lo hi (s :: ss) := by
  have hlo : lo ≤ mid :=
    Nat.le_trans hs.between.start (Nat.le_trans (Region.start_le_stop _) hs.between.stop)
  refine ⟨fun c hc => ?_, List.forall_mem_cons.2 ⟨hfull, hss.full⟩,
    List.pairwise_cons.2 ⟨fun c hc => ?_, hss.ordered⟩⟩
  · rcases List.mem_cons.1 hc with rfl | hc
    · exact ⟨hs.laid, hs.between.mono (Nat.le_refl _) hmid⟩
    · exact ⟨(hss.each c hc).laid, (hss.each c hc).between.mono hlo (Nat.le_refl _)⟩
  · rw [← hfull, ← hss.full c hc]
    exact Nat.le_trans hs.between.stop (hss.each c hc).between.start

end Subtree

/-! ## Expressions -/

theorem Expr.Shows.laid {source : String} {scope : ScopeId} {outer : Region} :
    ∀ {e : Expr} {s : Subtree}, e.Shows scope s → e.Located source outer →
      s.Laid source ∧ s.fullRegion.Inside outer
  | .number _ _, _, ⟨_, rfl⟩, ⟨hinside, text, htoken, hn⟩ =>
    ⟨⟨htoken.within, ⟨text, htoken, hn⟩, trivial⟩, hinside⟩
  | .string _ _, _, ⟨_, rfl⟩, ⟨hinside, hwithin⟩ => ⟨⟨hwithin, trivial, trivial⟩, hinside⟩
  | .identifier _ _, _, ⟨_, rfl⟩, ⟨hinside, htoken⟩ =>
    ⟨⟨htoken.within, htoken, trivial⟩, hinside⟩
  | .operation _ _ _ _, _, ⟨_, _, _, rfl, hl, hr⟩, ⟨hinside, hwithin, hl', hr'⟩ =>
    have ⟨hlaid, hfull⟩ := hl.laid hl'
    have ⟨hlaid', hfull'⟩ := hr.laid hr'
    ⟨⟨hwithin, trivial, hlaid, hlaid', trivial⟩,
      Region.merge_inside (Region.merge_inside hinside hfull) hfull'⟩

theorem Expression.Shows.laidIn {source : String} {scope : ScopeId} {lo hi : Nat}
    {e : Expression} {s : Subtree} (h : e.Shows scope s) (he : e.Located source lo hi) :
    s.LaidIn source lo hi := by
  obtain ⟨_, value, rfl, hshows⟩ := h
  obtain ⟨hlaid, hfull⟩ := hshows.laid he.value
  have hinside : ∀ c ∈ [value], c.fullRegion.Inside e.region := by
    intro c hc
    rw [List.mem_singleton.1 hc]
    exact hfull
  refine ⟨⟨he.between.within, hinside, hlaid, trivial⟩, ?_⟩
  rw [Subtree.fullRegion_node, Subtree.coverAll_eq_of_inside hinside]
  exact he.between

/-! ## Planting -/

namespace Tree

open Subtree (LaidIn LaidOut)

variable {source : String} {lo hi : Nat} {t t' : Tree} {n : NodeId}

/-- The node of a statement is laid out where the statement is. -/
theorem laidIn_wrapStatement {inner : Subtree} (h : Planted t t' [n])
    (hinner : t'.subtree n = inner) (hlaid : inner.LaidIn source lo hi) :
    ((t'.wrapStatement n).2.subtree (t'.wrapStatement n).1).LaidIn source lo hi ∧
    ((t'.wrapStatement n).2.subtree (t'.wrapStatement n).1).fullRegion =
      ((t'.wrapStatement n).2.subtree (t'.wrapStatement n).1).region := by
  obtain ⟨_, hsub⟩ := h.wrap .statement (t'.fullRegion n)
  have hsub' : (t'.wrapStatement n).2.subtree (t'.wrapStatement n).1 =
      .node ⟨t'.size⟩ .statement inner.fullRegion [inner] := by
    rw [← hinner]
    exact hsub
  have hfull : (Subtree.node ⟨t'.size⟩ .statement inner.fullRegion [inner]).fullRegion =
      inner.fullRegion :=
    Region.merge_eq_of_inside (.refl _)
  rw [hsub']
  refine ⟨⟨⟨hlaid.between.within, fun c hc => ?_, hlaid.laid, trivial⟩, ?_⟩, hfull⟩
  · rw [List.mem_singleton.1 hc]
  · rw [hfull]
    exact hlaid.between

mutual

theorem laidIn_plantStatement (lo hi : Nat) (scope : ScopeId) (st : Statement) {t : Tree}
    (hw : t.WellLinked) (hst : st.Located source lo hi) :
    ((plantStatement scope t st).2.subtree (plantStatement scope t st).1).LaidIn source lo hi ∧
    ((plantStatement scope t st).2.subtree (plantStatement scope t st).1).fullRegion =
      ((plantStatement scope t st).2.subtree (plantStatement scope t st).1).region := by
  match st with
  | .assignment name region value =>
      rw [Statement.Located] at hst
      obtain ⟨hregion, hvalue⟩ := hst
      obtain ⟨hplanted, hshows⟩ := plantExpression_shows scope value hw
      obtain ⟨hinner, hsub⟩ := hplanted.wrap (.assignment name scope) region
      have hlaid := hshows.laidIn hvalue
      exact laidIn_wrapStatement hinner hsub
        ⟨⟨hregion.within, trivial, hlaid.laid, trivial⟩, hregion.merge hlaid.between⟩
  | .rule name expected replacement region =>
      rw [Statement.Located] at hst
      obtain ⟨hinner, hsub⟩ := (Planted.refl hw).wrap (.rule name expected replacement) region
      exact laidIn_wrapStatement hinner hsub ⟨⟨hst.within, trivial, trivial⟩, hst⟩
  | .block region body =>
      rw [Statement.Located] at hst
      obtain ⟨hregion, hbody⟩ := hst
      have hw' := hw.withScopes (t.scopes.createAnonymous scope).2
      obtain ⟨hplanted, _⟩ := plantAll_shows (t.scopes.createAnonymous scope).1 body hw'
      have hlaid := laidOut_plantAll _ _ (t.scopes.createAnonymous scope).1 body hw' hbody
      obtain ⟨hinner, hsub⟩ :=
        hplanted.of_withScopes.wrap (.block (t.scopes.createAnonymous scope).1) region
      have hinside : ∀ c ∈ _, Region.Inside (Subtree.fullRegion c) region := fun c hc =>
        ⟨(hlaid.each c hc).between.start, (hlaid.each c hc).between.stop⟩
      refine laidIn_wrapStatement hinner hsub ⟨⟨hregion.within, ⟨hinside, hlaid.ordered⟩, ?_⟩, ?_⟩
      · exact Subtree.allLaid_iff.2 fun c hc => (hlaid.each c hc).laid
      · rw [Subtree.fullRegion_node, Subtree.coverAll_eq_of_inside hinside]
        exact hregion
  | .expression value =>
      rw [Statement.Located] at hst
      obtain ⟨hplanted, hshows⟩ := plantExpression_shows scope value hw
      exact laidIn_wrapStatement hplanted rfl (hshows.laidIn hst)

theorem laidOut_plantAll (lo hi : Nat) (scope : ScopeId) (sts : List Statement) {t : Tree}
    (hw : t.WellLinked) (hsts : Statement.AllLocated source lo hi sts) :
    LaidOut source lo hi ((plantAll scope t sts).1.map (plantAll scope t sts).2.subtree) := by
  match sts with
  | [] => exact ⟨nofun, nofun, .nil⟩
  | st :: more =>
      rw [Statement.AllLocated] at hsts
      obtain ⟨mid, hmid, hst, hmore⟩ := hsts
      obtain ⟨hfirst, _⟩ := plantStatement_shows scope st hw
      obtain ⟨hrest, _⟩ := plantAll_shows scope more hfirst.wellLinked
      have hkeep := hrest.subtree_eq hfirst.wellLinked (hfirst.lt _ (List.mem_singleton.2 rfl))
      obtain ⟨hlaid, hfull⟩ := laidIn_plantStatement lo mid scope st hw hst
      rw [← hkeep] at hlaid hfull
      exact LaidOut.cons hlaid hfull
        (laidOut_plantAll mid hi scope more hfirst.wellLinked hmore) hmid

end

/-! ## Whole trees -/

/-- A tree that was read is laid out below its root. -/
theorem laid_of_ofSource (h : ofSource source = .ok t) : (t.subtree root).Laid source := by
  have hread := Statement.located_ofSource source
  rw [ofSource] at h
  split at h
  · next program hp =>
      rw [hp] at hread
      cases h
      obtain ⟨hplanted, _⟩ := plantAll_shows Scopes.global program empty_wellLinked
      have hlaid := laidOut_plantAll _ _ Scopes.global program empty_wellLinked hread
      have hregion := (hplanted.addChildren_root.2 root).2.1
      rw [region.eq_def (plantAll _ _ _).2, hplanted.node_root] at hregion
      rw [ofStatements, hplanted.subtree_root, hregion]
      exact ⟨Region.within_origin source, hlaid.ordered,
        Subtree.allLaid_iff.2 fun c hc => (hlaid.each c hc).laid⟩
  · cases h

/-- What is laid out is so at every node. -/
theorem laid_of_reachable (hw : t.WellLinked) (hlaid : (t.subtree root).Laid source) {n : NodeId}
    (hn : Relation.ReflTransGen (fun p c => c ∈ t.children p) root n) :
    (t.subtree n).Laid source := by
  induction hn with
  | refl => exact hlaid
  | tail _ hc ih =>
      rw [hw.subtree_eq] at ih
      exact Subtree.allLaid_iff.1 ih.2.2 _ (List.mem_map_of_mem hc)

theorem region_subtree (hw : t.WellLinked) (n : NodeId) : (t.subtree n).region = t.region n := by
  rw [hw.subtree_eq, Subtree.region]

/-- The region of a node that was read is as its kind asks. -/
theorem fits_of_ofSource (h : ofSource source = .ok t) (hn : n.index < t.size) :
    (t.region n).Within source ∧
      (t.kind n).Fits source (t.region n) ((t.children n).map t.subtree) := by
  have hw := wellLinked_of_ofSource h
  have hlaid := laid_of_reachable hw (laid_of_ofSource h) (reachable_of_ofSource h n hn)
  rw [hw.subtree_eq] at hlaid
  exact ⟨hlaid.1, hlaid.2.1⟩

/-- The regions of a tree that was read are within its source, between two
characters. Identifiers and numbers have those of the tokens that they were made
from. Expressions, blocks and statements have regions that cover all that is
below them, those of statements being no larger than that. And statements that
follow one another have regions that do. -/
theorem regions_of_ofSource (h : ofSource source = .ok t) :
    (∀ n, n.index < t.size → (t.region n).Within source) ∧
    (∀ n name scope, t.kind n = .identifier name scope →
      (t.region n).IsToken source .identifier name ∧
      sliceBytes (t.region n).start (t.region n).stop source.toList = name.toList) ∧
    (∀ n x, t.kind n = .number x →
      ∃ text, (t.region n).IsToken source .number text ∧ Number.ofLiteral? text = some x ∧
        sliceBytes (t.region n).start (t.region n).stop source.toList = text.toList) ∧
    (∀ n c, c ∈ t.children n →
      (t.kind n = .expression ∨ (∃ scope, t.kind n = .block scope) ∨ t.kind n = .statement) →
      (t.fullRegion c).Inside (t.region n)) ∧
    (∀ n c, c ∈ t.children n → t.kind n = .statement → t.region n = t.fullRegion c) ∧
    (∀ n, n = root ∨ (∃ scope, t.kind n = .block scope) →
      (t.children n).Pairwise fun a b => (t.region a).stop ≤ (t.region b).start) := by
  have hw := wellLinked_of_ofSource h
  have hordered : ∀ n, ((t.children n).map t.subtree).Pairwise
      (fun a b => a.region.stop ≤ b.region.start) →
      (t.children n).Pairwise fun a b => (t.region a).stop ≤ (t.region b).start := by
    intro n hpairs
    rw [List.pairwise_map] at hpairs
    simpa only [region_subtree hw] using hpairs
  refine ⟨fun n hn => (fits_of_ofSource h hn).1, fun n name scope hkind => ?_,
    fun n x hkind => ?_, fun n c hc hkind => ?_, fun n c hc hkind => ?_, fun n hn => ?_⟩
  · have hfits := (fits_of_ofSource h (index_lt_of_kind hkind nofun)).2
    rw [hkind] at hfits
    exact ⟨hfits, hfits.sliceBytes_eq⟩
  · have hfits := (fits_of_ofSource h (index_lt_of_kind hkind nofun)).2
    rw [hkind] at hfits
    obtain ⟨text, htoken, hx⟩ := hfits
    exact ⟨text, htoken, hx, htoken.sliceBytes_eq⟩
  · have hfits := (fits_of_ofSource h (index_lt_of_mem_children hc)).2
    have hmem := List.mem_map_of_mem (f := t.subtree) hc
    rcases hkind with hkind | ⟨scope, hkind⟩ | hkind
    · rw [hkind] at hfits
      exact hfits _ hmem
    · rw [hkind] at hfits
      exact hfits.1 _ hmem
    · rw [hkind] at hfits
      rw [hfits _ hmem]
      exact .refl _
  · have hfits := (fits_of_ofSource h (index_lt_of_mem_children hc)).2
    rw [hkind] at hfits
    exact hfits _ (List.mem_map_of_mem hc)
  · rcases hn with rfl | ⟨scope, hkind⟩
    · have hlaid := laid_of_ofSource h
      rw [hw.subtree_eq, kind_root_of_ofSource h] at hlaid
      exact hordered root hlaid.2.1
    · have hfits := (fits_of_ofSource h (index_lt_of_kind hkind nofun)).2
      rw [hkind] at hfits
      exact hordered n hfits.2

/-- A name behind a string with a letter of two bytes, in a block with something
behind it. -/
theorem regions_of_ofSource_block :
    ∃ t, ofSource "\x7b ('ä' + x) \x7d\n12" = .ok t ∧
      t.kind ⟨2⟩ = .identifier "x" ⟨1⟩ ∧ t.region ⟨2⟩ = ⟨10, 1⟩ ∧
      t.kind ⟨6⟩ = .block ⟨1⟩ ∧ t.region ⟨6⟩ = ⟨0, 14⟩ ∧
      t.children ⟨6⟩ = [⟨5⟩] ∧ t.children root = [⟨7⟩, ⟨10⟩] ∧
      sliceBytes 10 11 "\x7b ('ä' + x) \x7d\n12".toList = "x".toList ∧
      (t.fullRegion ⟨5⟩).Inside ⟨0, 14⟩ ∧ (t.region ⟨7⟩).stop ≤ (t.region ⟨10⟩).start := by
  have hcheck : (ofSource "\x7b ('ä' + x) \x7d\n12").toOption.any (fun t =>
      (t.kind ⟨2⟩).isIdentifier "x" ⟨1⟩ ∧ t.region ⟨2⟩ = ⟨10, 1⟩ ∧
      (t.kind ⟨6⟩).blockScope? = some ⟨1⟩ ∧ t.region ⟨6⟩ = ⟨0, 14⟩ ∧
      t.children ⟨6⟩ = [⟨5⟩] ∧ t.children root = [⟨7⟩, ⟨10⟩]) = true := by decide +kernel
  obtain ⟨t, ht, hfacts⟩ := exists_of_checked hcheck
  obtain ⟨hname, hregion, hblock, hregion', hchildren, hroot⟩ := of_decide_eq_true hfacts
  rw [NodeKind.isIdentifier_iff] at hname
  rw [NodeKind.blockScope?_eq_some] at hblock
  obtain ⟨_, htokens, _, hinside, _, hordered⟩ := regions_of_ofSource ht
  have hslice := (htokens ⟨2⟩ "x" ⟨1⟩ hname).2
  rw [hregion] at hslice
  have hcover := hinside ⟨6⟩ ⟨5⟩ (by rw [hchildren]; exact List.mem_singleton.2 rfl)
    (.inr (.inl ⟨_, hblock⟩))
  rw [hregion'] at hcover
  have hpair := hordered root (.inl rfl)
  rw [hroot, List.pairwise_pair] at hpair
  exact ⟨t, ht, hname, hregion, hblock, hregion', hchildren, hroot, hslice, hcover, hpair⟩

end Tree

end Lindenmayer
