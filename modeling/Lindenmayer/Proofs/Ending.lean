import Lindenmayer.Proofs.Grafting
import Lindenmayer.Proofs.InStep
import Lindenmayer.Proofs.Lookahead
import Lindenmayer.Proofs.Places
import Lindenmayer.Proofs.Stable

/-!
# Parsing comes to an end

A program that is parsed in one pass has the tree, or the error, that reading and
planting give it, as soon as there are three rounds of fuel for each of its tokens
(`parse_eq`). What is left of the argument there is that a statement which is put
below the root at once might as well be put there in the end. And since answers
are stable, whatever is true of them with so much fuel is true with any.

How far a statement gets is seen from the tokens that are no blanks. A reader
`Passes` over tokens, or `Gets` more than blanks, and of a statement's parts the
one that opens it always does. A lone expression has no such part, and there the
yard is what shows it: one that nothing was put on has no value to finish with.
-/

namespace Lindenmayer

open Lindenmayer.Text

/-! ## Trees that grow below their root -/

namespace Tree

/-- Whether the root of a tree is there and is a top. -/
structure Rooted (t : Tree) : Prop where
  wellLinked : t.WellLinked
  root_lt : root.index < t.size
  root_top : t.parent root = none

namespace Rooted

variable {t t' : Tree} {n : NodeId}

theorem empty : Tree.empty.Rooted := ⟨empty_wellLinked, Nat.zero_lt_one, rfl⟩

theorem tops (h : t.Rooted) (hplanted : Planted t t' [n]) : t'.Tops root [n] where
  upper_lt := Nat.lt_of_lt_of_le h.root_lt hplanted.size_le
  upper_top := by
    rw [parent, hplanted.frame root h.root_lt]
    exact h.root_top
  lower_lt := hplanted.lt
  lower_top := hplanted.top
  lower_ne c hc := by
    rintro rfl
    exact hplanted.not_mem_of_lt h.root_lt hc
  nodup := hplanted.nodup

theorem addChild (h : t.Rooted) (hplanted : Planted t t' [n]) : (t'.addChild root n).Rooted where
  wellLinked := (h.tops hplanted).addChild_wellLinked hplanted.wellLinked
  root_lt := by
    rw [size_addChild]
    exact (h.tops hplanted).upper_lt
  root_top := by
    rw [parent_addChild_of_tops (h.tops hplanted),
      if_neg ((h.tops hplanted).lower_ne n List.mem_cons_self)]
    exact (h.tops hplanted).upper_top

end Rooted

end Tree

namespace Parser

/-! ## Whole programs -/

variable {p : Parser} {s : TokenStream}

theorem atEnd_of_more (h : p.reader.stream.Alike s) (hmore : ¬ s.atEnd.1 = true) :
    ∃ r, atEnd p = some (.ok (false, { p with reader := r })) ∧ r.stream.Alike s := by
  cases hrest : s.settle.rest with
  | nil => exact absurd (by rw [TokenStream.atEnd, hrest]; rfl) hmore
  | cons t rest =>
      obtain ⟨r, hend, hr⟩ := atEnd_of_cons (h.rest.trans hrest)
      exact ⟨r, hend, by rw [hr]; exact h.settle⟩

/-- A statement that is read and put below the root makes no difference to the
statements that follow. -/
theorem program_step {fuel : Nat} {r : Statement.Taken s Statement} (h : p.reader.stream.Alike s)
    (hfuel : 3 * s.remaining < fuel) (hroot : p.tree.Rooted) (hmore : ¬ s.atEnd.1 = true)
    (hread : Statement.read s = .ok r) :
    ∃ q, program (fuel + 1) p = program fuel q ∧ q.reader.stream.Alike r.1.2 ∧
      q.scope = p.scope ∧ q.tree.Rooted ∧
      ∀ more, (Tree.plantAll q.scope q.tree more).2.addChildren Tree.root
          (Tree.plantAll q.scope q.tree more).1 =
        (Tree.plantAll p.scope p.tree (r.1.1 :: more)).2.addChildren Tree.root
          (Tree.plantAll p.scope p.tree (r.1.1 :: more)).1 := by
  obtain ⟨reader, hend, hr⟩ := atEnd_of_more h hmore
  have hfirst := gives_statement (p := { p with reader }) hr hfuel
  rw [hread] at hfirst
  obtain ⟨n, q, hrun, hq, hscope, hplanted⟩ := hfirst
  dsimp only at hplanted hscope
  obtain ⟨hnew, _⟩ := Tree.plantStatement_shows p.scope r.1.1 hroot.wellLinked
  rw [hplanted] at hnew
  refine ⟨{ q with tree := q.tree.addChild Tree.root n }, ?_, hq, hscope, hroot.addChild hnew,
    fun more => ?_⟩
  · conv_lhs => rw [program, bind_ok hend, if_neg Bool.false_ne_true, bind_ok hrun]
    rfl
  · dsimp only
    rw [hscope, Tree.plantAll_addChild p.scope more hnew.wellLinked (hroot.tops hnew)]
    simp only [Tree.plantAll, hplanted]
    rfl

/-- Statements that are put below the root one by one are below it in the end. -/
theorem gives_program {fuel : Nat} (h : p.reader.stream.Alike s)
    (hfuel : 3 * s.remaining + 1 < fuel) (hroot : p.tree.Rooted) :
    Gives (program fuel p)
      (fun sts _ q => q.tree = (Tree.plantAll p.scope p.tree sts).2.addChildren Tree.root
        (Tree.plantAll p.scope p.tree sts).1)
      (Statement.readAll s) := by
  fun_induction Statement.readAll s generalizing p fuel with
  | case1 s hnone =>
      obtain ⟨fuel, rfl, hle⟩ := exists_fuel hfuel
      have hrest : s.settle.rest = [] := List.isEmpty_iff.1 hnone
      obtain ⟨r, hend, _⟩ := atEnd_of_nil (h.rest.trans hrest)
      rw [program, bind_ok hend, if_pos rfl]
      exact ⟨_, _, rfl, rfl⟩
  | case2 s hmore e hread =>
      obtain ⟨fuel, rfl, hle⟩ := exists_fuel hfuel
      obtain ⟨r, hend, hr⟩ := atEnd_of_more h hmore
      have hfirst := gives_statement (p := { p with reader := r }) hr hle
      rw [hread] at hfirst
      rw [program, bind_ok hend, if_neg Bool.false_ne_true]
      exact bind_error hfirst
  | case3 s hmore first s' hlt hread e hrest ih =>
      have hlt : s'.remaining < s.remaining := hlt
      obtain ⟨fuel, rfl, hle⟩ := exists_fuel hfuel
      obtain ⟨q, hstep, hq, _, hroot', _⟩ := program_step h hle hroot hmore hread
      have hmany := ih hq (by omega : 3 * s'.remaining + 1 < fuel) hroot'
      rw [hrest] at hmany
      exact hstep.trans hmany
  | case4 s hmore first s' hlt hread more hrest ih =>
      have hlt : s'.remaining < s.remaining := hlt
      obtain ⟨fuel, rfl, hle⟩ := exists_fuel hfuel
      obtain ⟨q, hstep, hq, _, hroot', hsame⟩ := program_step h hle hroot hmore hread
      have hmany := ih hq (by omega : 3 * s'.remaining + 1 < fuel) hroot'
      rw [hrest] at hmany
      obtain ⟨_, q', hrun, htree⟩ := hmany
      exact ⟨_, q', hstep.trans hrun, htree.trans (hsame more)⟩

/-- In one pass or in two, a source text has the same tree or the same error. -/
theorem parse_eq {fuel : Nat} (source : String)
    (hfuel : 3 * (Token.scan source).length + 1 < fuel) :
    parse fuel source = some (Tree.ofSource source) := by
  have hstart : (start source).reader.stream.Alike (.ofSource source) := by
    rw [start, CharReader.stream_ofSource]
    exact .refl _
  rcases (gives_program hstart hfuel .empty).cases with
    ⟨e, heq, hrun⟩ | ⟨sts, _, q, heq, hrun, htree⟩
  · have hread : Statement.ofSource source = .error e := heq
    rw [parse, hrun, Tree.ofSource, hread]
  · have hread : Statement.ofSource source = .ok sts := heq
    rw [parse, hrun, Tree.ofSource, hread]
    dsimp only
    rw [htree]
    rfl

end Parser

/-! ## What a statement takes -/

namespace Token

variable {ts us vs : List Token} {t : Token}

/-- Tokens without the blanks. -/
def solid (ts : List Token) : List Token := ts.filter (!·.isBlank)

theorem solid_append (ts us : List Token) : solid (ts ++ us) = solid ts ++ solid us :=
  List.filter_append ..

theorem solid_suffix (h : us <:+ ts) : solid us <:+ solid ts := h.filter _

theorem solid_suffix_cons (t : Token) (ts : List Token) : solid ts <:+ solid (t :: ts) :=
  solid_suffix (List.suffix_cons t ts)

theorem isBlank_of_kind {kind : TokenKind} (h : t.kind = kind) : t.isBlank = kind.isBlank :=
  congrArg TokenKind.isBlank h

/-- Whether `us` is what is left of `ts` when more than blanks was taken. -/
structure Consumes (ts us : List Token) : Prop where
  suffix : solid us <:+ solid ts
  lt : (solid us).length < (solid ts).length

namespace Consumes

theorem cons (ht : t.isBlank = false) (h : solid us <:+ solid ts) : Consumes (t :: ts) us := by
  refine ⟨h.trans (solid_suffix_cons t ts), Nat.lt_of_le_of_lt h.length_le ?_⟩
  simp [solid, ht]

theorem before (h : Consumes us vs) (hts : solid us <:+ solid ts) : Consumes ts vs :=
  ⟨h.suffix.trans hts, Nat.lt_of_lt_of_le h.lt hts.length_le⟩

theorem after (h : Consumes ts us) (hvs : solid vs <:+ solid us) : Consumes ts vs :=
  ⟨hvs.trans h.suffix, Nat.lt_of_le_of_lt hvs.length_le h.lt⟩

theorem exists_taken (h : Consumes ts us) : ∃ taken, taken ≠ [] ∧ solid ts = taken ++ solid us := by
  obtain ⟨taken, htaken⟩ := h.suffix
  refine ⟨taken, ?_, htaken.symm⟩
  rintro rfl
  have hlt := h.lt
  rw [← htaken] at hlt
  exact Nat.lt_irrefl _ hlt

end Consumes

end Token

open Token (solid Consumes)

theorem ShuntingYard.Step.consumes {ts us : List Token} {y z : ShuntingYard}
    (h : Step ts y us z) : Consumes ts us ∨ z = y ∧ solid us <:+ solid ts := by
  cases h with
  | blank => exact .inr ⟨rfl, Token.solid_suffix_cons _ _⟩
  | operand he => exact .inl (.cons he.isBlank_eq (Token.solid_suffix he.suffix))
  | parensOpen hkind | parensClose hkind =>
      exact .inl (.cons (Token.isBlank_of_kind hkind) (List.suffix_refl _))
  | operator hsign => exact .inl (.cons (Token.isBlank_of_kind hsign.1) (List.suffix_refl _))

theorem ShuntingYard.consumes_of_steps {ts rest : List Token} {y y' : ShuntingYard}
    (h : Steps ts y rest y') : Consumes ts rest ∨ y' = y ∧ solid rest <:+ solid ts := by
  induction h with
  | refl => exact .inr ⟨rfl, List.suffix_refl _⟩
  | head hstep _ ih =>
      rcases hstep.consumes with hfirst | ⟨rfl, hblank⟩
      · exact .inl (hfirst.after (ih.elim (·.suffix) (·.2)))
      · exact ih.imp (·.before hblank) fun h => ⟨h.1, h.2.trans hblank⟩

/-- Reading an expression takes more than blanks, or else leaves the yard alone. -/
theorem ShuntingYard.consumes_read {stop : Nat} {ts rest : List Token} {y y' : ShuntingYard}
    (h : read stop ts y = .ok (y', rest)) :
    Consumes ts rest ∨ y' = y ∧ solid rest <:+ solid ts :=
  consumes_of_steps (steps_of_read h).1

theorem consumes_readExpression {stop : Nat} {ts rest : List Token} {e : Expression}
    (h : readExpression stop ts = .ok (e, rest)) : Consumes ts rest := by
  rw [readExpression] at h
  split at h
  · cases h
  · next y rest' hread =>
      split at h
      · cases h
      · next e' hfinish =>
          cases h
          rcases ShuntingYard.consumes_read hread with hconsumes | ⟨rfl, _⟩
          · exact hconsumes
          · -- An empty yard has no value to finish with.
            cases hfinish

namespace TokenStream

variable {s s' s'' : TokenStream}

theorem solid_settle (s : TokenStream) : solid s.settle.rest = solid s.rest := by
  obtain ⟨blanks, hrest, hblanks⟩ := exists_settle s
  have hnone : solid blanks = [] := by simpa [solid] using hblanks
  rw [hrest, Token.solid_append, hnone, List.nil_append]

theorem Alike.solid_eq (h : s.Alike s') : solid s.rest = solid s'.rest := by
  rw [← solid_settle s, h.rest, solid_settle]

/-- Whether `s'` is what is left of `s`, and blanks matter as they did. -/
structure Passes (s s' : TokenStream) : Prop where
  rest : solid s'.rest <:+ solid s.rest
  skipping : s'.skipping = s.skipping

/-- And whether more than blanks was taken. -/
structure Gets (s s' : TokenStream) : Prop where
  rest : Consumes s.rest s'.rest
  skipping : s'.skipping = s.skipping

namespace Passes

theorem refl (s : TokenStream) : s.Passes s := ⟨List.suffix_refl _, rfl⟩

theorem trans (h : s.Passes s') (h' : s'.Passes s'') : s.Passes s'' :=
  ⟨h'.rest.trans h.rest, h'.skipping.trans h.skipping⟩

theorem settle (s : TokenStream) : s.Passes s.settle :=
  ⟨by rw [solid_settle], settle_skipping s⟩

end Passes

namespace Gets

theorem passes (h : s.Gets s') : s.Passes s' := ⟨h.rest.suffix, h.skipping⟩

theorem before (h : s'.Gets s'') (h' : s.Passes s') : s.Gets s'' :=
  ⟨h.rest.before h'.rest, h.skipping.trans h'.skipping⟩

theorem after (h : s.Gets s') (h' : s'.Passes s'') : s.Gets s'' :=
  ⟨h.rest.after h'.rest, h'.skipping.trans h.skipping⟩

end Gets

theorem next_ok {t : Token} (h : s.next = (.ok t, s')) :
    s.settle.rest = t :: s'.rest ∧ s'.skipping = s.skipping := by
  cases hrest : s.settle.rest with
  | nil =>
      rw [next_of_nil hrest] at h
      cases h
  | cons u rest =>
      rw [next_of_cons hrest] at h
      cases h
      exact ⟨rfl, settle_skipping s⟩

theorem passes_next {t : Token} (h : s.next = (.ok t, s')) : s.Passes s' := by
  obtain ⟨hrest, hskipping⟩ := next_ok h
  refine ⟨?_, hskipping⟩
  rw [← solid_settle s, hrest]
  exact Token.solid_suffix_cons t s'.rest

theorem gets_next {t : Token} (h : s.next = (.ok t, s')) (ht : t.isBlank = false) : s.Gets s' := by
  obtain ⟨hrest, hskipping⟩ := next_ok h
  have hfirst : Consumes s.settle.rest s'.rest := by
    rw [hrest]
    exact .cons ht (List.suffix_refl _)
  exact ⟨hfirst.before (Passes.settle s).rest, hskipping⟩

end TokenStream

namespace Statement

variable {s s' : TokenStream} {st : Statement}

theorem gets_expect {kind : TokenKind} {t : Token} (h : expect kind s = .ok (t, s'))
    (hkind : kind.isBlank = false) : s.Gets s' := by
  obtain ⟨hn, ht⟩ := next_of_expect h
  exact TokenStream.gets_next hn ((Token.isBlank_of_kind ht).trans hkind)

theorem gets_readValue {e : Expression} (h : readValue s = .ok (e, s')) : s.Gets s' := by
  rw [readValue] at h
  split at h
  · next hread =>
      cases h
      exact ⟨consumes_readExpression hread, rfl⟩
  · cases h

theorem passes_unbrokenRun {run : String × Region} (h : unbrokenRun s = .ok (run, s')) :
    s.Passes s' := by
  rw [unbrokenRun] at h
  split at h
  · cases h
  · next first s₁ hn =>
      cases h
      have hafter := Token.solid_suffix (List.dropWhile_suffix (l := s₁.rest) (!·.isBlank))
      exact (TokenStream.passes_next hn).trans ⟨hafter, rfl⟩

theorem passes_readRuleName (s : TokenStream) : s.Passes (readRuleName s).2 := by
  rw [readRuleName]
  split
  · next hn =>
      split
      · exact TokenStream.passes_next hn
      · exact .refl s
  · exact .refl s

theorem gets_readAssignment (h : readAssignment s = .ok (st, s')) : s.Gets s' := by
  unfold readAssignment at h
  split at h
  · cases h
  next h₁ =>
  split at h
  · cases h
  next h₂ =>
  split at h
  · cases h
  next h₃ =>
  split at h
  · cases h
  next h₄ =>
  cases h
  have hname := (gets_expect h₁ rfl).passes.trans (gets_expect h₂ rfl).passes
  exact (gets_readValue h₄).before (hname.trans (gets_expect h₃ rfl).passes)

theorem gets_readRule (h : readRule s = .ok (st, s')) : s.Gets s' := by
  unfold readRule at h
  split at h
  · cases h
  next s₁ h₁ =>
  have hname := passes_readRuleName s₁
  split at h
  next name s₂ h₂ =>
  rw [h₂] at hname
  split at h
  · cases h
  next h₃ =>
  split at h
  · cases h
  next h₄ =>
  split at h
  · cases h
  next h₅ =>
  split at h
  · cases h
  next h₆ =>
  cases h
  have hexpected := (hname.trans (gets_expect h₃ rfl).passes).trans (passes_unbrokenRun h₄)
  have hreplacement := (gets_expect h₅ rfl).passes.trans (passes_unbrokenRun h₆)
  exact (gets_expect h₁ rfl).after (hexpected.trans hreplacement)

mutual

/-- Whatever kind of statement it is, reading it takes more than blanks. -/
theorem gets_read {s : TokenStream} {r : Taken s Statement} (h : read s = .ok r) :
    s.Gets r.1.2 := by
  cases hn : s.next with
  | mk result after =>
    cases result with
    | error e =>
        rw [read_of_end hn] at h
        cases h
    | ok t =>
        have hlt := TokenStream.remaining_next_lt hn
        have hread := read_of_next hn
        rw [h] at hread
        split at hread
        · next hkind =>
            cases hbody : readBody after with
            | error e =>
                rw [hbody] at hread
                cases hread
            | ok r' =>
                rw [hbody] at hread
                have hr : r.1 = _ := Except.ok.inj hread
                rw [hr]
                exact (TokenStream.gets_next hn (Token.isBlank_of_kind hkind)).after
                  (passes_readBody hbody)
        · exact gets_readRule hread.symm
        · exact gets_readAssignment hread.symm
        · cases hread
        · cases hvalue : readValue s.settle with
          | error e =>
              rw [hvalue] at hread
              cases hread
          | ok r' =>
              rw [hvalue] at hread
              have hr : r.1 = _ := Except.ok.inj hread
              rw [hr]
              exact (gets_readValue hvalue).before (TokenStream.Passes.settle s)
termination_by 2 * s.remaining

theorem passes_readBody {s : TokenStream} {r : Taken s (List Statement × Token)}
    (h : readBody s = .ok r) : s.Passes r.1.2 := by
  rcases readBody_cases h with ⟨t, after, hn, hr⟩ | ⟨r₁, r₂, hread, hmore, hr⟩
  · rw [hr]
    exact TokenStream.passes_next hn
  · have hlt := r₁.2
    rw [hr]
    exact (gets_read hread).passes.trans (passes_readBody hmore)
termination_by 2 * s.remaining + 1

end

end Statement

/-! ## Errors and successes -/

/-- What a syntax error says of the source it was found in. -/
structure SyntaxError.PointsInto (source : String) (e : SyntaxError) : Prop where
  ne_pushBackAtStart : e ≠ .pushBackAtStart
  /-- It has a place, which is in the source and splits no character. -/
  region : ∃ r, e.region? = some r ∧ r.start ≤ r.stop ∧ r.stop ≤ source.utf8ByteSize ∧
    IsBoundary source r.start ∧ IsBoundary source r.stop
  /-- A token that was not due is there as it is reported. -/
  found : ∀ expected found text r, e = .unexpectedToken expected found text r →
    sliceBytes r.start r.stop source.toList = text.toList
  /-- And so is a literal that has no value. -/
  literal : ∀ text r, e = .illegalNumber text r →
    sliceBytes r.start r.stop source.toList = text.toList

theorem SyntaxError.Located.pointsInto {source : String} {e : SyntaxError} (h : e.Located source) :
    e.PointsInto source := by
  have hwithin : ∀ {r : Region}, r.Within source → r.start ≤ r.stop ∧
      r.stop ≤ source.utf8ByteSize ∧ IsBoundary source r.start ∧ IsBoundary source r.stop :=
    fun h => ⟨Region.start_le_stop _, h.stop.le, h.start, h.stop⟩
  cases e with
  | pushBackAtStart => exact absurd h id
  | prematureEnd offset =>
      exact ⟨nofun, ⟨_, rfl, hwithin (Region.within_empty h)⟩, fun _ _ _ _ => nofun, nofun⟩
  | malformed fault r => exact ⟨nofun, ⟨_, rfl, hwithin h⟩, fun _ _ _ _ => nofun, nofun⟩
  | unexpectedToken expected found text r =>
      refine ⟨nofun, ⟨_, rfl, hwithin (Region.IsToken.within h)⟩, ?_, nofun⟩
      rintro _ _ _ _ ⟨⟩
      exact Region.IsToken.sliceBytes_eq h
  | illegalNumber text r =>
      refine ⟨nofun, ⟨_, rfl, hwithin (Region.IsToken.within h)⟩, fun _ _ _ _ => nofun, ?_⟩
      rintro _ _ ⟨⟩
      exact Region.IsToken.sliceBytes_eq h

namespace Parser

/-- What a statement that was parsed does to the parser. -/
structure Advances (p q : Parser) : Prop where
  /-- It takes more than blanks. -/
  taken : ∃ taken, taken ≠ [] ∧
    solid p.reader.stream.rest = taken ++ solid q.reader.stream.rest
  /-- Blanks matter to the reader as much as they did. -/
  skipping : q.reader.skipping = p.reader.skipping
  scope : q.scope = p.scope

theorem parse_of_le {fuel more : Nat} {source : String} {result : Except SyntaxError Tree}
    (h : parse fuel source = some result) (hle : fuel ≤ more) :
    parse more source = some result := by
  unfold parse at h ⊢
  cases hrun : program fuel (start source) with
  | none =>
      rw [hrun] at h
      cases h
  | some outcome =>
      rw [hrun] at h
      rw [under_of_le program_succ hle _ _ hrun]
      exact h

/-- However much fuel there was, an answer is what reading and planting come to. -/
theorem eq_ofSource_of_parse {fuel : Nat} {source : String} {result : Except SyntaxError Tree}
    (h : parse fuel source = some result) : result = Tree.ofSource source := by
  have henough := parse_eq source (Nat.lt_succ_of_le (Nat.le_max_left
    (3 * (Token.scan source).length + 1) fuel))
  rw [parse_of_le h (Nat.le_succ_of_le (Nat.le_max_right _ _))] at henough
  exact Option.some.inj henough

theorem pointsInto_of_parse {fuel : Nat} {source : String} {e : SyntaxError}
    (h : parse fuel source = some (.error e)) : e.PointsInto source := by
  have hlocated := Statement.located_ofSource source
  have he : Tree.ofSource source = .error e := (eq_ofSource_of_parse h).symm
  rw [Tree.ofSource] at he
  split at he
  · cases he
  · next hread =>
      cases he
      rw [hread] at hlocated
      exact hlocated.pointsInto

/-- If it is a statement, the parser gets on and is in the same state otherwise. -/
theorem advances_of_statement {fuel : Nat} {p q : Parser} {n : NodeId}
    (h : statement fuel p = some (.ok (n, q))) : p.Advances q := by
  have hmore := under_of_le statement_succ
    (Nat.le_succ_of_le (Nat.le_max_right (3 * p.reader.stream.remaining) fuel)) p _ h
  rcases (gives_statement (.refl p.reader.stream)
      (Nat.lt_succ_of_le (Nat.le_max_left _ _))).cases with
    ⟨e, _, hrun⟩ | ⟨⟨st, s⟩, m, q', hread, hrun, halike, hscope, _⟩
  · rw [hmore] at hrun
    cases hrun
  · rw [hmore] at hrun
    cases hrun
    obtain ⟨r, hread, hr⟩ := Statement.exists_of_map_val hread
    have hgets := Statement.gets_read hread
    rw [hr] at hgets
    refine ⟨?_, halike.skipping.trans hgets.skipping, hscope⟩
    rw [halike.solid_eq]
    exact hgets.rest.exists_taken

theorem isSome_statement {fuel : Nat} {p : Parser} (hfuel : 3 * p.reader.stream.remaining < fuel) :
    (statement fuel p).isSome = true := by
  rcases (gives_statement (.refl p.reader.stream) hfuel).cases with
    ⟨e, _, hrun⟩ | ⟨_, n, q, _, hrun, _⟩
  · rw [hrun]
    rfl
  · rw [hrun]
    rfl

/-- With three rounds for each token, and two more, parsing comes to an end. It ends
with the tree of the source or with an error that points into it, and so does
each statement, which gets the parser on if it is one. -/
theorem parse_ends (source : String) (p : Parser) :
    (∀ fuel, 3 * (Token.scan source).length + 1 < fuel →
      parse fuel source = some (Tree.ofSource source)) ∧
    (∀ fuel e, parse fuel source = some (.error e) → e.PointsInto source) ∧
    (∀ fuel, 3 * p.reader.stream.remaining < fuel → (statement fuel p).isSome = true) ∧
    ∀ fuel n q, statement fuel p = some (.ok (n, q)) → p.Advances q :=
  ⟨fun _ => parse_eq source, fun _ _ => pointsInto_of_parse, fun _ => isSome_statement,
    fun _ _ _ => advances_of_statement⟩

/-- A string with a letter of two bytes, in front of a number that should be a name,
and by itself behind a blank line. -/
theorem parse_ends_string :
    Tree.ofSource "'ä'\nset 3" = .error (.unexpectedToken .identifier .number "3" ⟨9, 1⟩) ∧
      sliceBytes 9 10 "'ä'\nset 3".toList = "3".toList ∧
      ∃ n q, statement 13 (start "\n'ä'") = some (.ok (n, q)) ∧ (start "\n'ä'").Advances q := by
  have hfails : (parse 23 "'ä'\nset 3").map (Except.map fun _ => ()) =
      some (.error (.unexpectedToken .identifier .number "3" ⟨9, 1⟩)) := by decide +kernel
  have hreads : Option.map (Except.map fun _ => ()) (statement 13 (start "\n'ä'")) =
      some (.ok () : Except SyntaxError Unit) := by decide +kernel
  obtain ⟨htree, hpoints, _, hadvances⟩ := parse_ends "'ä'\nset 3" (start "\n'ä'")
  obtain ⟨result, hparse, hresult⟩ := Option.map_eq_some_iff.1 hfails
  obtain ⟨outcome, hrun, houtcome⟩ := Option.map_eq_some_iff.1 hreads
  cases result with
  | ok t => cases hresult
  | error e =>
    cases hresult
    refine ⟨?_, (hpoints 23 _ hparse).found _ _ _ _ rfl, ?_⟩
    · rw [htree 23 (by decide +kernel)] at hparse
      exact Option.some.inj hparse
    · cases outcome with
      | error e => cases houtcome
      | ok r => exact ⟨r.1, r.2, hrun, hadvances 13 r.1 r.2 hrun⟩

end Parser

end Lindenmayer
