import Lindenmayer.Proofs.Literals
import Lindenmayer.Proofs.Readers
import Lindenmayer.Proofs.YardSteps

/-!
# What a source text can say

Not every statement can be read from a source text. A name that was read is an
identifier, an operand of a rule has no blank in it, a string has no line end
and not both kinds of quotes, and an integer has no sign. `WellWritten` collects
these facts, which are just what is needed to write a statement down again. They
follow from what tokens look like (`Token.IsLexeme`), by going through the
readers once: whatever a reader makes of lexemes is well written.
-/

namespace Lindenmayer

open Lindenmayer.Text

/-- Whether a string can stand between quotes of one kind. -/
def Quotable (s : String) : Prop :=
  (∀ c ∈ s.toList, c ≠ '\n' ∧ c ≠ '\r') ∧ ('"' ∉ s.toList ∨ '\'' ∉ s.toList)

/-- Whether a string can be an operand of a rule. -/
def IsRun (s : String) : Prop := s.toList ≠ [] ∧ ∀ c ∈ s.toList, Text.isBlank c = false

/-- Whether a name can be read as one. -/
def IsName (s : String) : Prop := Token.IsLexeme .identifier s.toList

/-- Whether an expression has names, strings and integers as they are read. -/
def Expr.WellWritten : Expr → Prop
  | .number n _ => ∀ i, n = .integer i → n.ReadsBack
  | .string s _ => Quotable s
  | .identifier name _ => IsName name
  | .operation operator _ lhs rhs => operator ≠ .parens ∧ lhs.WellWritten ∧ rhs.WellWritten

mutual

/-- Whether a statement has names, operands and expressions as they are read. -/
def Statement.WellWritten : Statement → Prop
  | .assignment name _ value => IsName name ∧ value.value.WellWritten
  | .rule name expected replacement _ =>
    (∀ n, name = some n → IsName n) ∧ IsRun expected ∧ IsRun replacement
  | .block _ body => Statement.AllWellWritten body
  | .expression value => value.value.WellWritten

def Statement.AllWellWritten : List Statement → Prop
  | [] => True
  | st :: more => st.WellWritten ∧ Statement.AllWellWritten more

end

/-! ## Strings -/

/-- What is read up to a quote has no such quote in it, and no line end. -/
theorem not_mem_of_readString {q : Char} (hq : q = '"' ∨ q = '\'') {content : String}
    {ts rest : List Token} {close : Token} (hts : ∀ t ∈ ts, t.Lexical)
    (h : readString (String.ofList [q]) ts = some (content, close, rest)) :
    ∀ c ∈ content.toList, c ≠ '\n' ∧ c ≠ '\r' ∧ c ≠ q := by
  induction ts generalizing content close rest with
  | nil => cases h
  | cons t ts ih =>
      have hts' : ∀ u ∈ ts, u.Lexical := fun u hu => hts u (List.mem_cons_of_mem t hu)
      have ht : Token.IsLexeme t.kind t.text.toList := hts t List.mem_cons_self
      rw [readString] at h
      split at h
      · cases h
        exact fun c hc => absurd hc List.not_mem_nil
      · next hopen =>
          obtain ⟨⟨content', close', rest'⟩, hread, heq⟩ := Option.map_eq_some_iff.1 h
          have hcontent := ih hts' hread
          cases heq
          intro c hc
          split at hc
          · exact hcontent c hc
          · next hkind =>
              rw [String.toList_append] at hc
              rcases List.mem_append.1 hc with hc | hc
              · refine ⟨fun hn => hkind (ht.kind_of_lineEnd hc (.inl hn)),
                  fun hr => hkind (ht.kind_of_lineEnd hc (.inr hr)), fun hcq => hopen ?_⟩
                have hquote : (Token.lexeme q []).1 = .quote ∧ Token.isDelimiter q = true ∧
                    q ≠ '.' ∧ q ≠ '-' := by
                  rcases hq with rfl | rfl
                  · decide
                  · decide
                rw [hcq] at hc
                obtain ⟨hkind', htext⟩ := ht.of_isDelimiter hc hquote.2.1 hquote.2.2.1 hquote.2.2.2
                rw [hkind', hquote.1, ← htext, String.ofList_toList]
                exact ⟨rfl, rfl⟩
              · exact hcontent c hc

theorem quotable_of_readString {t close : Token} {content : String} {ts rest : List Token}
    (ht : t.Lexical) (hkind : t.kind = .quote) (hts : ∀ t ∈ ts, t.Lexical)
    (h : readString t.text ts = some (content, close, rest)) : Quotable content := by
  have hword : ∀ {w : List Char}, t.text.toList = w → t.text = String.ofList w := by
    intro w hw
    rw [← hw, String.ofList_toList]
  rcases Token.IsLexeme.of_quote ht hkind with hw | hw
  · rw [hword hw] at h
    have hcontent := not_mem_of_readString (.inl rfl) hts h
    exact ⟨fun c hc => ⟨(hcontent c hc).1, (hcontent c hc).2.1⟩,
      .inl fun hmem => (hcontent _ hmem).2.2 rfl⟩
  · rw [hword hw] at h
    have hcontent := not_mem_of_readString (.inr rfl) hts h
    exact ⟨fun c hc => ⟨(hcontent c hc).1, (hcontent c hc).2.1⟩,
      .inr fun hmem => (hcontent _ hmem).2.2 rfl⟩

namespace ShuntingYard

/-! ## Expressions -/

variable {vals vals' : List Expr} {ops ops' : List (Operator × Region)}

theorem wellWritten_apply {o : Operator} {place : Region} (ho : o ≠ .parens)
    (hvals : ∀ v ∈ vals, v.WellWritten) (h : apply o place vals = .ok vals') :
    ∀ v ∈ vals', v.WellWritten := by
  unfold apply at h
  split at h
  · next rhs lhs vals =>
      cases h
      intro v hv
      rcases List.mem_cons.1 hv with rfl | hv
      · exact ⟨ho, hvals lhs (List.mem_cons_of_mem _ List.mem_cons_self),
          hvals rhs List.mem_cons_self⟩
      · exact hvals v (List.mem_cons_of_mem _ (List.mem_cons_of_mem _ hv))
  · cases h

theorem wellWritten_applies (h : Applies (· ≠ .parens) ops vals ops' vals')
    (hvals : ∀ v ∈ vals, v.WellWritten) : ∀ v ∈ vals', v.WellWritten := by
  induction h with
  | done => exact hvals
  | apply htop happly _ ih => exact ih (wellWritten_apply htop hvals happly)

/-- An operand is a lexeme, or a string between two of them. -/
theorem Operand.wellWritten {t : Token} {ts rest : List Token} {e : Expr} {region : Region}
    (h : Operand t ts e region rest) (hts : ∀ u ∈ t :: ts, u.Lexical) : e.WellWritten := by
  have hlexeme : Token.IsLexeme t.kind t.text.toList := hts t List.mem_cons_self
  cases h with
  | identifier hkind =>
      rw [hkind] at hlexeme
      exact hlexeme
  | number hkind hvalue =>
      rw [hkind] at hlexeme
      rintro i rfl
      exact readsBack_of_ofLiteral? hlexeme hvalue
  | string hkind hs =>
      exact quotable_of_readString (hts t List.mem_cons_self) hkind
        (fun u hu => hts u (List.mem_cons_of_mem _ hu)) hs

theorem Step.wellWritten {ts us : List Token} {y z : ShuntingYard} (h : Step ts y us z)
    (hts : ∀ t ∈ ts, t.Lexical) (hvals : ∀ v ∈ y.values, v.WellWritten) :
    ∀ v ∈ z.values, v.WellWritten := by
  cases h with
  | blank | parensOpen => exact hvals
  | operand he => exact List.forall_mem_cons.2 ⟨he.wellWritten hts, hvals⟩
  | parensClose _ hclose =>
      obtain ⟨_, happlies⟩ := applies_of_closeParens hclose
      exact wellWritten_applies happlies hvals
  | operator _ hyield =>
      exact wellWritten_applies (applies_of_applyTighter hyield).1.ne_parens hvals

theorem wellWritten_of_steps {ts rest : List Token} {y y' : ShuntingYard}
    (h : Steps ts y rest y') (hts : ∀ t ∈ ts, t.Lexical)
    (hvals : ∀ v ∈ y.values, v.WellWritten) :
    (∀ v ∈ y'.values, v.WellWritten) ∧ ∀ t ∈ rest, t.Lexical := by
  induction h with
  | refl => exact ⟨hvals, hts⟩
  | head hstep _ ih =>
      exact ih (fun t ht => hts t (hstep.suffix.mem ht)) (hstep.wellWritten hts hvals)

theorem wellWritten_read {stop : Nat} {ts rest : List Token} {y y' : ShuntingYard}
    (hts : ∀ t ∈ ts, t.Lexical) (hvals : ∀ v ∈ y.values, v.WellWritten)
    (h : read stop ts y = .ok (y', rest)) :
    (∀ v ∈ y'.values, v.WellWritten) ∧ ∀ t ∈ rest, t.Lexical :=
  wellWritten_of_steps (steps_of_read h).1 hts hvals

end ShuntingYard

theorem wellWritten_readExpression {stop : Nat} {ts rest : List Token} {e : Expression}
    (hts : ∀ t ∈ ts, t.Lexical) (h : readExpression stop ts = .ok (e, rest)) :
    e.value.WellWritten ∧ ∀ t ∈ rest, t.Lexical := by
  rw [readExpression] at h
  split at h
  · cases h
  · next y rest' hread =>
      obtain ⟨hvals, hrest⟩ :=
        ShuntingYard.wellWritten_read hts (fun v hv => absurd hv List.not_mem_nil) hread
      rw [ShuntingYard.finish] at h
      split at h
      · cases h
      · next e' hfinish =>
          cases h
          refine ⟨?_, hrest⟩
          split at hfinish
          · cases hfinish
          · cases hfinish
          · next hall =>
              cases hfinish
              exact ShuntingYard.wellWritten_applies (ShuntingYard.applies_of_applyAll hall)
                hvals _ List.mem_cons_self
          · cases hfinish

/-! ## Streams of lexemes -/

namespace TokenStream

/-- A stream as readers of statements see it: blanks are skipped, nothing has
been looked at, and all tokens are lexemes. -/
structure Scanned (s : TokenStream) : Prop where
  skipping : s.skipping = true
  notBuffered : s.buffered = false
  lexical : ∀ t ∈ s.rest, t.Lexical

variable {s s' : TokenStream} {t : Token}

theorem scanned_ofSource (source : String) : (ofSource source).Scanned :=
  ⟨rfl, rfl, fun _ ht => Token.lexical_of_mem_scanFrom ht⟩

namespace Scanned

theorem settle_eq (h : s.Scanned) :
    s.settle = { s with rest := s.rest.dropWhile Token.isBlank } := by
  rw [settle, h.skipping, h.notBuffered]
  rfl

theorem settle (h : s.Scanned) : s.settle.Scanned := by
  rw [h.settle_eq]
  exact ⟨h.skipping, h.notBuffered,
    fun t ht => h.lexical t ((List.dropWhile_suffix _).mem ht)⟩

theorem next (h : s.Scanned) (hn : s.next = (.ok t, s')) :
    t.Lexical ∧ t.isBlank = false ∧ s'.Scanned := by
  have hsettle := h.settle
  rw [TokenStream.next] at hn
  split at hn
  · cases hn
  · next rest hrest =>
      cases hn
      have hmem : ∀ u ∈ t :: rest, u.Lexical := fun u hu =>
        hsettle.lexical u (by rw [hrest]; exact hu)
      refine ⟨hmem t List.mem_cons_self, ?_, hsettle.skipping, rfl,
        fun u hu => hmem u (List.mem_cons_of_mem t hu)⟩
      rw [h.settle_eq] at hrest
      have hhead := List.head?_dropWhile_not Token.isBlank s.rest
      rw [show s.rest.dropWhile Token.isBlank = t :: rest from hrest] at hhead
      exact hhead

end Scanned

end TokenStream

namespace Statement

open TokenStream (Scanned)

variable {s s' : TokenStream} {t : Token} {kind : TokenKind}

theorem expect_scanned (h : s.Scanned) (he : expect kind s = .ok (t, s')) :
    Token.IsLexeme kind t.text.toList ∧ s'.Scanned := by
  obtain ⟨hn, hkind⟩ := next_of_expect he
  obtain ⟨hlexical, _, hscanned⟩ := h.next hn
  rw [← hkind]
  exact ⟨hlexical, hscanned⟩

theorem readValue_wellWritten {e : Expression} (h : s.Scanned) (hv : readValue s = .ok (e, s')) :
    e.value.WellWritten ∧ s'.Scanned := by
  rw [readValue] at hv
  split at hv
  · next hread =>
      cases hv
      obtain ⟨he, hrest⟩ := wellWritten_readExpression h.lexical hread
      exact ⟨he, h.skipping, rfl, hrest⟩
  · cases hv

theorem text_joinRun (first : Token) (more : List Token) :
    (joinRun first more).1.toList =
      first.text.toList ++ more.flatMap fun t => t.text.toList := by
  have hfold : ∀ (ts : List Token) (run : String × Region),
      (ts.foldl (fun run t => (run.1 ++ t.text, run.2.merge t.region)) run).1.toList =
        run.1.toList ++ ts.flatMap fun t => t.text.toList := by
    intro ts
    induction ts with
    | nil => intro run; exact (List.append_nil _).symm
    | cons t ts ih =>
        intro run
        rw [List.foldl_cons, ih, String.toList_append, List.append_assoc, List.flatMap_cons]
  exact hfold more (first.text, first.region)

theorem unbrokenRun_isRun {run : String × Region} (h : s.Scanned)
    (hr : unbrokenRun s = .ok (run, s')) : IsRun run.1 ∧ s'.Scanned := by
  rw [unbrokenRun] at hr
  split at hr
  · cases hr
  · next first s₁ hn =>
      cases hr
      obtain ⟨hlexical, hblank, hscanned⟩ := h.next hn
      refine ⟨?_, hscanned.skipping, hscanned.notBuffered,
        fun u hu => hscanned.lexical u ((List.dropWhile_suffix _).mem hu)⟩
      obtain ⟨c, cs, hfirst, _⟩ := Token.lexeme_of_isLexeme hlexical
      rw [IsRun, text_joinRun]
      refine ⟨fun hnil => ?_, fun d hd => ?_⟩
      · rw [hfirst] at hnil
        cases hnil
      · rcases List.mem_append.1 hd with hd | hd
        · rw [Token.IsLexeme.isBlank_eq hlexical d hd]
          exact hblank
        · obtain ⟨u, hu, hd⟩ := List.mem_flatMap.1 hd
          have hu' : Token.IsLexeme u.kind u.text.toList :=
            hscanned.lexical u (List.takeWhile_subset _ hu)
          have hblank' := List.mem_takeWhile_imp (p := fun t : Token => !t.isBlank) hu
          rw [hu'.isBlank_eq d hd]
          simpa [Token.isBlank] using hblank'

theorem readAssignment_wellWritten {st : Statement} (h : s.Scanned)
    (hr : readAssignment s = .ok (st, s')) : st.WellWritten ∧ s'.Scanned := by
  rw [readAssignment] at hr
  split at hr
  · cases hr
  · next hset =>
      have h₁ := (expect_scanned h hset).2
      split at hr
      · cases hr
      · next hname =>
          obtain ⟨hname, h₂⟩ := expect_scanned h₁ hname
          split at hr
          · cases hr
          · next hequals =>
              have h₃ := (expect_scanned h₂ hequals).2
              split at hr
              · cases hr
              · next hvalue =>
                  obtain ⟨hvalue', h₄⟩ := readValue_wellWritten h₃ hvalue
                  cases hr
                  exact ⟨⟨hname, hvalue'⟩, h₄⟩

theorem readRuleName_isName {name : Option String} (h : s.Scanned)
    (hr : readRuleName s = (name, s')) : (∀ n, name = some n → IsName n) ∧ s'.Scanned := by
  rw [readRuleName] at hr
  split at hr
  · next t s₁ hn =>
      split at hr
      · next hkind =>
          cases hr
          obtain ⟨hlexical, _, hscanned⟩ := h.next hn
          refine ⟨fun n hname => ?_, hscanned⟩
          cases hname
          rw [IsName, ← hkind]
          exact hlexical
      · cases hr
        exact ⟨nofun, h⟩
  · cases hr
    exact ⟨nofun, h⟩

theorem readRule_wellWritten {st : Statement} (h : s.Scanned) (hr : readRule s = .ok (st, s')) :
    st.WellWritten ∧ s'.Scanned := by
  rw [readRule] at hr
  split at hr
  · cases hr
  · next hword =>
      have h₁ := (expect_scanned h hword).2
      split at hr
      next name s₂ hname =>
      obtain ⟨hname, h₂⟩ := readRuleName_isName h₁ hname
      split at hr
      · cases hr
      · next hcolon =>
          have h₃ := (expect_scanned h₂ hcolon).2
          split at hr
          · cases hr
          · next hexpected =>
              obtain ⟨hexpected, h₄⟩ := unbrokenRun_isRun h₃ hexpected
              split at hr
              · cases hr
              · next harrow =>
                  have h₅ := (expect_scanned h₄ harrow).2
                  split at hr
                  · cases hr
                  · next hreplacement =>
                      obtain ⟨hreplacement', h₆⟩ := unbrokenRun_isRun h₅ hreplacement
                      cases hr
                      exact ⟨⟨hname, hexpected, hreplacement'⟩, h₆⟩

mutual

theorem read_wellWritten {s : TokenStream} (h : s.Scanned) {r : Taken s Statement}
    (hr : read s = .ok r) : r.1.1.WellWritten ∧ r.1.2.Scanned := by
  rcases read_cases hr with ⟨t, after, r', hn, hbody, heq⟩ | hrule | hassignment | ⟨e, s', hv, heq⟩
  · have hlt := TokenStream.remaining_next_lt hn
    rw [heq]
    exact readBody_wellWritten (h.next hn).2.2 hbody
  · exact readRule_wellWritten h hrule
  · exact readAssignment_wellWritten h hassignment
  · rw [heq]
    exact readValue_wellWritten h.settle hv
termination_by 2 * s.remaining

theorem readBody_wellWritten {s : TokenStream} (h : s.Scanned)
    {r : Taken s (List Statement × Token)} (hr : readBody s = .ok r) :
    AllWellWritten r.1.1.1 ∧ r.1.2.Scanned := by
  rcases readBody_cases hr with ⟨t, after, hn, heq⟩ | ⟨r₁, r₂, hfirst, hmore, heq⟩
  · rw [heq]
    exact ⟨trivial, (h.next hn).2.2⟩
  · have hlt := r₁.2
    obtain ⟨hwritten, hscanned⟩ := read_wellWritten h hfirst
    obtain ⟨hall, hscanned'⟩ := readBody_wellWritten hscanned hmore
    rw [heq]
    exact ⟨⟨hwritten, hall⟩, hscanned'⟩
termination_by 2 * s.remaining + 1

end

theorem readAll_wellWritten {s : TokenStream} (h : s.Scanned) {sts : List Statement}
    (hr : readAll s = .ok sts) : AllWellWritten sts := by
  rw [readAll] at hr
  split at hr
  · cases hr
    exact trivial
  · split at hr
    · cases hr
    · next hs' hfirst =>
        obtain ⟨hwritten, hscanned⟩ := read_wellWritten h hfirst
        split at hr
        · cases hr
        · next hmore =>
            have hall := readAll_wellWritten hscanned hmore
            cases hr
            exact ⟨hwritten, hall⟩
termination_by s.remaining

/-- Whatever is read from a source text is well written. -/
theorem wellWritten_ofSource {source : String} {program : List Statement}
    (h : Statement.ofSource source = .ok program) : AllWellWritten program :=
  readAll_wellWritten (TokenStream.scanned_ofSource source) h

end Statement

end Lindenmayer
