import Lindenmayer.Proofs.Bare
import Lindenmayer.Proofs.Planting
import Lindenmayer.Proofs.Reading

/-!
# Printed text read again

What was printed reads as what it was printed from, regions aside. For
expressions the grammar does the work: `Written` says that the tokens of a text
derive an expression at some level, so an operand may stand where the grammar
wants that level, and the parentheses that the printer puts are exactly those
that raise an operand to a level it does not have (`written_operandText`).
Statements follow the readers, and blocks and programs are an induction over
the statements in them.
-/

namespace Lindenmayer

open Lindenmayer.Text
open Statement (blanks_single closed_space isLexeme_space)

/-! ## Levels -/

/-- The level of an expression when it stands by itself. -/
def Expr.level : Expr → Level
  | .operation operator _ _ _ => operator.level
  | _ => .factor

/-! ## Expressions -/

namespace Token

theorem scanFrom_delimiter {c : Char} (h : isDelimiter c = true) (hdash : c ≠ '-') (offset : Nat)
    (cs : List Char) :
    scanFrom offset (c :: cs) =
      ⟨(lexeme c []).1, String.ofList [c], offset⟩ :: scanFrom (offset + byteLength [c]) cs := by
  rw [scanFrom_cons, lexeme_of_isDelimiter h hdash]
  rfl

theorem isDelimiter_quote {q : Char} (hq : q = '"' ∨ q = '\'') :
    isDelimiter q = true ∧ q ≠ '-' ∧ q ≠ '.' ∧ (lexeme q []).1 = .quote := by
  rcases hq with rfl | rfl
  · decide
  · decide

theorem scanFrom_quote {q : Char} (hq : q = '"' ∨ q = '\'') (offset : Nat) (cs : List Char) :
    scanFrom offset (q :: cs) =
      ⟨.quote, String.ofList [q], offset⟩ :: scanFrom (offset + byteLength [q]) cs := by
  obtain ⟨hdelimiter, hdash, _, hkind⟩ := isDelimiter_quote hq
  rw [scanFrom_delimiter hdelimiter hdash, hkind]

/-- Every token ends in front of a quote. -/
theorem scanFrom_append_quote {q : Char} (hq : q = '"' ∨ q = '\'') (offset : Nat)
    (cs rest : List Char) :
    scanFrom offset (cs ++ q :: rest) = scanFrom offset cs ++
      ⟨.quote, String.ofList [q], offset + byteLength cs⟩ ::
        scanFrom (offset + byteLength cs + byteLength [q]) rest := by
  obtain ⟨hdelimiter, _, hpoint, _⟩ := isDelimiter_quote hq
  have hparts : Parts cs (q :: rest) := by
    intro c _ d hd
    cases hd
    exact .inr ⟨hdelimiter, hpoint⟩
  rw [scanFrom_append offset hparts, scanFrom_quote hq]

/-- Nothing closes a string whose quote does not occur. -/
theorem not_closes_of_mem_scanFrom {offset : Nat} {cs : List Char} {q : Char} (hq : q ∉ cs)
    {t opening : Token} (ht : t ∈ scanFrom offset cs) (hopen : opening.text = String.ofList [q]) :
    ¬ t.closes opening := by
  rintro ⟨_, htext⟩
  refine hq (mem_of_mem_scanFrom ht ?_)
  rw [htext, hopen, String.toList_ofList]
  exact List.mem_cons_self

theorem isLexeme_symbol {o : Operator} (ho : o ≠ .parens) : IsLexeme .operator o.symbol.toList := by
  cases o with
  | parens => exact absurd rfl ho
  | add => exact @IsLexeme.delimiter '+' (by decide)
  | subtract => exact @IsLexeme.delimiter '-' (by decide)
  | multiply => exact @IsLexeme.delimiter '*' (by decide)
  | divide => exact @IsLexeme.delimiter '/' (by decide)

end Token

theorem startsDark_symbol {o : Operator} (ho : o ≠ .parens) (more : List Char) :
    StartsDark (o.symbol.toList ++ more) := by
  cases o with
  | parens => exact absurd rfl ho
  | add | subtract | multiply | divide => exact fun d hd => by cases hd; decide

def withoutLineEnds (cs : List Char) : List Char := cs.filter fun c => c != '\n' && c != '\r'

/-- The content of a string, by character: only what ends a line is missing. -/
theorem toList_stringContent {ts : List Token} (h : ∀ t ∈ ts, t.Lexical) :
    (stringContent ts).toList = withoutLineEnds (ts.flatMap fun t => t.text.toList) := by
  induction ts with
  | nil => rfl
  | cons t ts ih =>
      have ht : Token.IsLexeme t.kind t.text.toList := h t List.mem_cons_self
      have hrest := ih fun u hu => h u (List.mem_cons_of_mem t hu)
      rw [stringContent, List.flatMap_cons, withoutLineEnds, List.filter_append]
      split
      · next hkind =>
          have hnone : t.text.toList.filter (fun c => c != '\n' && c != '\r') = [] := by
            refine List.filter_eq_nil_iff.2 fun c hc => ?_
            rcases ht.forall_lineEnd hkind c hc with rfl | rfl
            · decide
            · decide
          rw [hnone, List.nil_append, hrest, withoutLineEnds]
      · next hkind =>
          have hall : t.text.toList.filter (fun c => c != '\n' && c != '\r') = t.text.toList := by
            refine List.filter_eq_self.2 fun c hc => ?_
            have hn : c ≠ '\n' := fun hn => hkind (ht.kind_of_lineEnd hc (.inl hn))
            have hr : c ≠ '\r' := fun hr => hkind (ht.kind_of_lineEnd hc (.inr hr))
            simp [hn, hr]
          rw [hall, String.toList_append, hrest, withoutLineEnds]

theorem toList_stringContent_scanFrom (offset : Nat) (cs : List Char) :
    (stringContent (Token.scanFrom offset cs)).toList = withoutLineEnds cs := by
  rw [toList_stringContent fun t ht => Token.lexical_of_mem_scanFrom ht,
    Token.flatMap_text_scanFrom]

theorem stringContent_scanFrom (offset : Nat) {s : String}
    (hend : ∀ c ∈ s.toList, c ≠ '\n' ∧ c ≠ '\r') :
    stringContent (Token.scanFrom offset s.toList) = s := by
  rw [← String.toList_inj, toList_stringContent_scanFrom, withoutLineEnds, List.filter_eq_self]
  intro c hc
  simp [hend c hc]

/-- Whether a text is scanned, in front of anything that cannot go on with it, to tokens of
some property that begin a value. -/
def Scans (P : List Token → Prop) (cs : List Char) : Prop :=
  ∀ offset rest, Closed rest → ∃ t ts,
    Token.scanFrom offset (cs ++ rest) =
      t :: ts ++ Token.scanFrom (offset + byteLength cs) rest ∧
    Statement.StartsValue t ∧ P (t :: ts)

namespace Scans

variable {P Q R : List Token → Prop} {cs ds : List Char}

theorem imp (h : Scans P cs) (hPQ : ∀ ts, P ts → Q ts) : Scans Q cs := by
  intro offset rest hrest
  obtain ⟨t, ts, hscan, hstart, hts⟩ := h offset rest hrest
  exact ⟨t, ts, hscan, hstart, hPQ _ hts⟩

theorem startsDark (h : Scans P cs) (rest : List Char) : StartsDark (cs ++ rest) := by
  obtain ⟨t, ts, hscan, hstart, _⟩ := h 0 [] nofun
  cases cs with
  | nil =>
      rw [List.append_nil, Token.scanFrom] at hscan
      cases hscan
  | cons c cs =>
      obtain ⟨u, us, hscan', hblank⟩ := Token.exists_scanFrom_cons 0 c (cs ++ [])
      rw [List.cons_append, hscan', List.cons_append] at hscan
      cases hscan
      intro d hd
      cases hd
      rw [← hblank, Token.isBlank]
      rcases hstart with hkind | hkind | hkind | hkind
      all_goals
        rw [hkind]
        rfl

theorem parens (h : Scans P cs)
    (hQ : ∀ opening ts closing, opening.kind = .parensOpen → P ts → closing.kind = .parensClose →
      Q (opening :: (ts ++ [closing]))) : Scans Q ('(' :: cs ++ [')']) := by
  intro offset rest _
  have hclosed : Closed (')' :: rest) := by
    intro d hd
    cases hd
    exact .inr (by decide)
  obtain ⟨t, ts, hscan, _, hts⟩ := h (offset + byteLength ['(']) (')' :: rest) hclosed
  rw [Token.scanFrom_delimiter (by decide) (by decide)] at hscan
  have htext : '(' :: cs ++ [')'] ++ rest = '(' :: (cs ++ ')' :: rest) := by
    rw [List.cons_append, List.cons_append, List.append_assoc, List.singleton_append]
  have hbytes : offset + byteLength ('(' :: cs ++ [')']) =
      offset + byteLength ['('] + byteLength cs + byteLength [')'] := by
    simp only [List.cons_append, byteLength_cons, byteLength_append, byteLength_nil, Nat.add_zero,
      Nat.add_assoc]
  refine ⟨⟨.parensOpen, String.ofList ['('], offset⟩,
    t :: ts ++ [⟨.parensClose, String.ofList [')'], offset + byteLength ['('] + byteLength cs⟩],
    ?_, .inr (.inr (.inr rfl)), hQ _ _ _ rfl hts rfl⟩
  rw [htext, hbytes, Token.scanFrom_delimiter (by decide) (by decide), hscan]
  simp only [List.cons_append, List.append_assoc, List.nil_append]
  rfl

theorem operation {o : Operator} (ho : o ≠ .parens) (hl : Scans P cs) (hr : Scans Q ds)
    (hR : ∀ ts before sign after us, P ts → before.kind = .whitespace → sign.isSign o →
      after.kind = .whitespace → Q us → R (ts ++ [before] ++ sign :: after :: us)) :
    Scans R (cs ++ ' ' :: o.symbol.toList ++ ' ' :: ds) := by
  intro offset rest hrest
  have hsign := Token.isLexeme_symbol ho
  have htext : cs ++ ' ' :: o.symbol.toList ++ ' ' :: ds ++ rest =
      cs ++ ' ' :: (o.symbol.toList ++ ' ' :: (ds ++ rest)) := by
    simp only [List.append_assoc, List.cons_append]
  obtain ⟨t, ts, hscanl, hstart, hts⟩ :=
    hl offset (' ' :: (o.symbol.toList ++ ' ' :: (ds ++ rest))) (closed_space _)
  obtain ⟨before, hbefore, _, hscan₁⟩ := Token.exists_scanFrom_lexeme isLexeme_space
    (Token.parts_of_blanks blanks_single (startsDark_symbol ho (' ' :: (ds ++ rest))))
    (offset + byteLength cs)
  obtain ⟨sign, hkind, hsymbol, hscan₂⟩ := Token.exists_scanFrom_lexeme hsign
    (Token.parts_of_closed (fun c hc => hsign.isBlank_eq c hc) (closed_space (ds ++ rest)))
    (offset + byteLength cs + byteLength [' '])
  obtain ⟨after, hafter, _, hscan₃⟩ := Token.exists_scanFrom_lexeme isLexeme_space
    (Token.parts_of_blanks blanks_single (hr.startsDark rest))
    (offset + byteLength cs + byteLength [' '] + byteLength o.symbol.toList)
  obtain ⟨u, us, hscanr, _, hus⟩ :=
    hr (offset + byteLength cs + byteLength [' '] + byteLength o.symbol.toList + byteLength [' '])
      rest hrest
  have hbytes : offset + byteLength (cs ++ ' ' :: o.symbol.toList ++ ' ' :: ds) =
      offset + byteLength cs + byteLength [' '] + byteLength o.symbol.toList + byteLength [' '] +
        byteLength ds := by
    simp only [byteLength_cons, byteLength_append, byteLength_nil, Nat.add_zero, Nat.add_assoc]
  rw [String.ofList_toList] at hsymbol
  refine ⟨t, ts ++ [before] ++ sign :: after :: u :: us, ?_, hstart,
    hR (t :: ts) before sign after (u :: us) hts hbefore ⟨hkind, hsymbol⟩ hafter hus⟩
  rw [htext, hbytes, hscanl]
  rw [List.singleton_append] at hscan₁ hscan₃
  rw [hscan₁, hscan₂, hscan₃, hscanr]
  simp only [List.cons_append, List.append_assoc, List.nil_append]

end Scans

/-- Whether a text is scanned to tokens from which an expression is derived at a level. -/
def Written (level : Level) (e : Expr) : List Char → Prop :=
  Scans fun ts => ∃ e', Derives level ts e' ∧ e'.bare = e.bare

namespace Written

variable {level level' : Level} {e l r : Expr} {cs ds : List Char}

theorem weaken (h : Written level e cs) (hle : level'.precedence ≤ level.precedence) :
    Written level' e cs := by
  refine h.imp fun ts hts => ?_
  obtain ⟨e', hderives, hbare⟩ := hts
  exact ⟨e', hderives.weaken hle, hbare⟩

theorem number {n : Number} {region : Region} (h : n.ReadsBack) :
    Written .factor (.number n region) n.text.toList := by
  intro offset rest hrest
  obtain ⟨hlexeme, hread⟩ := h
  have hparts := Token.parts_of_closed (fun c hc => hlexeme.isBlank_eq c hc) hrest
  refine ⟨_, [], Token.scanFrom_lexeme hlexeme hparts offset, .inl rfl, _, .number rfl ?_, rfl⟩
  rw [String.ofList_toList]
  exact hread

theorem identifier {name : String} {region : Region} (h : IsName name) :
    Written .factor (.identifier name region) name.toList := by
  intro offset rest hrest
  have hparts := Token.parts_of_closed (fun c hc => h.isBlank_eq c hc) hrest
  refine ⟨_, [], Token.scanFrom_lexeme h hparts offset, .inr (.inl rfl), _, .identifier rfl, ?_⟩
  rw [Expr.bare, String.ofList_toList]
  rfl

theorem quoted {s : String} {q : Char} {region : Region} (hq : q = '"' ∨ q = '\'')
    (hend : ∀ c ∈ s.toList, c ≠ '\n' ∧ c ≠ '\r') (hmem : q ∉ s.toList) :
    Written .factor (.string s region) (q :: s.toList ++ [q]) := by
  intro offset rest _
  have hopen : ∀ t ∈ Token.scanFrom (offset + byteLength [q]) s.toList,
      ¬ t.closes ⟨.quote, String.ofList [q], offset⟩ :=
    fun t ht => Token.not_closes_of_mem_scanFrom hmem ht rfl
  refine ⟨⟨.quote, String.ofList [q], offset⟩,
    Token.scanFrom (offset + byteLength [q]) s.toList ++
      [⟨.quote, String.ofList [q], offset + byteLength [q] + byteLength s.toList⟩], ?_,
    .inr (.inr (.inl rfl)), _, .string rfl hopen ⟨rfl, rfl⟩, ?_⟩
  · rw [List.cons_append, List.cons_append, List.append_assoc, List.singleton_append,
      Token.scanFrom_quote hq, Token.scanFrom_append_quote hq, List.cons_append, List.append_assoc,
      List.singleton_append]
    simp only [byteLength_cons, byteLength_append, byteLength_nil, Nat.add_zero, Nat.add_assoc]
  · rw [Expr.bare, stringContent_scanFrom _ hend]
    rfl

theorem string {s : String} {region : Region} (h : Quotable s) :
    Written .factor (.string s region) (Subtree.quotedLiteral s) := by
  obtain ⟨hend, hone⟩ := h
  rw [Subtree.quotedLiteral]
  by_cases hmem : '"' ∈ s.toList
  · rw [if_pos (List.contains_iff_mem.2 hmem)]
    exact quoted (.inr rfl) hend (hone.resolve_left fun hnot => hnot hmem)
  · rw [if_neg fun hcontains => hmem (List.contains_iff_mem.1 hcontains)]
    exact quoted (.inl rfl) hend hmem

theorem parens (h : Written .sum e cs) : Written .factor e ('(' :: cs ++ [')']) := by
  refine Scans.parens h fun opening ts closing hopen hts hclose => ?_
  obtain ⟨e', hderives, hbare⟩ := hts
  exact ⟨e', .parens hopen hderives hclose, hbare⟩

theorem operation {o : Operator} {region : Region} (ho : o ≠ .parens) (hl : Written o.level l cs)
    (hr : Written o.level.tighter r ds) :
    Written o.level (.operation o region l r) (cs ++ ' ' :: o.symbol.toList ++ ' ' :: ds) := by
  refine Scans.operation ho hl hr fun ts before sign after us hts hbefore hsign hafter hus => ?_
  obtain ⟨l', hderl, hbarel⟩ := hts
  obtain ⟨r', hderr, hbarer⟩ := hus
  refine ⟨.operation o sign.region l' r',
    .operation ho (hderl.blankAfter hbefore) hsign (.blankBefore hafter hderr), ?_⟩
  rw [Expr.bare, Expr.bare, hbarel, hbarer]

end Written

/-! ## Operands -/

/-- The level that an operand stands at. -/
def operandLevel (around : Operator) (onRight : Bool) : Level :=
  if onRight then around.level.tighter else around.level

/-- An operand has to stand in parentheses just where its level is too low. -/
theorem needsParens_of_shows {around : Operator} (haround : around ≠ .parens) (onRight : Bool)
    {scope : ScopeId} {e : Expr} {s : Subtree} (he : e.WellWritten) (hs : e.Shows scope s) :
    Subtree.needsParens around onRight s =
      decide (e.level.precedence < (operandLevel around onRight).precedence) := by
  cases e with
  | number n region | string str region | identifier name region =>
      obtain ⟨id, rfl⟩ := hs
      exact (decide_eq_false (Nat.not_lt.2 (precedence_le_factor _))).symm
  | operation inner region lhs rhs =>
      obtain ⟨id, l, r, rfl, _⟩ := hs
      rw [Subtree.needsParens, Expr.level]
      cases around <;> cases inner <;> cases onRight <;> first
        | exact absurd rfl haround
        | exact absurd rfl he.1
        | decide

/-- Parentheses are put where an operand is at too low a level. -/
theorem written_operandText {around : Operator} (haround : around ≠ .parens) (onRight : Bool)
    {scope : ScopeId} {e : Expr} {s : Subtree} {cs : List Char} (he : e.WellWritten)
    (hs : e.Shows scope s) (h : Written e.level e cs) :
    Written (operandLevel around onRight) e (Subtree.operandText around onRight s cs) := by
  rw [Subtree.operandText, needsParens_of_shows haround onRight he hs]
  split
  · exact (h.weaken (sum_le_precedence _)).parens.weaken (precedence_le_factor _)
  · next hlevel => exact h.weaken (Nat.not_lt.1 fun hlt => hlevel (decide_eq_true hlt))

/-! ## What was planted, printed -/

namespace Subtree

mutual

/-- Whether all nodes of a subtree are of a kind with some property. -/
def Every (P : NodeKind → Prop) : Subtree → Prop
  | node _ kind _ children => P kind ∧ EveryAll P children

def EveryAll (P : NodeKind → Prop) : List Subtree → Prop
  | [] => True
  | s :: more => Every P s ∧ EveryAll P more

end

end Subtree

theorem Tree.every_subtreeWithin {t : Tree} {P : NodeKind → Prop} (h : ∀ n, P (t.kind n))
    (depth : Nat) (n : NodeId) : (t.subtreeWithin depth n).Every P := by
  induction depth generalizing n with
  | zero =>
      rw [subtreeWithin, Subtree.Every]
      exact ⟨h n, trivial⟩
  | succ depth ih =>
      have hall : ∀ ns : List NodeId, Subtree.EveryAll P (ns.map (t.subtreeWithin depth)) := by
        intro ns
        induction ns with
        | nil => exact trivial
        | cons m ns ihn => exact ⟨ih m, ihn⟩
      rw [subtreeWithin, Subtree.Every]
      exact ⟨h n, hall (t.children n)⟩

/-- The double that a node stands for, if it stands for one. -/
def NodeKind.float? : NodeKind → Option Float
  | .number (.float x) => some x
  | _ => none

/-- Whether a double in a node is written as a literal. -/
def NodeKind.FloatPlain (kind : NodeKind) : Prop :=
  ∀ x, kind = .number (.float x) → PlainlyWritten x

theorem readsBack_of_floatPlain {n : Number} (hinteger : ∀ i, n = .integer i → n.ReadsBack)
    (hplain : (NodeKind.number n).FloatPlain) : n.ReadsBack := by
  cases n with
  | integer i => exact hinteger i rfl
  | float x => exact (hplain x rfl).readsBack

/-- The printed text of an expression is written at the level of the expression. -/
theorem written_print {scope : ScopeId} (depth : Nat) (e : Expr) : ∀ {s : Subtree},
    e.WellWritten → e.Shows scope s → s.Every NodeKind.FloatPlain →
    Written e.level e (s.print depth) := by
  induction e with
  | number n region =>
      intro s he hs hplain
      obtain ⟨id, rfl⟩ := hs
      rw [Subtree.print]
      exact .number (readsBack_of_floatPlain he hplain.1)
  | string str region =>
      intro s he hs _
      obtain ⟨id, rfl⟩ := hs
      rw [Subtree.print]
      exact .string he
  | identifier name region =>
      intro s he hs _
      obtain ⟨id, rfl⟩ := hs
      rw [Subtree.print]
      exact .identifier he
  | operation operator region lhs rhs ihl ihr =>
      intro s he hs hplain
      obtain ⟨id, l, r, rfl, hsl, hsr⟩ := hs
      obtain ⟨ho, hel, her⟩ := he
      obtain ⟨_, hpl, hpr, _⟩ := hplain
      have hl := written_operandText ho false hel hsl (ihl hel hsl hpl)
      have hr := written_operandText ho true her hsr (ihr her hsr hpr)
      have hop : Written operator.level (.operation operator region lhs rhs) _ :=
        .operation ho hl hr
      rw [Subtree.print, Subtree.printOperation]
      exact hop

theorem written_printExpression {scope : ScopeId} (depth : Nat) {e : Expression} {s : Subtree}
    (he : e.value.WellWritten) (hs : e.Shows scope s) (hplain : s.Every NodeKind.FloatPlain) :
    Written .sum e.value (s.print depth) := by
  obtain ⟨id, value, rfl, hvalue⟩ := hs
  obtain ⟨_, hplain, _⟩ := hplain
  rw [Subtree.print, Subtree.printAll, Subtree.printAll, List.append_nil]
  exact (written_print depth e.value he hvalue hplain).weaken (sum_le_precedence _)

/-! ## Statements -/

namespace Statement

open Subtree (print printAll printStatements indentation node)
open TokenStream (ofText)

variable {stop offset : Nat} {pre rest : List Char}

theorem blanks_indentation (depth : Nat) : Blanks (indentation depth) := by
  intro c hc
  rw [List.eq_of_mem_replicate hc]
  decide

theorem blanks_newline : Blanks ['\n'] := by
  intro c hc
  rw [List.mem_singleton.1 hc]
  decide

theorem endsLine_newline (cs : List Char) : EndsLine ('\n' :: cs) := by
  intro d hd
  cases hd
  rfl

/-- A statement and the statements after it, which start on a new line. -/
theorem printStatements_cons (depth : Nat) (s : Subtree) (more : List Subtree) :
    ∃ gap, Blanks gap ∧
      (∀ tail, EndsLine tail → EndsLine (gap ++ (printStatements depth more ++ tail))) ∧
      printStatements depth (s :: more) =
        indentation depth ++ (s.print depth ++ (gap ++ printStatements depth more)) := by
  cases more with
  | nil =>
      refine ⟨[], blanks_nil, fun tail htail => htail, ?_⟩
      rw [printStatements, printStatements]
      simp only [List.append_nil]
  | cons s' more =>
      refine ⟨['\n'], blanks_newline, fun tail _ => endsLine_newline _, ?_⟩
      rw [printStatements]
      simp only [List.append_assoc, List.singleton_append]

theorem readValue_print {e : Expr} {cs : List Char} (h : Written .sum e cs)
    (hrest : EndsLine rest) :
    ∃ e' offset', readValue (ofText stop offset (cs ++ rest)) = .ok (e', ofText stop offset' rest) ∧
      e'.value.bare = e.bare := by
  obtain ⟨t, ts, hscan, _, e', hderives, hbare⟩ := h offset rest hrest.closed
  obtain ⟨region, hread⟩ : ∃ region,
      readValue (ofText stop offset (cs ++ rest)) = .ok (⟨e', region⟩, _) :=
    readValue_ofText hrest hscan hderives
  exact ⟨_, _, hread, hbare⟩

theorem readValue_print_space {e : Expr} {cs : List Char} (h : Written .sum e cs)
    (hrest : EndsLine rest) :
    ∃ e' offset', readValue (ofText stop offset (' ' :: (cs ++ rest))) =
      .ok (e', ofText stop offset' rest) ∧ e'.value.bare = e.bare := by
  obtain ⟨before, hkind, _, hscan'⟩ := Token.exists_scanFrom_lexeme isLexeme_space
    (Token.parts_of_blanks blanks_single (h.startsDark rest)) offset
  obtain ⟨t, ts, hscan, _, e', hderives, hbare⟩ := h (offset + byteLength [' ']) rest hrest.closed
  have hall : Token.scanFrom offset (' ' :: cs ++ rest) =
      before :: t :: ts ++ Token.scanFrom (offset + byteLength (' ' :: cs)) rest := by
    have hbytes : offset + byteLength (' ' :: cs) =
        offset + byteLength [' '] + byteLength cs := by
      simp only [byteLength_cons, byteLength_nil, Nat.add_zero, Nat.add_assoc]
    rw [hbytes, List.cons_append, List.cons_append, ← hscan]
    exact hscan'
  obtain ⟨region, hread⟩ : ∃ region, readValue (ofText stop offset (' ' :: cs ++ rest)) =
      .ok (⟨e', region⟩, _) := readValue_ofText hrest hall (.blankBefore hkind hderives)
  exact ⟨_, _, hread, hbare⟩

theorem read_print_assignment {name : String} {value : Expression} {cs : List Char}
    (hname : IsName name) (hw : Written .sum value.value cs) (hpre : Blanks pre)
    (hrest : EndsLine rest) :
    ∃ r, read (ofText stop offset
        (pre ++ ("set ".toList ++ name.toList ++ " = ".toList ++ cs ++ rest))) = .ok r ∧
      r.1.1.bare = .assignment name .origin value.bare ∧
      ∃ offset', r.1.2 = ofText stop offset' rest := by
  obtain ⟨region, e, o', hread, hbare⟩ := readAssignment_ofText hpre hname
    fun o => readValue_print_space hw hrest
  obtain ⟨r, hr, heq⟩ := read_assignment hread
  refine ⟨r, hr, ?_, o', ?_⟩
  · rw [heq, Statement.bare, Expression.bare, Expression.bare, hbare]
  · rw [heq]

theorem read_print_rule {name : Option String} {expected replacement : String}
    (hname : ∀ n, name = some n → IsName n) (hexpected : IsRun expected)
    (hreplacement : IsRun replacement) (hpre : Blanks pre) (hrest : EndsLine rest) :
    ∃ r, read (ofText stop offset
        (pre ++ (Subtree.ruleText name expected replacement ++ rest))) = .ok r ∧
      r.1.1.bare = .rule name expected replacement .origin ∧
      ∃ offset', r.1.2 = ofText stop offset' rest := by
  obtain ⟨r, hr, heq⟩ := read_rule (readRule_ofText hpre hname hexpected hreplacement hrest)
  refine ⟨r, hr, ?_, ?_⟩
  · rw [heq]
    rfl
  · rw [heq]
    exact ⟨_, rfl⟩

theorem read_print_expression {value : Expression} {cs : List Char}
    (hw : Written .sum value.value cs) (hpre : Blanks pre) (hrest : EndsLine rest) :
    ∃ r, read (ofText stop offset (pre ++ (cs ++ rest))) = .ok r ∧
      r.1.1.bare = .expression value.bare ∧ ∃ offset', r.1.2 = ofText stop offset' rest := by
  have hsettle : (ofText stop offset (pre ++ (cs ++ rest))).settle =
      ofText stop (offset + byteLength pre) (cs ++ rest) :=
    TokenStream.settle_ofText hpre (hw.startsDark rest)
  obtain ⟨t, ts, hscan, hstart, _⟩ := hw (offset + byteLength pre) rest hrest.closed
  obtain ⟨e, o', hread, hbare⟩ : ∃ e o',
      readValue (ofText stop (offset + byteLength pre) (cs ++ rest)) =
        .ok (e, ofText stop o' rest) ∧ e.value.bare = value.value.bare := readValue_print hw hrest
  rw [← hsettle] at hread
  obtain ⟨r, hr, heq⟩ := read_value (by rw [hsettle, ofText, hscan]; rfl) hstart hread
  refine ⟨r, hr, ?_, o', ?_⟩
  · rw [heq, Statement.bare, Expression.bare, Expression.bare, hbare]
  · rw [heq]

/-- A block is read again if its statements are, behind the line end that
follows the opening brace. -/
theorem read_print_block {body : List Statement} {cs : List Char} (hpre : Blanks pre)
    (hbody : ∀ o, ∃ r, readBody (ofText stop o ('\n' :: cs)) = .ok r ∧
      bareAll r.1.1.1 = bareAll body ∧ ∃ offset', r.1.2 = ofText stop offset' rest) :
    ∃ r, read (ofText stop offset (pre ++ (['{'] ++ '\n' :: cs))) = .ok r ∧
      r.1.1.bare = .block .origin (bareAll body) ∧
      ∃ offset', r.1.2 = ofText stop offset' rest := by
  have hcurly : Token.IsLexeme .curlyOpen ['{'] := @Token.IsLexeme.delimiter '{' (by decide)
  have hnext : (ofText stop offset (pre ++ (['{'] ++ '\n' :: cs))).next = _ :=
    TokenStream.next_ofText hpre hcurly rfl (endsLine_newline _).closed
  obtain ⟨r, hr, hbare, o', hstream⟩ := hbody (offset + byteLength pre + byteLength ['{'])
  obtain ⟨r', hr', heq⟩ := read_block hnext rfl hr
  refine ⟨r', hr', ?_, o', ?_⟩
  · rw [heq, Statement.bare, hbare]
  · rw [heq, hstream]

mutual

theorem read_print (depth : Nat) (st : Statement) {scope : ScopeId} {s : Subtree}
    (hst : st.WellWritten) (hs : st.Shows scope s) (hplain : s.Every NodeKind.FloatPlain)
    {pre rest : List Char} (hpre : Blanks pre) (hrest : EndsLine rest) (offset : Nat) :
    ∃ r, read (ofText stop offset (pre ++ (s.print depth ++ rest))) = .ok r ∧
      r.1.1.bare = st.bare ∧ ∃ offset', r.1.2 = ofText stop offset' rest := by
  match st with
  | .assignment name region value =>
      obtain ⟨hname, hvalue⟩ := hst
      rw [Shows] at hs
      obtain ⟨id, full, id', v, rfl, hv⟩ := hs
      obtain ⟨_, ⟨_, hplain, _⟩, _⟩ := hplain
      have hw := written_printExpression depth hvalue hv hplain
      rw [print, printAll, print, printAll, printAll,
        printAll, List.append_nil, List.append_nil]
      exact read_print_assignment hname hw hpre hrest
  | .rule name expected replacement region =>
      obtain ⟨hname, hexpected, hreplacement⟩ := hst
      rw [Shows] at hs
      obtain ⟨id, full, id', rfl⟩ := hs
      rw [print, printAll, print, printAll, List.append_nil]
      exact read_print_rule hname hexpected hreplacement hpre hrest
  | .block region body =>
      rw [Shows] at hs
      obtain ⟨id, full, id', inner, ss, rfl, hss⟩ := hs
      obtain ⟨_, ⟨_, hplain⟩, _⟩ := hplain
      have htext : (node id .statement full [node id' (.block inner) region ss]).print depth ++
          rest = ['{'] ++ '\n' :: (printStatements (depth + 1) ss ++
            '\n' :: (indentation depth ++ '}' :: rest)) := by
        rw [print, printAll, print, printAll]
        simp only [List.append_assoc, List.cons_append, List.nil_append]
        rfl
      rw [htext]
      exact read_print_block hpre fun o =>
        readBody_print (depth + 1) depth body hst hss hplain blanks_newline hrest o
  | .expression value =>
      rw [Shows] at hs
      obtain ⟨id, full, v, rfl, hv⟩ := hs
      obtain ⟨_, hplain, _⟩ := hplain
      have hw := written_printExpression depth hst hv hplain
      rw [print, printAll, printAll, List.append_nil]
      exact read_print_expression hw hpre hrest

theorem readBody_print (depth outer : Nat) (sts : List Statement) {scope : ScopeId}
    {ss : List Subtree} (hsts : AllWellWritten sts) (hss : ShowsAll scope sts ss)
    (hplain : Subtree.EveryAll NodeKind.FloatPlain ss) {pre rest : List Char} (hpre : Blanks pre)
    (hrest : EndsLine rest) (offset : Nat) :
    ∃ r, readBody (ofText stop offset (pre ++ (printStatements depth ss ++
        '\n' :: (indentation outer ++ '}' :: rest)))) = .ok r ∧
      bareAll r.1.1.1 = bareAll sts ∧ ∃ offset', r.1.2 = ofText stop offset' rest := by
  match sts with
  | [] =>
      rw [ShowsAll] at hss
      have hcurly : Token.IsLexeme .curlyClose ['}'] := @Token.IsLexeme.delimiter '}' (by decide)
      have htext : pre ++ (printStatements depth ss ++ '\n' :: (indentation outer ++ '}' :: rest)) =
          pre ++ (['\n'] ++ indentation outer) ++ (['}'] ++ rest) := by
        rw [hss, printStatements]
        simp only [List.append_assoc, List.cons_append, List.nil_append]
      have hnext :
          (ofText stop offset (pre ++ (['\n'] ++ indentation outer) ++ (['}'] ++ rest))).next = _ :=
        TokenStream.next_ofText (hpre.append (blanks_newline.append (blanks_indentation outer)))
          hcurly rfl hrest.closed
      rw [← htext] at hnext
      obtain ⟨r, hr, heq⟩ := readBody_close hnext rfl
      exact ⟨r, hr, congrArg (fun p => bareAll p.1.1) heq, _, congrArg Prod.snd heq⟩
  | st :: more =>
      obtain ⟨hst, hsts⟩ := hsts
      rw [ShowsAll] at hss
      obtain ⟨s, ss, rfl, hs, hss⟩ := hss
      obtain ⟨hplain, hplains⟩ := hplain
      obtain ⟨gap, hgap, hends, hprint⟩ := printStatements_cons depth s ss
      have htext : pre ++ (printStatements depth (s :: ss) ++
          '\n' :: (indentation outer ++ '}' :: rest)) =
            pre ++ indentation depth ++ (s.print depth ++ (gap ++ (printStatements depth ss ++
              '\n' :: (indentation outer ++ '}' :: rest)))) := by
        rw [hprint]
        simp only [List.append_assoc]
      obtain ⟨r, hr, hbare, o', hstream⟩ := read_print depth st hst hs hplain
        (hpre.append (blanks_indentation depth)) (hends _ (endsLine_newline _)) offset
      have hmore := readBody_print depth outer more hsts hss hplains hgap hrest o'
      rw [← hstream] at hmore
      obtain ⟨r', hr', hbare', o'', hstream'⟩ := hmore
      obtain ⟨r'', hr'', heq⟩ := readBody_cons hr hr'
      rw [htext]
      refine ⟨r'', hr'', ?_, o'', ?_⟩
      · rw [heq, bareAll, bareAll, hbare, hbare']
      · rw [heq, hstream']

end

/-- Printed statements are read again, regions aside. -/
theorem readAll_print (stop depth : Nat) (sts : List Statement) {scope : ScopeId}
    {ss : List Subtree} (hsts : AllWellWritten sts) (hss : ShowsAll scope sts ss)
    (hplain : Subtree.EveryAll NodeKind.FloatPlain ss) {pre : List Char} (hpre : Blanks pre)
    (offset : Nat) :
    ∃ sts', readAll (ofText stop offset (pre ++ printStatements depth ss)) = .ok sts' ∧
      bareAll sts' = bareAll sts := by
  induction sts generalizing ss pre offset with
  | nil =>
      rw [ShowsAll] at hss
      have hsettle : (ofText stop offset (pre ++ [])).settle =
          ofText stop (offset + byteLength pre) [] :=
        TokenStream.settle_ofText hpre nofun
      refine ⟨[], readAll_nil ?_, rfl⟩
      rw [hss, printStatements, TokenStream.atEnd, hsettle, ofText, Token.scanFrom]
      rfl
  | cons st more ih =>
      obtain ⟨hst, hsts⟩ := hsts
      rw [ShowsAll] at hss
      obtain ⟨s, ss, rfl, hs, hss⟩ := hss
      obtain ⟨hplain, hplains⟩ := hplain
      obtain ⟨gap, hgap, hends, hprint⟩ := printStatements_cons depth s ss
      have hends : EndsLine (gap ++ (printStatements depth ss ++ [])) := hends [] nofun
      rw [List.append_nil] at hends
      obtain ⟨r, hr, hbare, o', hstream⟩ := read_print depth st hst hs hplain
        (hpre.append (blanks_indentation depth)) hends offset
      obtain ⟨sts', hmore, hbare'⟩ := ih hsts hss hplains hgap o'
      rw [← hstream] at hmore
      rw [hprint, ← List.append_assoc]
      refine ⟨r.1.1 :: sts', readAll_cons hr hmore, ?_⟩
      rw [bareAll, bareAll, hbare, hbare']

end Statement

/-- A text that is an expression and nothing else has a tree of that expression. -/
theorem Tree.exists_of_derives {source : String} {t : Token} {ts : List Token} {e : Expr}
    (hscan : Token.scan source = t :: ts) (ht : Statement.StartsValue t)
    (h : Derives .sum (t :: ts) e) :
    ∃ tree outer statement full expression region value, Tree.ofSource source = .ok tree ∧
      tree.subtree Tree.root = .node Tree.root (.root Scopes.global) outer
        [.node statement .statement full [.node expression .expression region [value]]] ∧
      e.Shows Scopes.global value := by
  obtain ⟨region, hsource⟩ := Statement.ofSource_of_derives hscan ht h
  obtain ⟨_, outer, ss, hroot, hshows⟩ := ofStatements_shows [.expression ⟨e, region⟩]
  rw [Statement.ShowsAll] at hshows
  obtain ⟨s, ss, rfl, hs, hnil⟩ := hshows
  rw [Statement.Shows] at hs
  obtain ⟨statement, full, s, rfl, expression, value, rfl, hvalue⟩ := hs
  rw [Statement.ShowsAll] at hnil
  subst hnil
  exact ⟨_, outer, statement, full, expression, region, value, ofSource_of_ok hsource, hroot,
    hvalue⟩

end Lindenmayer
