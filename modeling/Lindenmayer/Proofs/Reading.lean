import Lindenmayer.Proofs.Grammar
import Lindenmayer.Proofs.Lexemes
import Lindenmayer.Proofs.ShuntingYard
import Lindenmayer.Proofs.WellWritten
import Lindenmayer.Tree.Printer

/-!
# Readers in front of a text

What a reader of statements does is settled by the text in front of it. The
lemmas here are about a stream of the form `TokenStream.ofText`: the tokens of a
text, from some offset on, with nothing looked at. A reader that succeeds on it
is in front of the rest of the text afterwards, as many bytes further on as it
has read.

Readers of statements skip blanks first, so all lemmas let blanks stand in
front of what is read.
-/

namespace Lindenmayer

open Lindenmayer.Text

def Blanks (cs : List Char) : Prop := ∀ c ∈ cs, Text.isBlank c = true

def StartsDark (cs : List Char) : Prop := ∀ c ∈ cs.head?, Text.isBlank c = false

/-- Whether no run or number goes on into a text. -/
def Closed (cs : List Char) : Prop :=
  ∀ d ∈ cs.head?, Text.isBlank d = true ∨ (Token.isDelimiter d = true ∧ d ≠ '.')

def EndsLine (cs : List Char) : Prop := ∀ d ∈ cs.head?, d = '\n'

theorem EndsLine.closed {cs : List Char} (h : EndsLine cs) : Closed cs := by
  intro d hd
  rw [h d hd]
  exact .inl (by decide)

theorem Blanks.append {cs ds : List Char} (hc : Blanks cs) (hd : Blanks ds) :
    Blanks (cs ++ ds) := by
  intro c h
  rcases List.mem_append.1 h with h | h
  · exact hc c h
  · exact hd c h

theorem StartsDark.append {cs : List Char} (h : StartsDark cs) (hne : cs ≠ []) (rest : List Char) :
    StartsDark (cs ++ rest) := by
  obtain ⟨c, cs, rfl⟩ := List.exists_cons_of_ne_nil hne
  exact h

namespace Token

/-- Nothing blank goes on into something dark. -/
theorem parts_of_blanks {cs rest : List Char} (h : Blanks cs) (hrest : StartsDark rest) :
    Parts cs rest := by
  intro c hc d hd
  left
  rw [h c hc, hrest d hd]
  exact Bool.false_ne_true.symm

theorem parts_of_closed {cs rest : List Char} (h : ∀ c ∈ cs, Text.isBlank c = false)
    (hrest : Closed rest) : Parts cs rest := by
  intro c hc d hd
  rcases hrest d hd with hd | hd
  · left
    rw [h c hc, hd]
    exact Bool.false_ne_true
  · exact .inr hd

theorem isBlank_of_mem_scanFrom {offset : Nat} {cs : List Char} {b : Bool}
    (h : ∀ c ∈ cs, Text.isBlank c = b) {t : Token} (ht : t ∈ scanFrom offset cs) :
    t.isBlank = b := by
  have hlexical : IsLexeme t.kind t.text.toList := lexical_of_mem_scanFrom ht
  obtain ⟨c, w, hw, _⟩ := lexeme_of_isLexeme hlexical
  have hc : c ∈ t.text.toList := by
    rw [hw]
    exact List.mem_cons_self
  rw [isBlank, ← hlexical.isBlank_eq c hc, h c (mem_of_mem_scanFrom ht hc)]

theorem exists_scanFrom_cons (offset : Nat) (c : Char) (cs : List Char) :
    ∃ t ts, scanFrom offset (c :: cs) = t :: ts ∧ t.isBlank = Text.isBlank c := by
  refine ⟨_, _, scanFrom_cons offset c cs, ?_⟩
  exact ((isLexeme_lexeme c cs).isBlank_eq c List.mem_cons_self).symm

/-- Skipping blanks in a text is skipping its blank tokens. -/
theorem dropWhile_scanFrom {cs rest : List Char} (h : Blanks cs) (hrest : StartsDark rest)
    (offset : Nat) :
    (scanFrom offset (cs ++ rest)).dropWhile isBlank = scanFrom (offset + byteLength cs) rest := by
  rw [scanFrom_append offset (parts_of_blanks h hrest), List.dropWhile_append_of_pos]
  · cases rest with
    | nil =>
        rw [scanFrom]
        rfl
    | cons d rest =>
        obtain ⟨t, ts, hscan, ht⟩ := exists_scanFrom_cons (offset + byteLength cs) d rest
        rw [hscan, List.dropWhile_cons_of_neg]
        rw [ht, hrest d rfl]
        exact Bool.false_ne_true
  · exact fun t ht => isBlank_of_mem_scanFrom h ht

/-- There is no run in front of a blank. -/
theorem run_scanFrom_of_isBlank {rest : List Char} (hrest : ∀ d ∈ rest.head?, Text.isBlank d = true)
    (offset : Nat) :
    (scanFrom offset rest).takeWhile (!·.isBlank) = [] ∧
    (scanFrom offset rest).dropWhile (!·.isBlank) = scanFrom offset rest := by
  cases rest with
  | nil =>
      rw [scanFrom]
      exact ⟨rfl, rfl⟩
  | cons d rest =>
      obtain ⟨t, ts, hscan, ht⟩ := exists_scanFrom_cons offset d rest
      rw [hscan, List.takeWhile_cons, List.dropWhile_cons, ht, hrest d rfl]
      exact ⟨rfl, rfl⟩

end Token

namespace TokenStream

/-- The stream over a text that starts at an offset. -/
def ofText (stop offset : Nat) (cs : List Char) : TokenStream :=
  ⟨Token.scanFrom offset cs, stop, true, false⟩

variable {stop offset : Nat} {cs rest : List Char}

theorem settle_ofText (h : Blanks cs) (hrest : StartsDark rest) :
    (ofText stop offset (cs ++ rest)).settle = ofText stop (offset + byteLength cs) rest := by
  rw [settle, ofText, ofText, ← Token.dropWhile_scanFrom h hrest]
  rfl

/-- Taking a lexeme behind blanks. -/
theorem next_ofText {kind : TokenKind} {w : List Char} (h : Blanks cs)
    (hw : Token.IsLexeme kind w) (hkind : kind.isBlank = false) (hrest : Closed rest) :
    (ofText stop offset (cs ++ (w ++ rest))).next =
      (.ok ⟨kind, String.ofList w, offset + byteLength cs⟩,
        ofText stop (offset + byteLength cs + byteLength w) rest) := by
  have hdark : ∀ c ∈ w, Text.isBlank c = false := fun c hc => by rw [hw.isBlank_eq c hc, hkind]
  have hstart : StartsDark (w ++ rest) := by
    obtain ⟨c, w, rfl, _⟩ := Token.lexeme_of_isLexeme hw
    intro d hd
    cases hd
    exact hdark c List.mem_cons_self
  have hparts := Token.parts_of_closed hdark hrest
  rw [next, settle_ofText h hstart, ofText, Token.scanFrom_lexeme hw hparts]
  rfl

end TokenStream

/-! ## Parts of statements -/

namespace Statement

open TokenStream (ofText)

variable {stop offset : Nat} {cs w rest : List Char} {kind : TokenKind}

theorem expect_ofText (h : Blanks cs) (hw : Token.IsLexeme kind w) (hkind : kind.isBlank = false)
    (hrest : Closed rest) :
    expect kind (ofText stop offset (cs ++ (w ++ rest))) =
      .ok (⟨kind, String.ofList w, offset + byteLength cs⟩,
        ofText stop (offset + byteLength cs + byteLength w) rest) := by
  rw [expect, TokenStream.nextKind, TokenStream.next_ofText h hw hkind hrest]
  dsimp only
  rw [if_pos rfl]

theorem readValue_ofText {ts : List Token} {e : Expr} (hend : EndsLine rest)
    (hts : Token.scanFrom offset (cs ++ rest) =
      ts ++ Token.scanFrom (offset + byteLength cs) rest) (h : Derives .sum ts e) :
    ∃ region, readValue (ofText stop offset (cs ++ rest)) =
      .ok (⟨e, region⟩, ofText stop (offset + byteLength cs) rest) := by
  have hends : EndsExpression (Token.scanFrom (offset + byteLength cs) rest) := by
    cases rest with
    | nil =>
        rw [Token.scanFrom]
        exact trivial
    | cons d rest =>
        rw [hend d rfl, Token.scanFrom_cons]
        exact .inl rfl
  obtain ⟨region, hread⟩ := readExpression_eq h hends
  refine ⟨region, ?_⟩
  rw [readValue, ofText, hts, hread]
  rfl

/-- Tokens that follow on each other are put together like one token. -/
theorem joinRun_cons {first t : Token} (more : List Token)
    (h : t.offset = first.offset + first.text.utf8ByteSize) :
    joinRun first (t :: more) =
      joinRun ⟨first.kind, first.text ++ t.text, first.offset⟩ more := by
  have hregion : first.region.merge t.region =
      ⟨first.offset, (first.text ++ t.text).utf8ByteSize⟩ := by
    rw [Token.region, Token.region, h, String.utf8ByteSize_append]
    exact Region.merge_behind first.offset first.text.utf8ByteSize 0 t.text.utf8ByteSize
  rw [joinRun, List.foldl_cons]
  dsimp only
  rw [hregion]
  rfl

/-- A token and the tokens of the text behind it make up the text of all of them. -/
theorem joinRun_scanFrom (kind : TokenKind) (start : Nat) (w v : List Char) :
    joinRun ⟨kind, String.ofList w, start⟩ (Token.scanFrom (start + byteLength w) v) =
      (String.ofList (w ++ v), ⟨start, byteLength (w ++ v)⟩) := by
  generalize h : start + byteLength w = offset
  revert h
  fun_induction Token.scanFrom offset v generalizing w with
  | case1 offset =>
      intro _
      rw [List.append_nil, ← Token.region_ofList kind]
      rfl
  | case2 offset c cs more ih =>
      rintro rfl
      have hcut : w ++ c :: more ++ cs.drop more.length = w ++ c :: cs := by
        rw [List.append_assoc, List.cons_append, Token.lexeme_append_drop]
      have hoffset : start + byteLength w = start + (String.ofList w).utf8ByteSize := by
        rw [utf8ByteSize_eq, String.toList_ofList]
      rw [joinRun_cons _ hoffset, ← String.ofList_append, ih, hcut]
      rw [byteLength_append, Nat.add_assoc]

/-- Taking what stands between blanks. -/
theorem unbrokenRun_ofText {run : String} (h : Blanks cs) (hrun : IsRun run)
    (hrest : ∀ d ∈ rest.head?, Text.isBlank d = true) :
    unbrokenRun (ofText stop offset (cs ++ (run.toList ++ rest))) =
      .ok ((run, ⟨offset + byteLength cs, byteLength run.toList⟩),
        ofText stop (offset + byteLength cs + byteLength run.toList) rest) := by
  obtain ⟨hne, hdark⟩ := hrun
  obtain ⟨c, w, hw⟩ := List.exists_cons_of_ne_nil hne
  have hstart : StartsDark (run.toList ++ rest) := by
    rw [hw] at hdark ⊢
    intro d hd
    cases hd
    exact hdark c List.mem_cons_self
  obtain ⟨kind, v, v', hv, hfirst⟩ : ∃ kind v v', v ++ v' = run.toList ∧
      Token.scanFrom (offset + byteLength cs) run.toList =
        ⟨kind, String.ofList v, offset + byteLength cs⟩ ::
          Token.scanFrom (offset + byteLength cs + byteLength v) v' := by
    rw [hw, Token.scanFrom_cons]
    exact ⟨_, _, _, congrArg (c :: ·) (Token.lexeme_append_drop c w), rfl⟩
  have hmore : ∀ t ∈ Token.scanFrom (offset + byteLength cs + byteLength v) v',
      (!t.isBlank) = true := by
    intro t ht
    rw [Token.isBlank_of_mem_scanFrom hdark (hfirst ▸ List.mem_cons_of_mem _ ht)]
    rfl
  have hscan := Token.scanFrom_append (offset + byteLength cs)
    (Token.parts_of_closed hdark fun d hd => .inl (hrest d hd))
  obtain ⟨htake, hdrop⟩ := Token.run_scanFrom_of_isBlank hrest
    (offset + byteLength cs + byteLength run.toList)
  rw [unbrokenRun, TokenStream.next, TokenStream.settle_ofText h hstart, ofText, hscan, hfirst]
  dsimp only [List.cons_append]
  rw [List.takeWhile_append_of_pos hmore, List.dropWhile_append_of_pos hmore, htake, hdrop,
    List.append_nil, joinRun_scanFrom, hv, String.ofList_toList]
  rfl

/-! ## Rules and assignments -/

theorem blanks_single : Blanks [' '] := by
  intro c hc
  rw [List.mem_singleton.1 hc]
  decide

theorem isLexeme_space : Token.IsLexeme .whitespace [' '] := by
  refine .blanks fun d hd => ?_
  rw [List.mem_singleton.1 hd]
  decide

theorem closed_space (cs : List Char) : Closed (' ' :: cs) := by
  intro d hd
  cases hd
  exact .inl (by decide)

theorem closed_colon (cs : List Char) : Closed (':' :: cs) := by
  intro d hd
  cases hd
  exact .inr (by decide)

theorem isLexeme_word {c : Char} {cs : List Char} (hc : isDigit c = false)
    (h : (c :: cs).all (fun d => !Text.isBlank d && !Token.isDelimiter d) = true) :
    Token.IsLexeme (Token.classify (c :: cs)) (c :: cs) :=
  .word hc fun d hd => by simpa using List.all_eq_true.1 h d hd

/-- The name of a rule as it is written, with a blank in front. -/
def nameText (name : Option String) : List Char :=
  match name with
  | some name => ' ' :: name.toList
  | none => []

theorem closed_nameText (name : Option String) (cs : List Char) :
    Closed (nameText name ++ ':' :: cs) := by
  cases name with
  | none => exact closed_colon cs
  | some n => exact closed_space _

theorem blanks_nil : Blanks [] := nofun

theorem isLexeme_colon : Token.IsLexeme .colon [':'] := @Token.IsLexeme.delimiter ':' (by decide)

theorem readRuleName_ofText {name : Option String} (hname : ∀ n, name = some n → IsName n) :
    readRuleName (ofText stop offset (nameText name ++ ':' :: ' ' :: rest)) =
      (name, ofText stop (offset + byteLength (nameText name)) (':' :: ' ' :: rest)) := by
  cases name with
  | none =>
      have hnext : (ofText stop offset (':' :: ' ' :: rest)).next =
          (.ok ⟨.colon, String.ofList [':'], offset + byteLength []⟩,
            ofText stop (offset + byteLength [] + byteLength [':']) (' ' :: rest)) :=
        TokenStream.next_ofText blanks_nil isLexeme_colon rfl (closed_space rest)
      rw [readRuleName, nameText, List.nil_append, hnext]
      rfl
  | some n =>
      have hnext : (ofText stop offset (' ' :: (n.toList ++ ':' :: ' ' :: rest))).next =
          (.ok ⟨.identifier, String.ofList n.toList, offset + byteLength [' ']⟩,
            ofText stop (offset + byteLength [' '] + byteLength n.toList) (':' :: ' ' :: rest)) :=
        TokenStream.next_ofText blanks_single (hname n rfl) rfl (closed_colon _)
      rw [readRuleName, nameText, List.cons_append, hnext]
      dsimp only
      rw [if_pos rfl, String.ofList_toList, Nat.add_assoc]
      rfl

theorem ruleText_eq (name : Option String) (expected replacement : String) :
    Subtree.ruleText name expected replacement =
      ['r', 'u', 'l', 'e'] ++ (nameText name ++ ':' :: ' ' :: (expected.toList ++
        ' ' :: '-' :: '>' :: ' ' :: replacement.toList)) := by
  unfold Subtree.ruleText nameText
  simp only [List.append_assoc]
  rfl

/-- A rule is read as it is written, over the whole of its text. -/
theorem readRule_ofText {name : Option String} {expected replacement : String} (h : Blanks cs)
    (hname : ∀ n, name = some n → IsName n) (hexpected : IsRun expected)
    (hreplacement : IsRun replacement) (hrest : EndsLine rest) :
    let length := byteLength (Subtree.ruleText name expected replacement)
    readRule (ofText stop offset (cs ++ (Subtree.ruleText name expected replacement ++ rest))) =
      .ok (.rule name expected replacement ⟨offset + byteLength cs, length⟩,
        ofText stop (offset + byteLength cs + length) rest) := by
  have hrule : Token.IsLexeme .ruleWord ['r', 'u', 'l', 'e'] :=
    @isLexeme_word 'r' ['u', 'l', 'e'] (by decide) (by decide)
  generalize hafter₆ : replacement.toList ++ rest = after₆
  generalize hafter₄ : expected.toList ++ ' ' :: '-' :: '>' :: ' ' :: after₆ = after₄
  have htext : Subtree.ruleText name expected replacement ++ rest =
      ['r', 'u', 'l', 'e'] ++ (nameText name ++ ':' :: ' ' :: after₄) := by
    rw [← hafter₄, ← hafter₆, ruleText_eq]
    simp only [List.append_assoc, List.cons_append]
  have h₁ : expect .ruleWord (ofText stop offset
      (cs ++ (['r', 'u', 'l', 'e'] ++ (nameText name ++ ':' :: ' ' :: after₄)))) =
        .ok (_, ofText stop _ (nameText name ++ ':' :: ' ' :: after₄)) :=
    expect_ofText h hrule rfl (closed_nameText name _)
  have h₂ : ∀ o, readRuleName (ofText stop o (nameText name ++ ':' :: ' ' :: after₄)) =
      (name, ofText stop _ (':' :: ' ' :: after₄)) := fun o => readRuleName_ofText hname
  have h₃ : ∀ o, expect .colon (ofText stop o (':' :: ' ' :: after₄)) =
      .ok (_, ofText stop _ (' ' :: after₄)) := fun o =>
    expect_ofText blanks_nil isLexeme_colon rfl (closed_space _)
  have h₄ : ∀ o, unbrokenRun (ofText stop o (' ' :: after₄)) =
      .ok ((expected, _), ofText stop _ (' ' :: '-' :: '>' :: ' ' :: after₆)) := fun o => by
    rw [← hafter₄]
    exact unbrokenRun_ofText blanks_single hexpected fun d hd => by cases hd; decide
  have h₅ : ∀ o, expect .arrow (ofText stop o (' ' :: '-' :: '>' :: ' ' :: after₆)) =
      .ok (_, ofText stop _ (' ' :: after₆)) := fun o =>
    expect_ofText blanks_single .arrow rfl (closed_space _)
  have h₆ : ∀ o, unbrokenRun (ofText stop o (' ' :: after₆)) =
      .ok ((replacement, _), ofText stop _ rest) := fun o => by
    rw [← hafter₆]
    exact unbrokenRun_ofText blanks_single hreplacement fun d hd => by rw [hrest d hd]; decide
  rw [htext]
  have hlength := congrArg byteLength (ruleText_eq name expected replacement)
  simp only [byteLength_append, byteLength_cons, byteLength_nil] at hlength
  simp only [readRule, h₁, h₂, h₃, h₄, h₅, h₆, Token.region_ofList, byteLength_cons,
    byteLength_nil, hlength]
  refine congrArg Except.ok (Prod.ext (congrArg (rule name expected replacement) ?_)
    (congrArg (ofText stop · rest) ?_))
  · simp only [Region.merge, Region.between, Region.stop, Region.mk.injEq]
    omega
  · omega

theorem readAssignment_ofText {name : String} {value : List Char} {P : Expression → Prop}
    (h : Blanks cs) (hname : IsName name)
    (hvalue : ∀ o, ∃ e o', readValue (ofText stop o (' ' :: (value ++ rest))) =
      .ok (e, ofText stop o' rest) ∧ P e) :
    ∃ region e offset', readAssignment (ofText stop offset
        (cs ++ ("set ".toList ++ name.toList ++ " = ".toList ++ value ++ rest))) =
      .ok (.assignment name region e, ofText stop offset' rest) ∧ P e := by
  have htext : "set ".toList ++ name.toList ++ " = ".toList ++ value ++ rest =
      ['s', 'e', 't'] ++ ' ' :: (name.toList ++ ' ' :: '=' :: ' ' :: (value ++ rest)) := by
    simp only [List.append_assoc]
    rfl
  have hset : Token.IsLexeme .setWord ['s', 'e', 't'] :=
    @isLexeme_word 's' ['e', 't'] (by decide) (by decide)
  have hequals : Token.IsLexeme .assignment ['='] := @Token.IsLexeme.delimiter '=' (by decide)
  rw [htext]
  generalize hafter : value ++ rest = after at hvalue
  obtain ⟨t₁, o₁, h₁⟩ : ∃ t o, expect .setWord (ofText stop offset
      (cs ++ (['s', 'e', 't'] ++ ' ' :: (name.toList ++ ' ' :: '=' :: ' ' :: after)))) =
        .ok (t, ofText stop o (' ' :: (name.toList ++ ' ' :: '=' :: ' ' :: after))) :=
    ⟨_, _, expect_ofText h hset rfl (closed_space _)⟩
  obtain ⟨t₂, o₂, h₂, htext₂⟩ : ∃ t o, expect .identifier (ofText stop o₁
      (' ' :: (name.toList ++ ' ' :: '=' :: ' ' :: after))) =
        .ok (t, ofText stop o (' ' :: '=' :: ' ' :: after)) ∧ t.text = name :=
    ⟨_, _, expect_ofText blanks_single hname rfl (closed_space _), String.ofList_toList⟩
  obtain ⟨t₃, o₃, h₃⟩ : ∃ t o, expect .assignment (ofText stop o₂ (' ' :: '=' :: ' ' :: after)) =
      .ok (t, ofText stop o (' ' :: after)) :=
    ⟨_, _, expect_ofText blanks_single hequals rfl (closed_space _)⟩
  obtain ⟨e, o₄, h₄, hP⟩ := hvalue o₃
  refine ⟨t₁.region.merge t₃.region, e, o₄, ?_, hP⟩
  simp only [readAssignment, h₁, h₂, h₃, h₄, htext₂]

/-! ## Statements -/

variable {s after : TokenStream} {t : Token}

theorem read_block (hn : s.next = (.ok t, after)) (hkind : t.kind = .curlyOpen)
    {r : Taken after (List Statement × Token)} (hbody : readBody after = .ok r) :
    ∃ r', read s = .ok r' ∧ r'.1 = (.block (t.region.merge r.1.1.2.region) r.1.1.1, r.1.2) := by
  have hread := read_of_next hn
  rw [hkind, hbody] at hread
  exact exists_of_map_val hread

theorem read_rule {r : Statement × TokenStream} (hr : readRule s = .ok r) :
    ∃ r', read s = .ok r' ∧ r'.1 = r := by
  have hword : ∃ t after, expect .ruleWord s = .ok (t, after) := by
    rw [readRule] at hr
    split at hr
    · cases hr
    · next h => exact ⟨_, _, h⟩
  obtain ⟨t, after, h⟩ := hword
  obtain ⟨hn, hkind⟩ := next_of_expect h
  have hread := read_of_next hn
  rw [hkind] at hread
  exact exists_of_map_val (hread.trans hr)

theorem read_assignment {r : Statement × TokenStream} (hr : readAssignment s = .ok r) :
    ∃ r', read s = .ok r' ∧ r'.1 = r := by
  have hset : ∃ t after, expect .setWord s = .ok (t, after) := by
    rw [readAssignment] at hr
    split at hr
    · cases hr
    · next h => exact ⟨_, _, h⟩
  obtain ⟨t, after, h⟩ := hset
  obtain ⟨hn, hkind⟩ := next_of_expect h
  have hread := read_of_next hn
  rw [hkind] at hread
  exact exists_of_map_val (hread.trans hr)

/-- Whether an expression can start with a token. -/
def StartsValue (t : Token) : Prop :=
  t.kind = .number ∨ t.kind = .identifier ∨ t.kind = .quote ∨ t.kind = .parensOpen

theorem read_value {ts : List Token} (hrest : s.settle.rest = t :: ts) (ht : StartsValue t)
    {e : Expression} {s' : TokenStream} (hr : readValue s.settle = .ok (e, s')) :
    ∃ r', read s = .ok r' ∧ r'.1 = (.expression e, s') := by
  have hn : s.next = (.ok t, { s.settle with rest := ts, buffered := false }) := by
    rw [TokenStream.next, hrest]
  have hread := read_of_next hn
  rcases ht with hkind | hkind | hkind | hkind
  all_goals
    rw [hkind, hr] at hread
    exact exists_of_map_val hread

/-- A statement does not start with the end of a block. -/
theorem next_of_read {r : Taken s Statement} (h : read s = .ok r) :
    ∃ t after, s.next = (.ok t, after) ∧ t.kind ≠ .curlyClose := by
  rw [read] at h
  split at h
  · cases h
  · next t after hn =>
      refine ⟨t, after, hn, fun hkind => ?_⟩
      simp only [hkind] at h
      cases h

theorem readBody_close (hn : s.next = (.ok t, after)) (hkind : t.kind = .curlyClose) :
    ∃ r, readBody s = .ok r ∧ r.1 = (([], t), after) := by
  have hread := readBody_of_next hn
  rw [if_pos hkind] at hread
  exact exists_of_map_val hread

theorem readBody_cons {r : Taken s Statement} (h : read s = .ok r)
    {r' : Taken r.1.2 (List Statement × Token)} (h' : readBody r.1.2 = .ok r') :
    ∃ r'', readBody s = .ok r'' ∧ r''.1 = ((r.1.1 :: r'.1.1.1, r'.1.1.2), r'.1.2) := by
  obtain ⟨t, after, hn, hkind⟩ := next_of_read h
  have hread := readBody_of_next hn
  rw [if_neg hkind, h] at hread
  dsimp only at hread
  rw [h'] at hread
  exact exists_of_map_val hread

theorem readAll_cons {r : Taken s Statement} (h : read s = .ok r) {more : List Statement}
    (h' : readAll r.1.2 = .ok more) : readAll s = .ok (r.1.1 :: more) := by
  obtain ⟨t, after, hn, _⟩ := next_of_read h
  have hsome : ¬ s.atEnd.1 = true := by
    intro hend
    rw [TokenStream.next, List.isEmpty_iff.1 hend] at hn
    cases hn
  rw [readAll, if_neg hsome, h]
  simp only [h']

theorem readAll_nil (h : s.atEnd.1 = true) : readAll s = .ok [] := by
  rw [readAll, if_pos h]

/-- A text that is an expression and nothing else is a program of this one statement. -/
theorem ofSource_of_derives {source : String} {t : Token} {ts : List Token} {e : Expr}
    (hscan : Token.scan source = t :: ts) (ht : StartsValue t) (h : Derives .sum (t :: ts) e) :
    ∃ region, ofSource source = .ok [.expression ⟨e, region⟩] := by
  have hdark : t.isBlank = false := by
    rw [Token.isBlank]
    rcases ht with hkind | hkind | hkind | hkind
    all_goals
      rw [hkind]
      rfl
  have hsettle : (TokenStream.ofSource source).settle = TokenStream.ofSource source := by
    rw [TokenStream.settle, TokenStream.ofSource, hscan]
    simp [hdark]
  obtain ⟨region, hread⟩ := @readExpression_eq source.utf8ByteSize _ [] _ h trivial
  rw [List.append_nil, ← hscan] at hread
  have hvalue : readValue (TokenStream.ofSource source).settle =
      .ok (⟨e, region⟩, ⟨[], source.utf8ByteSize, true, false⟩) := by
    rw [hsettle, readValue, TokenStream.ofSource, hread]
  obtain ⟨r, hr, heq⟩ := read_value (by rw [hsettle]; exact hscan) ht hvalue
  have hend : r.1.2.atEnd.1 = true := by
    rw [heq]
    rfl
  have hall := readAll_cons hr (readAll_nil hend)
  rw [heq] at hall
  exact ⟨region, hall⟩

end Statement

end Lindenmayer
